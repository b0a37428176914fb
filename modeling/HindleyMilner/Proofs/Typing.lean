import HindleyMilner.Term
import HindleyMilner.Proofs.Hygiene

/-!
# The typing rules

The declarative system that inference is measured against. A variable has every instance of its
scheme, the parameter of an abstraction has one type, and `let` quantifies exactly the variables
that are not free in the context.

Derivations are carried from one context to another along a replacement of type variables
(`Typing.carry`). The second context only has to offer the instances that the first one offers,
after replacement; so the one statement covers substituting in a derivation, renaming what a `let`
inside it quantifies, and weakening to more general schemes. In the `let` case the quantified
variables are first moved out of the way, since their names mean nothing outside.
-/

namespace HindleyMilner

namespace Scheme

/-- What the scheme becomes when its binders are replaced, and nothing else. -/
def Instance (σ : Scheme) (t : Ty) : Prop :=
  ∃ s : Subst, (∀ v ∈ s, v ∈ σ.binders) ∧ σ.body.subst s = t

theorem instance_bind {σ : Scheme} {f : Nat → Ty} (hfix : ∀ v ∈ σ.free, f v = .var v) :
    σ.Instance (σ.body.bind f) := by
  refine ⟨.tabulate σ.binders.toList f, fun v hv => Subst.mem_tabulate.mp hv,
    Ty.bind_congr fun v hv => ?_⟩
  rw [Subst.image_tabulate]
  by_cases hbinder : v ∈ σ.binders.toList
  · rw [if_pos hbinder]
  · rw [if_neg hbinder, hfix v (mem_free.mpr ⟨hv, hbinder⟩)]

theorem Instance.exists_bind {σ : Scheme} {t : Ty} (h : σ.Instance t) :
    ∃ f : Nat → Ty, (∀ v, v ∉ σ.binders → f v = .var v) ∧ σ.body.bind f = t := by
  obtain ⟨s, hkeys, heq⟩ := h
  exact ⟨s.image, fun v hv => Subst.image_of_not_mem fun hin => hv (hkeys v hin), heq⟩

/-- However the binders are chosen, replacing the free variables by `f` gives an
instance of `σ'`. -/
def Carries (f : Nat → Ty) (σ σ' : Scheme) : Prop :=
  ∀ g : Nat → Ty, (∀ v ∈ σ.free, g v = f v) → σ'.Instance (σ.body.bind g)

theorem carries_mono (f : Nat → Ty) (t : Ty) : Carries f (mono t) (mono (t.bind f)) := by
  intro g hagree
  have heq : t.bind g = t.bind f := Ty.bind_congr fun v hv => hagree v (mem_free_mono.mpr hv)
  refine ⟨∅, fun v hv => absurd hv (Subst.not_mem_empty v), ?_⟩
  rw [Ty.subst_empty]
  exact heq.symm

theorem Clear.carries {s : Subst} {σ : Scheme} (hclear : Clear s σ) :
    Carries s.image σ (σ.subst s) := by
  intro g hagree
  have heq : σ.body.bind g =
      (σ.subst s).body.bind fun v => if v ∈ σ.binders then g v else .var v := by
    rw [body_subst, Ty.bind_bind]
    refine Ty.bind_congr fun v hv => ?_
    by_cases hbinder : v ∈ σ.binders
    · rw [if_pos hbinder, Ty.bind, if_pos hbinder]
    · have hfree : v ∈ σ.free := mem_free.mpr ⟨hv, hbinder⟩
      rw [if_neg hbinder, hagree v hfree]
      refine (Ty.bind_eq_self fun w hw => ?_).symm
      rw [if_neg (hclear v hfree w hw)]
  rw [heq]
  exact instance_bind fun v hv => if_neg (mem_free.mp hv).2

end Scheme

/-- Every name keeps its instances, after replacement by `f`. -/
def Context.Carries (f : Nat → Ty) (Γ Γ' : Context) : Prop :=
  ∀ x σ, Γ.get? x = some σ → ∃ σ', Γ'.get? x = some σ' ∧ σ.Carries f σ'

namespace Context

variable {Γ Γ' : Context} {f g : Nat → Ty}

theorem Carries.insert (hΓ : Γ.Carries f Γ') (x : String) {σ σ' : Scheme} (hσ : σ.Carries f σ') :
    Carries f (Γ.insert x σ) (Γ'.insert x σ') := by
  intro y τ hget
  rcases get?_insert_cases hget with ⟨rfl, rfl⟩ | ⟨hne, hget⟩
  · refine ⟨σ', ?_, hσ⟩
    rw [OrderedMap.get?_insert, if_pos rfl]
  · obtain ⟨τ', hτ', hcarries⟩ := hΓ y τ hget
    refine ⟨τ', ?_, hcarries⟩
    rw [OrderedMap.get?_insert, if_neg hne, hτ']

theorem Carries.congr (hΓ : Γ.Carries f Γ') (hagree : ∀ v ∈ Γ.free, g v = f v) :
    Γ.Carries g Γ' := by
  intro x σ hget
  obtain ⟨σ', hσ', hcarries⟩ := hΓ x σ hget
  refine ⟨σ', hσ', fun h hh => hcarries h fun v hv => ?_⟩
  rw [hh v hv, hagree v (mem_free_iff.mpr ⟨x, σ, hget, hv⟩)]

theorem Clear.carries {s : Subst} (hclear : Clear s Γ) : Γ.Carries s.image (Γ.subst s) := by
  intro x σ hget
  refine ⟨σ.subst s, ?_, (hclear x σ hget).carries⟩
  rw [get?_subst, hget, Option.map_some]

end Context

/-! ### The rules -/

inductive Typing : Context → Term → Ty → Prop
  | int {Γ : Context} (value : Int) : Typing Γ (.int value) .int
  | bool {Γ : Context} (value : Bool) : Typing Γ (.bool value) .bool
  | var {Γ : Context} {name : String} {σ : Scheme} {t : Ty} (hget : Γ.get? name = some σ)
      (hinst : σ.Instance t) : Typing Γ (.var name) t
  | app {Γ : Context} {func arg : Term} {t u : Ty} (hfunc : Typing Γ func (.fn t u))
      (harg : Typing Γ arg t) : Typing Γ (.app func arg) u
  | abs {Γ : Context} {param : String} {body : Term} {t u : Ty}
      (hbody : Typing (Γ.insert param (.mono t)) body u) :
    Typing Γ (.abs param body) (.fn t u)
  | letIn {Γ : Context} {name : String} {init body : Term} {t u : Ty} (hinit : Typing Γ init t)
    (hbody : Typing (Γ.insert name (Γ.generalize t)) body u) : Typing Γ (.letIn name init body) u

namespace Typing

/-- Replaces by `f`, but moves the variables that `let` would quantify above `n`, where
nothing else is. -/
def asideFrom (Γ : Context) (f : Nat → Ty) (n : Nat) : Nat → Ty :=
  fun v => if v ∈ Γ.free then f v else .var (n + v)

theorem carries_generalize {Γ Γ' : Context} {f : Nat → Ty} {t : Ty} {n : Nat}
    (hbound : ∀ w ∈ Γ'.free ∪ (t.bind f).vars, w < n) :
    (Γ.generalize t).Carries f (Γ'.generalize (t.bind (asideFrom Γ f n))) := by
  intro g hagree
  have heq : t.bind g =
      (t.bind (asideFrom Γ f n)).bind fun w => if w < n then .var w else g (w - n) := by
    rw [Ty.bind_bind]
    refine Ty.bind_congr fun v hv => ?_
    by_cases hfree : v ∈ Γ.free
    · rw [asideFrom, if_pos hfree, hagree v (Context.mem_free_generalize.mpr ⟨hv, hfree⟩)]
      refine (Ty.bind_eq_self fun w hw => ?_).symm
      rw [if_pos (hbound w (VarSet.mem_union.mpr (.inr (Ty.mem_vars_bind.mpr ⟨v, hv, hw⟩))))]
    · rw [asideFrom, if_neg hfree, Ty.bind, if_neg (by omega), Nat.add_sub_cancel_left]
  change (Γ'.generalize _).Instance (t.bind g)
  rw [heq]
  refine Scheme.instance_bind (σ := Γ'.generalize _) fun w hw => if_pos (hbound w ?_)
  exact VarSet.mem_union.mpr (.inl (Context.mem_free_generalize.mp hw).2)

/-- A derivation goes through in every context that offers, after replacement, the
instances it uses. -/
theorem carry {Γ : Context} {term : Term} {t : Ty} (h : Typing Γ term t) {f : Nat → Ty}
    {Γ' : Context} (hΓ : Γ.Carries f Γ') :
    Typing Γ' term (t.bind f) := by
  induction h generalizing f Γ' with
  | int value => exact .int value
  | bool value => exact .bool value
  | @var Γ name σ t hget hinst =>
    obtain ⟨σ', hget', hcarries⟩ := hΓ name σ hget
    obtain ⟨g, hfix, rfl⟩ := hinst.exists_bind
    rw [Ty.bind_bind]
    refine .var hget' (hcarries _ fun v hv => ?_)
    rw [hfix v (Scheme.mem_free.mp hv).2]
    rfl
  | app hfunc harg ihfunc iharg => exact .app (ihfunc hΓ) (iharg hΓ)
  | @abs Γ param body t u hbody ih => exact .abs (ih (hΓ.insert param (Scheme.carries_mono f t)))
  | @letIn Γ name init body t u hinit hbody ihinit ihbody =>
    obtain ⟨n, hn⟩ := (Γ'.free ∪ (t.bind f).vars).exists_above
    have haside : Γ.Carries (asideFrom Γ f n) Γ' := hΓ.congr fun v hv => if_pos hv
    exact .letIn (ihinit haside) (ihbody (hΓ.insert name (carries_generalize hn)))

theorem subst {Γ : Context} {term : Term} {t : Ty} (h : Typing Γ term t) {s : Subst}
    (hclear : Γ.Clear s) :
    Typing (Γ.subst s) term (t.subst s) := h.carry hclear.carries

end Typing

end HindleyMilner
