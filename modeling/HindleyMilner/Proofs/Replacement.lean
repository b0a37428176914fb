import HindleyMilner.Proofs.Alpha.Terms
import HindleyMilner.Proofs.Substituting.Relevance

/-!
# Replacing names by terms

The free names of a term are replaced by terms, all at once. What is put in below a binder may have
a free name that the binder would capture; then the binder is renamed to a name that nothing put in
below it has, and otherwise it is left alone. So the free names of the result are those that were
put in (`mem_free_replace`), and a parameter that is renamed by a replacement in its body gives the
same function up to bound names (`alphaEq_abs_expand`).

Typing goes through a replacement in both directions. A derivation becomes one of the replaced term
if what stands in for a name has the types that the name had (`Typing.replace`). And a derivation of
the replaced term becomes one of the term itself if the name offers all types that were used of what
stands in for it (`Typing.of_replace`). Typing depends on the relevant bindings alone
(`Typing.congr`), which is the replacement of each name by itself.
-/

namespace HindleyMilner

namespace Term

variable {s : String → Term} {p x y : String} {e body : Term}

/-! ### Capture-avoiding replacement -/

/-- The free names of what is put in for the names of `body`, other than those that `p` binds. -/
def brought (s : String → Term) (p : String) (body : Term) : List String :=
  (body.free.filter (· ≠ p)).flatMap fun y => (s y).free

private theorem mem_brought {z : String} :
    z ∈ brought s p body ↔ ∃ y ∈ body.free, y ≠ p ∧ z ∈ (s y).free := by
  simp [brought, and_assoc]

/-- A name that is longer than all the listed ones. -/
def longer (p : String) (names : List String) : String :=
  p ++ String.ofList (List.replicate ((names.map String.length).sum + 1) '_')

private theorem longer_not_mem (p : String) (names : List String) : longer p names ∉ names := by
  intro hmem
  have hle : (longer p names).length ≤ (names.map String.length).sum :=
    List.single_le_sum (by simp) _ (List.mem_map_of_mem hmem)
  have hlength : (longer p names).length = p.length + ((names.map String.length).sum + 1) := by
    simp [longer]
  omega

/-- The binder `p` itself, or a name to use in its place if it would capture something. -/
def binderFor (s : String → Term) (p : String) (body : Term) : String :=
  if p ∈ brought s p body then longer p (brought s p body) else p

private theorem binderFor_not_mem (s : String → Term) (p : String) (body : Term) :
    binderFor s p body ∉ brought s p body := by
  rw [binderFor]
  split
  · exact longer_not_mem p _
  · assumption

/-- Below the binder `q`, which stands in for `p`. -/
def under (s : String → Term) (p q : String) : String → Term :=
  fun y => if y = p then .var q else s y

/-- Puts in `s y` for each free name `y`, and renames binders that would capture something. -/
def replace (s : String → Term) : Term → Term
  | int value => .int value
  | bool value => .bool value
  | var name => s name
  | app func arg => .app (func.replace s) (arg.replace s)
  | abs param body =>
    .abs (binderFor s param body) (body.replace (under s param (binderFor s param body)))
  | letIn name init body =>
    .letIn (binderFor s name body) (init.replace s)
      (body.replace (under s name (binderFor s name body)))

/-- Puts in `e` for `x` and leaves every other name. -/
def only (x : String) (e : Term) : String → Term := fun y => if y = x then e else .var y

theorem only_self (x : String) (e : Term) : only x e x = e := if_pos rfl

theorem only_of_ne (hne : y ≠ x) (e : Term) : only x e y = .var y := if_neg hne

/-- The body with `e` wherever the name `x` is free. -/
def expand (body : Term) (x : String) (e : Term) : Term := body.replace (only x e)

/-- Below a binder, a name that it does not bind is put in as before, and the binder does not
capture what is put in. -/
theorem under_of_ne (hy : y ∈ body.free) (hne : y ≠ p) :
    under s p (binderFor s p body) y = s y ∧ binderFor s p body ∉ (s y).free := by
  refine ⟨if_neg hne, fun hmem => binderFor_not_mem s p body ?_⟩
  exact mem_brought.mpr ⟨y, hy, hne, hmem⟩

theorem mem_free_replace {z : String} : z ∈ (e.replace s).free ↔ ∃ y ∈ e.free, z ∈ (s y).free := by
  have hbinder : ∀ (s : String → Term) (p : String) (body : Term),
      (∀ s, z ∈ (body.replace s).free ↔ ∃ y ∈ body.free, z ∈ (s y).free) →
      (z ∈ (body.replace (under s p (binderFor s p body))).free ∧ z ≠ binderFor s p body ↔
          ∃ y, (y ∈ body.free ∧ y ≠ p) ∧ z ∈ (s y).free) := by
    intro s p body ih
    rw [ih]
    constructor
    · rintro ⟨⟨y, hy, hz⟩, hne⟩
      by_cases heq : y = p
      · rw [under, if_pos heq] at hz
        exact absurd (by simpa [free] using hz) hne
      · rw [(under_of_ne hy heq).1] at hz
        exact ⟨y, ⟨hy, heq⟩, hz⟩
    · rintro ⟨y, ⟨hy, hne⟩, hz⟩
      obtain ⟨hsame, hnot⟩ := under_of_ne (s := s) hy hne
      exact ⟨⟨y, hy, by rwa [hsame]⟩, fun heq => hnot (heq ▸ hz)⟩
  induction e generalizing s with
  | int value => simp [replace, free]
  | bool value => simp [replace, free]
  | var name => simp [replace, free]
  | app func arg ihfunc iharg => simp [replace, free, ihfunc, iharg, or_and_right, exists_or]
  | abs param body ih => simpa [replace, free] using hbinder s param body fun _ => ih
  | letIn name init body ihinit ihbody =>
    have h := hbinder s name body fun _ => ihbody
    simp [replace, free, ihinit, h, or_and_right, exists_or]

theorem replace_var (e : Term) : e.replace .var = e := by
  have hkept : ∀ p body, binderFor .var p body = p := by
    intro p body
    apply if_neg
    simp [mem_brought, free]
  have hunder : ∀ p, under .var p p = .var := by
    intro p
    funext y
    by_cases heq : y = p <;> simp [under, heq]
  induction e with
  | int value => rfl
  | bool value => rfl
  | var name => rfl
  | app func arg ihfunc iharg => rw [replace, ihfunc, iharg]
  | abs param body ih => rw [replace, hkept, hunder, ih]
  | letIn name init body ihinit ihbody => rw [replace, hkept, hunder, ihinit, ihbody]

/-! ### Renaming -/

/-- If names are put in for names, so they are below a binder, and the binder is paired
with its stand-in. -/
theorem paired_under {pairs : List (String × String)}
    (hs : ∀ y ∈ body.free, y ≠ p → ∃ z, s y = .var z ∧ Paired pairs y z) :
    ∀ y ∈ body.free, ∃ z, under s p (binderFor s p body) y = .var z ∧
      Paired ((p, binderFor s p body) :: pairs) y z := by
  intro y hy
  by_cases heq : y = p
  · exact ⟨binderFor s p body, if_pos heq, by simp [Paired, heq]⟩
  · obtain ⟨hsame, hnot⟩ := under_of_ne (s := s) hy heq
    obtain ⟨z, hz, hpaired⟩ := hs y hy heq
    have hne : z ≠ binderFor s p body := by
      rw [hz] at hnot
      simpa [free, eq_comm] using hnot
    exact ⟨z, hsame.trans hz, by simpa [Paired, heq, hne] using hpaired⟩

private theorem alphaUnder_replace {pairs : List (String × String)}
    (hs : ∀ y ∈ e.free, ∃ z, s y = .var z ∧ Paired pairs y z) :
    AlphaUnder pairs e (e.replace s) := by
  induction e generalizing s pairs with
  | int value => exact .int value
  | bool value => exact .bool value
  | var name =>
    obtain ⟨z, hz, hpaired⟩ := hs name (by simp [free])
    rw [replace, hz]
    exact .var hpaired
  | app func arg ihfunc iharg =>
    exact .app (ihfunc fun y hy => hs y (List.mem_append_left _ hy))
      (iharg fun y hy => hs y (List.mem_append_right _ hy))
  | abs param body ih =>
    exact .abs (ih (paired_under fun y hy hne => hs y (by simp [free, hy, hne])))
  | letIn name init body ihinit ihbody =>
    refine .letIn (ihinit fun y hy => hs y (List.mem_append_left _ hy))
      (ihbody (paired_under fun y hy hne => hs y ?_))
    simp [free, hy, hne]

/-- A parameter may take any name that is not free in the body. -/
theorem alphaEq_abs_expand {q : String} (hq : q ∉ body.free) :
    (abs p body).AlphaEq (.abs q (body.expand p (.var q))) := by
  refine .abs (alphaUnder_replace fun y hy => ?_)
  by_cases heq : y = p
  · subst heq
    exact ⟨q, only_self y _, by simp [Paired]⟩
  · have hne : y ≠ q := fun h => hq (h ▸ hy)
    exact ⟨y, only_of_ne heq _, by simp [Paired, heq, hne]⟩

end Term

/-! ### Deriving the replaced term -/

/-- In every context that agrees with `Γ` where it matters, `e` has the types that `σ` offers after
replacement of its free variables by `f`. -/
def Scheme.HeldBy (f : Nat → Ty) (σ : Scheme) (Γ : Context) (e : Term) : Prop :=
  ∀ g : Nat → Ty, (∀ v ∈ σ.free, g v = f v) → ∀ Γ', Context.AgreesOn e.free Γ Γ' →
    Typing Γ' e (σ.body.bind g)

theorem Scheme.carries_self (σ : Scheme) : σ.Carries .var σ := fun _ hagree => instance_bind hagree

theorem Scheme.Carries.heldBy {f : Nat → Ty} {σ σ' : Scheme} {Γ : Context} {y : String}
    (h : σ.Carries f σ') (hget : Γ.get? y = some σ') :
    σ.HeldBy f Γ (.var y) := by
  intro g hagree Γ' hΓ'
  have hget' : Γ'.get? y = some σ' := by rw [hΓ' y (by simp [Term.free]), hget]
  exact .var hget' (h g hagree)

namespace Context

variable {Γ Δ : Context} {s : String → Term} {f : Nat → Ty} {names : List String} {p x : String}
  {body : Term} {σ σ' : Scheme}

/-- What stands in for a listed name has in `Γ` the types that the name has in `Δ`. -/
def Filled (names : List String) (s : String → Term) (f : Nat → Ty) (Δ Γ : Context) : Prop :=
  ∀ y ∈ names, ∀ σ, Δ.get? y = some σ → σ.HeldBy f Γ (s y)

private theorem AgreesOn.of_insert {Γ' : Context} (h : AgreesOn names (Γ.insert x σ) Γ')
    (hx : x ∉ names) :
    AgreesOn names Γ Γ' := by
  intro y hy
  have hne : x ≠ y := fun heq => hx (heq ▸ hy)
  rw [h y hy, OrderedMap.get?_insert, if_neg hne]

theorem Filled.under (h : Filled (body.free.filter (· ≠ p)) s f Δ Γ) (hσ : σ.Carries f σ') :
    Filled body.free (Term.under s p (Term.binderFor s p body)) f (Δ.insert p σ)
      (Γ.insert (Term.binderFor s p body) σ') := by
  intro y hy τ hget
  rcases get?_insert_cases hget with ⟨rfl, rfl⟩ | ⟨hne, hget⟩
  · rw [Term.under, if_pos rfl]
    apply hσ.heldBy
    rw [OrderedMap.get?_insert, if_pos rfl]
  · obtain ⟨hsame, hnot⟩ := Term.under_of_ne (s := s) hy (Ne.symm hne)
    rw [hsame]
    intro g hagree Γ' hΓ'
    exact h y (by simp [hy, Ne.symm hne]) τ hget g hagree Γ' (hΓ'.of_insert hnot)

theorem Filled.congr {g : Nat → Ty} (h : Filled names s f Δ Γ) (hagree : ∀ v ∈ Δ.free, g v = f v) :
    Filled names s g Δ Γ := by
  intro y hy σ hget g' hg'
  apply h y hy σ hget g'
  intro v hv
  rw [hg' v hv, hagree v (mem_free_iff.mpr ⟨y, σ, hget, hv⟩)]

theorem Filled.left {others : List String} (h : Filled (names ++ others) s f Δ Γ) :
    Filled names s f Δ Γ :=
  fun y hy => h y (List.mem_append_left others hy)

theorem Filled.right {others : List String} (h : Filled (names ++ others) s f Δ Γ) :
    Filled others s f Δ Γ :=
  fun y hy => h y (List.mem_append_right names hy)

end Context

namespace Typing

variable {Γ Δ : Context} {s : String → Term} {e : Term} {u : Ty}

theorem replace {f : Nat → Ty} (h : Typing Δ e u) (hs : Context.Filled e.free s f Δ Γ) :
    Typing Γ (e.replace s) (u.bind f) := by
  induction h generalizing s f Γ with
  | int value => exact .int value
  | bool value => exact .bool value
  | @var Δ name σ t hget hinst =>
    obtain ⟨g, hfix, rfl⟩ := hinst.exists_bind
    rw [Ty.bind_bind]
    apply hs name (by simp [Term.free]) σ hget _ _ Γ fun _ _ => rfl
    intro v hv
    rw [hfix v (Scheme.mem_free.mp hv).2]
    rfl
  | app hfunc harg ihfunc iharg => exact .app (ihfunc hs.left) (iharg hs.right)
  | @abs Δ param body t u hbody ih => exact .abs (ih (hs.under (Scheme.carries_mono f t)))
  | @letIn Δ name init body t u hinit hbody ihinit ihbody =>
    -- As in `carry`, what the `let` quantifies is first moved out of the way.
    obtain ⟨n, hn⟩ := (Γ.free ∪ (t.bind f).vars).exists_above
    have haside : Context.Filled init.free s (asideFrom Δ f n) Δ Γ :=
      hs.left.congr fun v hv => if_pos hv
    exact .letIn (ihinit haside) (ihbody (hs.right.under (carries_generalize hn)))

theorem congr (h : Typing Γ e u) (hagree : Context.AgreesOn e.free Γ Δ) : Typing Δ e u := by
  have hfilled : Context.Filled e.free .var .var Γ Δ := by
    intro y hy σ hget
    exact σ.carries_self.heldBy ((hagree y hy).trans hget)
  have hreplaced := h.replace hfilled
  rwa [Term.replace_var, Ty.bind_var] at hreplaced

end Typing

/-! ### Deriving the term from the replaced one -/

namespace Context

variable {Γ Δ : Context} {s : String → Term} {names : List String} {p : String} {body : Term}
  {σ σ' : Scheme}

/-- What `Δ` offers for a listed name: every type that the term put in for it has, in a
context that agrees with `Γ` where it matters, and no free variable but for what the bindings
of that term have. -/
structure Mirrored (names : List String) (s : String → Term) (Γ Δ : Context) : Prop where
  offers : ∀ y ∈ names, ∀ Γ', AgreesOn (s y).free Γ Γ' → ∀ t, Typing Γ' (s y) t →
    ∃ σ, Δ.get? y = some σ ∧ σ.Instance t
  free : ∀ y ∈ names, ∀ σ, Δ.get? y = some σ →
    ∀ v ∈ σ.free, ∃ z ∈ (s y).free, ∃ δ, Γ.get? z = some δ ∧ v ∈ δ.free

theorem Mirrored.mono {more : List String} (h : Mirrored more s Γ Δ)
    (hsub : ∀ y ∈ names, y ∈ more) : Mirrored names s Γ Δ :=
  ⟨fun y hy => h.offers y (hsub y hy), fun y hy => h.free y (hsub y hy)⟩

/-- A binder on both sides, with at least the instances and at most the free variables. -/
theorem Mirrored.under (h : Mirrored (body.free.filter (· ≠ p)) s Γ Δ)
    (hinst : ∀ t, σ'.Instance t → σ.Instance t) (hfree : ∀ v ∈ σ.free, v ∈ σ'.free) :
    Mirrored body.free (Term.under s p (Term.binderFor s p body))
      (Γ.insert (Term.binderFor s p body) σ') (Δ.insert p σ) := by
  have hbound : (Γ.insert (Term.binderFor s p body) σ').get? (Term.binderFor s p body) =
      some σ' := by
    rw [OrderedMap.get?_insert, if_pos rfl]
  constructor
  · intro y hy Γ' hΓ' t ht
    by_cases heq : y = p
    · rw [Term.under, if_pos heq] at ht hΓ'
      cases ht with
      | var hget hinstance =>
        rw [hΓ' _ (by simp [Term.free]), hbound] at hget
        refine ⟨σ, ?_, hinst t (Option.some.inj hget ▸ hinstance)⟩
        rw [OrderedMap.get?_insert, if_pos heq.symm]
    · obtain ⟨hsame, hnot⟩ := Term.under_of_ne (s := s) hy heq
      rw [hsame] at ht hΓ'
      obtain ⟨τ, hget, hinstance⟩ := h.offers y (by simp [hy, heq]) Γ' (hΓ'.of_insert hnot) t ht
      refine ⟨τ, ?_, hinstance⟩
      rw [OrderedMap.get?_insert, if_neg (Ne.symm heq), hget]
  · intro y hy τ hget v hv
    rcases get?_insert_cases hget with ⟨rfl, rfl⟩ | ⟨hne, hget⟩
    · rw [Term.under, if_pos rfl]
      exact ⟨_, by simp [Term.free], σ', hbound, hfree v hv⟩
    · obtain ⟨hsame, hnot⟩ := Term.under_of_ne (s := s) hy (Ne.symm hne)
      obtain ⟨z, hz, δ, hδ, hvδ⟩ := h.free y (by simp [hy, Ne.symm hne]) τ hget v hv
      refine ⟨z, hsame ▸ hz, δ, ?_, hvδ⟩
      have hne' : Term.binderFor s p body ≠ z := fun heq => hnot (heq ▸ hz)
      rw [OrderedMap.get?_insert, if_neg hne', hδ]

theorem Mirrored.restrict (h : Mirrored names s Γ Δ) : Mirrored names s Γ (Δ.restrict names) := by
  have hget : ∀ y ∈ names, (Δ.restrict names).get? y = Δ.get? y :=
    fun y hy => (Δ.agreesOn_restrict names y hy).symm
  constructor
  · intro y hy Γ' hΓ' t ht
    rw [hget y hy]
    exact h.offers y hy Γ' hΓ' t ht
  · intro y hy σ hσ
    exact h.free y hy σ (hget y hy ▸ hσ)

theorem Mirrored.mem_free (h : Mirrored names s Γ Δ) {v : Nat} (hv : v ∈ (Δ.restrict names).free) :
    v ∈ Γ.free := by
  obtain ⟨y, σ, hget, hvσ⟩ := mem_free_iff.mp hv
  rw [get?_restrict] at hget
  split at hget
  · rename_i hy
    obtain ⟨z, -, δ, hδ, hvδ⟩ := h.free y hy σ hget v hvσ
    exact mem_free_iff.mpr ⟨z, δ, hδ, hvδ⟩
  · cases hget

/-- A context with fewer free variables generalizes to more instances. -/
theorem generalize_instance {t τ : Ty} (hfree : ∀ v ∈ Δ.free, v ∈ Γ.free)
    (h : (Γ.generalize t).Instance τ) : (Δ.generalize t).Instance τ := by
  obtain ⟨g, hfix, rfl⟩ := h.exists_bind
  apply Scheme.instance_bind (σ := Δ.generalize t)
  intro v hv
  apply hfix
  intro hbinder
  exact (VarSet.mem_sdiff.mp hbinder).2 (hfree v (mem_free_generalize.mp hv).2)

end Context

namespace Typing

variable {Γ Δ : Context} {s : String → Term} {u : Ty}

theorem of_replace {e : Term} (h : Typing Γ (e.replace s) u) (hs : Context.Mirrored e.free s Γ Δ) :
    Typing Δ e u := by
  induction e generalizing s Γ Δ u with
  | int value =>
    cases h
    exact .int value
  | bool value =>
    cases h
    exact .bool value
  | var name =>
    obtain ⟨σ, hget, hinst⟩ := hs.offers name (by simp [Term.free]) Γ (fun _ _ => rfl) u h
    exact .var hget hinst
  | app func arg ihfunc iharg =>
    cases h with
    | app hfunc harg =>
      exact .app (ihfunc hfunc (hs.mono fun y hy => List.mem_append_left _ hy))
        (iharg harg (hs.mono fun y hy => List.mem_append_right _ hy))
  | abs param body ih =>
    cases h with
    | abs hbody => exact .abs (ih hbody (hs.under (fun _ hinst => hinst) fun _ hv => hv))
  | letIn name init body ihinit ihbody =>
    cases h with
    | @letIn _ _ _ _ t _ hinit hbody =>
      -- The irrelevant bindings are left out first: their free variables may be hidden
      -- on the other side.
      apply congr (Γ := Δ.restrict (Term.letIn name init body).free) _ (Δ.agreesOn_restrict _)
      have hfree : ∀ v ∈ (Δ.restrict (Term.letIn name init body).free).free, v ∈ Γ.free :=
        fun v hv => hs.mem_free hv
      have hs' := hs.restrict
      refine .letIn (ihinit hinit (hs'.mono fun y hy => List.mem_append_left _ hy))
        (ihbody hbody ?_)
      apply (hs'.mono fun y hy => List.mem_append_right _ hy).under
      · exact fun τ hinst => Context.generalize_instance hfree hinst
      · intro v hv
        obtain ⟨hvars, hin⟩ := Context.mem_free_generalize.mp hv
        exact Context.mem_free_generalize.mpr ⟨hvars, hfree v hin⟩

/-- Below a binder the context is another one, but not where it matters. -/
theorem exists_of_under {p y : String} {body : Term} {σ : Scheme} (hy : y ∈ body.free) (hne : y ≠ p)
    (h : ∃ t, Typing (Γ.insert (Term.binderFor s p body) σ)
      (Term.under s p (Term.binderFor s p body) y) t) : ∃ t, Typing Γ (s y) t := by
  obtain ⟨t, ht⟩ := h
  obtain ⟨hsame, hnot⟩ := Term.under_of_ne (s := s) hy hne
  rw [hsame] at ht
  refine ⟨t, ht.congr fun z hz => ?_⟩
  have hne' : Term.binderFor s p body ≠ z := fun heq => hnot (heq ▸ hz)
  rw [OrderedMap.get?_insert, if_neg hne']

/-- What is put in for a name that occurs has some type. -/
theorem exists_of_replace {e : Term} {y : String} (h : Typing Γ (e.replace s) u) (hy : y ∈ e.free) :
    ∃ t, Typing Γ (s y) t := by
  induction e generalizing s Γ u with
  | int value => simp [Term.free] at hy
  | bool value => simp [Term.free] at hy
  | var name =>
    obtain rfl : y = name := by simpa [Term.free] using hy
    exact ⟨u, h⟩
  | app func arg ihfunc iharg =>
    cases h with
    | app hfunc harg =>
      rcases List.mem_append.mp hy with hy | hy
      · exact ihfunc hfunc hy
      · exact iharg harg hy
  | abs param body ih =>
    obtain ⟨hin, hne⟩ : y ∈ body.free ∧ y ≠ param := by simpa [Term.free] using hy
    cases h with
    | abs hbody => exact exists_of_under hin hne (ih hbody hin)
  | letIn name init body ihinit ihbody =>
    cases h with
    | letIn hinit hbody =>
      rcases List.mem_append.mp hy with hy | hy
      · exact ihinit hinit hy
      · obtain ⟨hin, hne⟩ : y ∈ body.free ∧ y ≠ name := by simpa using hy
        exact exists_of_under hin hne (ihbody hbody hin)

end Typing

end HindleyMilner
