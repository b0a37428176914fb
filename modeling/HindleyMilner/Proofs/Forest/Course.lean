import HindleyMilner.Proofs.Forest.Refinement
import HindleyMilner.Proofs.Forest.Solution

/-!
# The course of a unification

The rules by which a unification in a forest proceeds, one for each way in which two representatives
can compare, with no bound on how deep the functions go. In a well-formed forest they lead to
exactly one attempt, the one that `unify` makes (`WellFormed.unifies_iff`). So a fact that the rules
keep one by one is a fact about every unification, and a failed one is covered like any other: it is
the attempt that ends at a clash, at a type that would contain itself, or at the first failure among
the components of two functions.
-/

namespace HindleyMilner

namespace Forest

variable {f : Forest} {a b : Ty}

/-- Both types are registered, and then their representatives are compared. -/
inductive Unifies : Forest → Ty → Ty → Attempt → Prop
  | same {f : Forest} {a b : Ty} (hsame : (f.enter a b).rep a = (f.enter a b).rep b) :
      Unifies f a b (.done (f.enter a b))
  | left {f : Forest} {a b target : Ty} {v : Nat} (ha : (f.enter a b).rep a = .var v)
      (hb : (f.enter a b).rep b = target)
    (hne : .var v ≠ target) :
      Unifies f a b (.ofLink (.var v) target (f.enter a b) ((f.enter a b).link v target))
  | right {f : Forest} {a b target : Ty} {v : Nat} {head : Ty.Head}
      (ha : (f.enter a b).rep a = target)
    (hhead : target.head? = some head) (hb : (f.enter a b).rep b = .var v) :
    Unifies f a b (.ofLink target (.var v) (f.enter a b) ((f.enter a b).link v target))
  | clash {f : Forest} {a b left right : Ty} (ha : (f.enter a b).rep a = left)
      (hb : (f.enter a b).rep b = right)
    (hclash : left.Clash right) :
      Unifies f a b ⟨.error (.mismatch left right), f.enter a b, [(left, right)]⟩
  | domains {f : Forest} {a b a₁ a₂ b₁ b₂ : Ty} {first : Attempt} {e : TypeError}
      (ha : (f.enter a b).rep a = .fn a₁ a₂)
    (hb : (f.enter a b).rep b = .fn b₁ b₂) (hne : Ty.fn a₁ a₂ ≠ .fn b₁ b₂) (hfirst :
      Unifies (f.enter a b) a₁ b₁ first)
    (herror : first.outcome = .error e) : Unifies f a b (.ofFirst (.fn a₁ a₂) (.fn b₁ b₂) first)
  | components {f : Forest} {a b a₁ a₂ b₁ b₂ : Ty} {first second : Attempt}
      (ha : (f.enter a b).rep a = .fn a₁ a₂)
    (hb : (f.enter a b).rep b = .fn b₁ b₂) (hne : Ty.fn a₁ a₂ ≠ .fn b₁ b₂) (hfirst :
      Unifies (f.enter a b) a₁ b₁ first)
    (hok : first.outcome = .ok ()) (hsecond : Unifies first.forest a₂ b₂ second) :
    Unifies f a b (.ofComponents (.fn a₁ a₂) (.fn b₁ b₂) first second)

/-! ### The rules and the function -/

theorem unifies_of_unifyWithin {levels : Nat} {attempt : Attempt}
    (hrun : unifyWithin levels a b f = some attempt) : Unifies f a b attempt := by
  induction levels generalizing f a b attempt with
  | zero => cases hrun
  | succ levels ih =>
    by_cases hsame : (f.enter a b).rep a = (f.enter a b).rep b
    · rw [unifyWithin_same hsame] at hrun
      cases hrun
      exact .same hsame
    · rcases cases_of_ne hsame with
        ⟨v, hv⟩ | ⟨head, v, hhead, hv⟩ | hclash | ⟨a₁, a₂, b₁, b₂, ha, hb⟩
      · rw [hv] at hsame
        rw [unifyWithin_left hv rfl hsame] at hrun
        cases hrun
        exact .left hv rfl hsame
      · rw [unifyWithin_right rfl hhead hv] at hrun
        cases hrun
        exact .right rfl hhead hv
      · rw [unifyWithin_clash rfl rfl hclash] at hrun
        cases hrun
        exact .clash rfl rfl hclash
      · rw [ha, hb] at hsame
        rw [unifyWithin_fn ha hb hsame] at hrun
        obtain ⟨first, hfirst, hrest⟩ := Option.bind_eq_some_iff.mp hrun
        cases houtcome : first.outcome with
        | error e =>
          rw [houtcome] at hrest
          cases hrest
          exact .domains ha hb hsame (ih hfirst) houtcome
        | ok u =>
          rw [houtcome] at hrest
          obtain ⟨second, hsecond, hpure⟩ := Option.bind_eq_some_iff.mp hrest
          cases hpure
          exact .components ha hb hsame (ih hfirst) houtcome (ih hsecond)

/-- With levels enough, the function takes the course that the rules describe. -/
theorem Unifies.exists_levels {attempt : Attempt} (h : Unifies f a b attempt) :
    ∃ levels, ∀ more, levels ≤ more → unifyWithin more a b f = some attempt := by
  -- Every rule opens one level, and the components are bounded by the larger of their two bounds.
  suffices hopen : ∃ levels, ∀ more, levels ≤ more → unifyWithin (more + 1) a b f = some attempt by
    obtain ⟨levels, hlevels⟩ := hopen
    refine ⟨levels + 1, fun more hle => ?_⟩
    obtain ⟨less, rfl⟩ : ∃ less, more = less + 1 := ⟨more - 1, by omega⟩
    exact hlevels less (by omega)
  induction h with
  | same hsame => exact ⟨0, fun _ _ => unifyWithin_same hsame⟩
  | left ha hb hne => exact ⟨0, fun _ _ => unifyWithin_left ha hb hne⟩
  | right ha hhead hb => exact ⟨0, fun _ _ => unifyWithin_right ha hhead hb⟩
  | clash ha hb hclash => exact ⟨0, fun _ _ => unifyWithin_clash ha hb hclash⟩
  | domains ha hb hne hfirst herror ih =>
    obtain ⟨levels, hlevels⟩ := ih
    refine ⟨levels + 1, fun more hle => ?_⟩
    obtain ⟨less, rfl⟩ : ∃ less, more = less + 1 := ⟨more - 1, by omega⟩
    rw [unifyWithin_fn ha hb hne, hlevels less (by omega), Option.bind_some, herror]
  | components ha hb hne hfirst hok hsecond ihfirst ihsecond =>
    obtain ⟨levels, hlevels⟩ := ihfirst
    obtain ⟨levels', hlevels'⟩ := ihsecond
    refine ⟨max levels levels' + 1, fun more hle => ?_⟩
    obtain ⟨less, rfl⟩ : ∃ less, more = less + 1 := ⟨more - 1, by omega⟩
    rw [unifyWithin_fn ha hb hne, hlevels less (by omega), Option.bind_some, hok]
    dsimp only
    rw [hlevels' less (by omega), Option.bind_some]

theorem Unifies.unique {x y : Attempt} (hx : Unifies f a b x) (hy : Unifies f a b y) : x = y := by
  obtain ⟨levels, hlevels⟩ := hx.exists_levels
  obtain ⟨levels', hlevels'⟩ := hy.exists_levels
  have hboth :=
    (hlevels (max levels levels') (Nat.le_max_left _ _)).symm.trans
      (hlevels' _ (Nat.le_max_right _ _))
  exact Option.some.inj hboth

theorem WellFormed.unifies_unify (hf : f.WellFormed) (a b : Ty) : Unifies f a b (f.unify a b) :=
  unifies_of_unifyWithin (hf.unifyWithin_eq_some_unify a b).1

/-- The attempt that unification makes is the only one that the rules allow. -/
theorem WellFormed.unifies_iff (hf : f.WellFormed) {attempt : Attempt} :
    Unifies f a b attempt ↔ attempt = f.unify a b := by
  constructor
  · intro h
    exact h.unique (hf.unifies_unify a b)
  · rintro rfl
    exact hf.unifies_unify a b

theorem Unifies.wellFormed {attempt : Attempt} (h : Unifies f a b attempt) (hf : f.WellFormed) :
    attempt.forest.WellFormed := by
  rw [hf.unifies_iff.mp h]
  exact (hf.unify_refines a b).wellFormed

/-! ### What a link does -/

private theorem link_eq_error {v : Nat} {target : Ty} {e : TypeError}
    (hlink : f.link v target = .error e) :
    e = .infinite v (f.resolve target) := by
  simp only [link] at hlink
  split at hlink
  · cases hlink
  · split at hlink
    · exact (Except.error.inj hlink).symm
    · cases hlink

private theorem link_eq_ok {v : Nat} {target : Ty} {linked : Forest}
    (hlink : f.link v target = .ok linked) : linked = f.setParent v target := by
  simp only [link] at hlink
  split at hlink
  · exact (Except.ok.inj hlink).symm
  · split at hlink
    · cases hlink
    · exact (Except.ok.inj hlink).symm

private theorem types_ofLink (f : Forest) (v : Nat) (target x y : Ty) :
    (Attempt.ofLink x y f (f.link v target)).forest.types = f.types := by
  cases hlink : f.link v target with
  | error e => rfl
  | ok linked =>
    rw [link_eq_ok hlink]
    exact types_setParent f v target

private theorem error_of_ofLink {v : Nat} {target x y : Ty} {e : TypeError}
    (herror : (Attempt.ofLink x y f (f.link v target)).outcome = .error e) :
    e = .infinite v (f.resolve target) := by
  cases hlink : f.link v target with
  | error e' =>
    rw [hlink] at herror
    exact (Except.error.inj herror) ▸ link_eq_error hlink
  | ok linked =>
    rw [hlink] at herror
    cases herror

end Forest

/-! ### The variables of a unification -/

/-- A type over the variables of `V`. -/
def Ty.Over (t : Ty) (V : Set Nat) : Prop := ∀ v ∈ t.vars, v ∈ V

namespace Ty

variable {V : Set Nat} {a b : Ty} {v : Nat}

theorem Over.mono {W : Set Nat} (h : a.Over V) (hsub : ∀ v ∈ V, v ∈ W) : a.Over W :=
  fun v hv => hsub v (h v hv)

@[simp] theorem over_int : Ty.int.Over V := fun v hv => absurd hv (VarSet.not_mem_empty v)

@[simp] theorem over_bool : Ty.bool.Over V := fun v hv => absurd hv (VarSet.not_mem_empty v)

@[simp] theorem over_var : (Ty.var v).Over V ↔ v ∈ V := by simp [Over]

@[simp] theorem over_fn : (Ty.fn a b).Over V ↔ a.Over V ∧ b.Over V := by
  simp [Over, or_imp, forall_and]

end Ty

namespace Forest

/-- A well-formed forest over the variables of `V`. -/
structure Over (f : Forest) (V : Set Nat) : Prop where
  wellFormed : f.WellFormed
  nodes : ∀ t ∈ f.types, t.Over V

theorem over_empty (V : Set Nat) : (∅ : Forest).Over V :=
  ⟨wellFormed_empty, fun _ ht => absurd ht List.not_mem_nil⟩

namespace Over

variable {f : Forest} {V W : Set Nat} {a b t : Ty}

theorem mono (h : f.Over V) (hsub : ∀ v ∈ V, v ∈ W) : f.Over W :=
  ⟨h.wellFormed, fun t ht => (h.nodes t ht).mono hsub⟩

theorem mem_of_mem_vars (h : f.Over V) {v : Nat} (hv : v ∈ f.vars) : v ∈ V := by
  obtain ⟨t, ht, hvt⟩ := VarSet.mem_unionOf.mp hv
  exact h.nodes t ht v hvt

theorem register (h : f.Over V) (ht : t.Over V) : (f.register t).Over V := by
  refine ⟨h.wellFormed.register t, fun u hu => ?_⟩
  rcases mem_types_register.mp hu with hin | rfl
  · exact h.nodes u hin
  · exact ht

theorem enter (h : f.Over V) (ha : a.Over V) (hb : b.Over V) : (f.enter a b).Over V :=
  (h.register ha).register hb

theorem rep (h : f.Over V) (ht : t.Over V) : (f.rep t).Over V := by
  cases hparent : f.parent? t with
  | none => rwa [rep_of_root hparent]
  | some u => exact h.nodes _ (h.wellFormed.rep_mem_types (mem_types_of_parent? hparent))

theorem resolve (h : f.Over V) (ht : t.Over V) : (f.resolve t).Over V := by
  intro v hv
  rcases h.wellFormed.mem_vars_resolve hv with hin | hin
  · exact ht v hin
  · exact h.mem_of_mem_vars hin

theorem ofLink (h : f.Over V) {v : Nat} {x y : Ty} (hv : v ∈ V) (ht : t.Over V)
    (hlinked : (Attempt.ofLink x y f (f.link v t)).forest.WellFormed) :
    (Attempt.ofLink x y f (f.link v t)).forest.Over V ∧
      ∀ e, (Attempt.ofLink x y f (f.link v t)).outcome = .error e → ∀ w ∈ e.vars, w ∈ V := by
  refine ⟨⟨hlinked, types_ofLink f v t x y ▸ h.nodes⟩, fun e herror w hw => ?_⟩
  rw [error_of_ofLink herror] at hw
  rcases VarSet.mem_union.mp hw with hw | hw
  · exact VarSet.mem_singleton.mp hw ▸ hv
  · exact h.resolve ht w hw

end Over

/-- However a unification ends, it brings in no variable: neither the forest that it leaves nor its
error mentions a new one. -/
theorem Unifies.over {f : Forest} {a b : Ty} {attempt : Attempt} {V : Set Nat}
    (h : Unifies f a b attempt) (hf : f.Over V) (ha : a.Over V) (hb : b.Over V) :
    attempt.forest.Over V ∧ ∀ e, attempt.outcome = .error e → ∀ v ∈ e.vars, v ∈ V := by
  induction h with
  | same hsame => exact ⟨hf.enter ha hb, nofun⟩
  | left hleft hright hne =>
    have hg := hf.enter ha hb
    have hrun := (Unifies.left hleft hright hne).wellFormed hf.wellFormed
    exact hg.ofLink (Ty.over_var.mp (hleft ▸ hg.rep ha)) (hright ▸ hg.rep hb) hrun
  | right hleft hhead hright =>
    have hg := hf.enter ha hb
    have hrun := (Unifies.right hleft hhead hright).wellFormed hf.wellFormed
    exact hg.ofLink (Ty.over_var.mp (hright ▸ hg.rep hb)) (hleft ▸ hg.rep ha) hrun
  | clash hleft hright hclash =>
    have hg := hf.enter ha hb
    refine ⟨hg, fun e herror w hw => ?_⟩
    cases herror
    rcases VarSet.mem_union.mp hw with hw | hw
    · exact (hleft ▸ hg.rep ha) w hw
    · exact (hright ▸ hg.rep hb) w hw
  | domains hleft hright hne hfirst herror ih =>
    have hg := hf.enter ha hb
    have hpair := Ty.over_fn.mp (hleft ▸ hg.rep ha)
    have hpair' := Ty.over_fn.mp (hright ▸ hg.rep hb)
    exact ih hg hpair.1 hpair'.1
  | components hleft hright hne hfirst hok hsecond ihfirst ihsecond =>
    have hg := hf.enter ha hb
    have hpair := Ty.over_fn.mp (hleft ▸ hg.rep ha)
    have hpair' := Ty.over_fn.mp (hright ▸ hg.rep hb)
    exact ihsecond (ihfirst hg hpair.1 hpair'.1).1 hpair.2 hpair'.2

theorem Over.unify {f : Forest} {a b : Ty} {V : Set Nat} (hf : f.Over V) (ha : a.Over V)
    (hb : b.Over V) :
    (f.unify a b).forest.Over V ∧ ∀ e, (f.unify a b).outcome = .error e → ∀ v ∈ e.vars, v ∈ V :=
  (hf.wellFormed.unifies_unify a b).over hf ha hb

end Forest

end HindleyMilner
