import HindleyMilner.Proofs.Forest.Refinement
import HindleyMilner.Proofs.Forest.Solution
import HindleyMilner.Proofs.Linking.Relevance

/-!
# Generalizing through a forest

Algorithm J leaves its context as it is and reads it through the forest when it generalizes: it
resolves the free variables one by one and keeps the binders out of it. Algorithm W has substituted
in the context before, and looks for what is free afterwards. The two find the same free variables
as long as no binder is mentioned in the forest, since then nothing that comes in for a free
variable is captured (`free_subst_assignment`). Hence they make the same scheme
(`generalizeIn_eq_generalize`).
-/

namespace HindleyMilner

namespace Forest

variable {f : Forest} {v : Nat}

/-- The variables that are nodes. -/
def registered (f : Forest) : List Nat := f.types.filterMap Ty.var?

private theorem mem_registered : v ∈ f.registered ↔ .var v ∈ f.types := by
  rw [registered, List.mem_filterMap]
  constructor
  · intro hsome
    obtain ⟨t, ht, hv⟩ := hsome
    cases t with
    | var w => exact Option.some.inj hv ▸ ht
    | _ => cases hv
  · intro hmem
    exact ⟨.var v, hmem, rfl⟩

/-- What the forest has for each variable that is a node. -/
def assignment (f : Forest) : Subst := .tabulate f.registered fun v => f.resolve (.var v)

private theorem WellFormed.image_assignment (hf : f.WellFormed) (v : Nat) :
    f.assignment.image v = f.resolve (.var v) := by
  apply hf.image_tabulate
  intro v hv
  cases hparent : f.parent? (.var v) with
  | none => rfl
  | some u => exact absurd (mem_registered.mpr (mem_types_of_parent? hparent)) hv

end Forest

namespace Context

variable {Γ : Context} {f : Forest}

theorem Apart.clear (h : Γ.Apart f) (hf : f.WellFormed) : Clear f.assignment Γ := by
  intro x σ hget v hv w hw hbinder
  rw [hf.image_assignment] at hw
  cases hf.mem_vars_resolve hw with
  | inl hself =>
    rw [Ty.vars_var, VarSet.mem_singleton] at hself
    exact (Scheme.mem_free.mp hv).2 (hself ▸ hbinder)
  | inr hin => exact h.not_mem_vars hget hbinder hin

/-- Substituting in the schemes leaves the same variables as resolving what is free in them. -/
theorem Apart.free_subst_assignment (h : Γ.Apart f) (hf : f.WellFormed) :
    (Γ.subst f.assignment).free = Γ.known f := by
  ext w
  rw [mem_known]
  constructor
  · intro hw
    obtain ⟨v, hv, hwv⟩ := exists_of_mem_free_subst hw
    exact ⟨v, hv, hf.image_assignment v ▸ hwv⟩
  · intro hw
    obtain ⟨v, hv, hwv⟩ := hw
    exact (h.clear hf).mem_free_subst hv (hf.image_assignment v ▸ hwv)

/-- Generalizing through the forest is generalizing the resolved type in the context under the
assignment, if no binder of the context is mentioned in the forest: the schemes have the same
binders, the same body and the same free variables. Whether a binder is free elsewhere in the
context makes no difference. -/
theorem generalizeIn_eq_generalize (hforest : f.Reachable) (h : Γ.Apart f) (t : Ty) :
    Γ.generalizeIn f t = (Γ.subst f.assignment).generalize (f.resolve t) ∧
      (Γ.generalizeIn f t).free = ((Γ.subst f.assignment).generalize (f.resolve t)).free := by
  have hscheme : Γ.generalizeIn f t = (Γ.subst f.assignment).generalize (f.resolve t) := by
    rw [generalize, h.free_subst_assignment hforest.wellFormed]
    rfl
  exact ⟨hscheme, congrArg Scheme.free hscheme⟩

/-- `1` is a function from `2` to `3`, and `3` is `4`. -/
def linkedFunction : Forest :=
  ((∅ : Forest).unify (.var 1) (.fn (.var 2) (.var 3))).forest.unify (.var 3) (.var 4) |>.forest

/-- Still speaks of `1`. -/
def behind : Context :=
  .ofList [("f", ⟨VarSet.ofList [9], .fn (.var 9) (.var 1)⟩), ("x", .mono (.var 5))]

theorem generalizeIn_eq_generalize_behind :
    linkedFunction.Reachable ∧ behind.Apart linkedFunction ∧
      behind.generalizeIn linkedFunction (.fn (.var 1) (.fn (.var 6) (.var 5))) =
        (behind.subst linkedFunction.assignment).generalize
          (.fn (.fn (.var 2) (.var 4)) (.fn (.var 6) (.var 5))) ∧
      ((behind.subst linkedFunction.assignment).generalize
        (.fn (.fn (.var 2) (.var 4)) (.fn (.var 6) (.var 5)))).binders = VarSet.ofList [6] := by
  have hreachable : linkedFunction.Reachable := .unify (.unify .empty _ _) _ _
  have hapart : behind.Apart linkedFunction := by decide
  exact ⟨hreachable, hapart,
    (generalizeIn_eq_generalize hreachable hapart
    (.fn (.var 1) (.fn (.var 6) (.var 5)))).1, by decide⟩

-- A binder that the forest mentions is captured by substituting, but not by resolving.
example :
    generalizeIn (.ofList [("f", ⟨VarSet.ofList [0], .var 1⟩)])
      ((∅ : Forest).unify (.var 1) (.var 0)).forest (.var 0) = .mono (.var 0) ∧
    (subst ((∅ : Forest).unify (.var 1) (.var 0)).forest.assignment
      (.ofList [("f", ⟨VarSet.ofList [0], .var 1⟩)])).generalize (.var 0) =
      ⟨VarSet.ofList [0], .var 0⟩ := by decide

end Context

end HindleyMilner
