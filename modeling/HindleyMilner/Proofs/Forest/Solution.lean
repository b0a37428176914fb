import HindleyMilner.Proofs.Forest.Resolution
import HindleyMilner.Proofs.Hygiene

/-!
# The solution that a forest holds

What a forest has for each variable is a substitution (`solution`), and resolving a type is applying
it. It brings in only variables that the nodes mention. So a context whose binders are not among
them can be read through the forest without capture.
-/

namespace HindleyMilner

namespace Forest

variable {f : Forest} {t : Ty} {v w : Nat}

/-- The variables that the nodes mention. -/
def vars (f : Forest) : VarSet := .unionOf Ty.vars f.types

theorem mem_vars_of_mem_types (ht : t ∈ f.types) (hv : v ∈ t.vars) : v ∈ f.vars :=
  VarSet.mem_unionOf.mpr ⟨t, ht, hv⟩

theorem parent?_of_not_mem_vars (hv : v ∉ f.vars) : f.parent? (.var v) = none := by
  cases hparent : f.parent? (.var v) with
  | none => rfl
  | some u =>
    refine absurd (mem_vars_of_mem_types (mem_types_of_parent? hparent) ?_) hv
    rw [Ty.vars_var, VarSet.mem_singleton]

/-- What the forest has for every variable that it mentions. -/
def solution (f : Forest) : Subst := .tabulate f.vars.toList fun v => f.resolve (.var v)

namespace WellFormed

theorem resolve_of_not_mem_vars (hf : f.WellFormed) (hv : v ∉ f.vars) :
    f.resolve (.var v) = .var v :=
  hf.resolve_of_root (parent?_of_not_mem_vars hv)

theorem mem_vars_resolve (hf : f.WellFormed) (hw : w ∈ (f.resolve t).vars) :
    w ∈ t.vars ∨ w ∈ f.vars := by
  induction t using hf.induction with
  | h t ih =>
    cases t with
    | int =>
      rw [hf.resolve_int] at hw
      exact .inl hw
    | bool =>
      rw [hf.resolve_bool] at hw
      exact .inl hw
    | var v =>
      cases hparent : f.parent? (.var v) with
      | none =>
        rw [hf.resolve_of_root hparent] at hw
        exact .inl hw
      | some u =>
        rw [hf.resolve_of_parent hparent] at hw
        rcases ih u (.parent hparent) hw with hin | hin
        · exact .inr (mem_vars_of_mem_types (hf.parent_mem _ u hparent) hin)
        · exact .inr hin
    | fn a b =>
      rw [hf.resolve_fn, Ty.vars_fn, VarSet.mem_union] at hw
      rw [Ty.vars_fn, VarSet.mem_union]
      rcases hw with hw | hw
      · exact (ih a (.dom a b) hw).imp_left .inl
      · exact (ih b (.cod a b) hw).imp_left .inr

/-- A table of what variables resolve to says it of all of them if it leaves out roots only. -/
theorem image_tabulate (hf : f.WellFormed) {vs : List Nat}
    (hroots : ∀ v, v ∉ vs → f.parent? (.var v) = none) (v : Nat) :
    (Subst.tabulate vs fun v => f.resolve (.var v)).image v = f.resolve (.var v) := by
  rw [Subst.image_tabulate]
  by_cases hv : v ∈ vs
  · rw [if_pos hv]
  · rw [if_neg hv, hf.resolve_of_root (hroots v hv)]

theorem image_solution (hf : f.WellFormed) (v : Nat) : f.solution.image v = f.resolve (.var v) :=
  hf.image_tabulate (fun _ hv => parent?_of_not_mem_vars hv) v

/-- A scheme under the solution is the scheme resolved, if its binders are roots. -/
theorem body_subst_solution (hf : f.WellFormed) {σ : Scheme}
    (hbinders : ∀ b ∈ σ.binders, f.resolve (.var b) = .var b) :
    (σ.subst f.solution).body = f.resolve σ.body := by
  rw [hf.resolve_eq_bind_resolve, Scheme.body_subst]
  refine Ty.bind_congr fun v _ => ?_
  by_cases hbinder : v ∈ σ.binders
  · rw [if_pos hbinder, hbinders v hbinder]
  · rw [if_neg hbinder, hf.image_solution]

end WellFormed

theorem resolve_empty (t : Ty) : (∅ : Forest).resolve t = t := by
  rw [wellFormed_empty.resolve_eq_bind_resolve]
  exact Ty.bind_eq_self fun v _ => wellFormed_empty.resolve_of_not_mem_vars (VarSet.not_mem_empty v)

end Forest

namespace Context

variable {Γ : Context} {f : Forest}

/-- No binder of the context is mentioned in the forest. -/
def Apart (Γ : Context) (f : Forest) : Prop :=
  ∀ entry ∈ Γ.entries, ∀ b ∈ entry.2.binders.toList, b ∉ f.vars

instance (Γ : Context) (f : Forest) : Decidable (Γ.Apart f) :=
  inferInstanceAs (Decidable (∀ entry ∈ Γ.entries, ∀ b ∈ entry.2.binders.toList, b ∉ f.vars))

theorem apart_empty (Γ : Context) : Γ.Apart ∅ := fun _ _ b _ => VarSet.not_mem_empty b

theorem Apart.not_mem_vars (h : Γ.Apart f) {x : String} {σ : Scheme} (hget : Γ.get? x = some σ)
    {b : Nat} (hb : b ∈ σ.binders) : b ∉ f.vars :=
  h (x, σ) (OrderedMap.get?_eq_some_iff.mp hget) b hb

theorem subst_solution_empty (Γ : Context) : Γ.subst (∅ : Forest).solution = Γ :=
  subst_eq_self fun _ _ => rfl

/-- What is free in a context read through the forest was free in it or is
mentioned in the forest. -/
theorem mem_free_subst_solution (hf : f.WellFormed) {w : Nat} (hw : w ∈ (Γ.subst f.solution).free) :
    w ∈ Γ.free ∨ w ∈ f.vars := by
  obtain ⟨v, hv, hwv⟩ := exists_of_mem_free_subst hw
  rw [hf.image_solution] at hwv
  refine (hf.mem_vars_resolve hwv).imp_left fun hself => ?_
  rw [Ty.vars_var, VarSet.mem_singleton] at hself
  exact hself ▸ hv

/-- Reading a hygienic context through a forest that mentions no binder leaves it hygienic. -/
theorem Apart.hygienic_subst (h : Γ.Apart f) (hf : f.WellFormed) (hΓ : Γ.Hygienic) :
    (Γ.subst f.solution).Hygienic := by
  apply hΓ.subst_of_free
  intro w hw
  exact (mem_free_subst_solution hf hw).imp_right fun hin x σ hget hbinder =>
    h.not_mem_vars hget hbinder hin

theorem Apart.mem_bodyVars_subst (h : Γ.Apart f) (hf : f.WellFormed) {w : Nat}
    (hw : w ∈ (Γ.subst f.solution).bodyVars) : w ∈ Γ.bodyVars ∨ w ∈ f.vars := by
  obtain ⟨x, σ, hget, hbody⟩ := mem_bodyVars_iff.mp hw
  obtain ⟨σ₀, hσ₀, rfl⟩ := get?_subst_eq_some hget
  rw [hf.body_subst_solution fun b hb =>
    hf.resolve_of_not_mem_vars (h.not_mem_vars hσ₀ hb)] at hbody
  exact (hf.mem_vars_resolve hbody).imp_left fun hin => mem_bodyVars_iff.mpr ⟨x, σ₀, hσ₀, hin⟩

end Context

end HindleyMilner
