import HindleyMilner.Proofs.Forest.Course
import HindleyMilner.Proofs.Substituting.Footprint

/-!
# The variables of a linking run

Algorithm J too is confined to the variables that are free in the context and those it draws. What
it keeps in the forest counts here as well, since every later result is read through it: the types
it returns, the forest at each point, and the types that a unification names when it fails are all
over variables within reach.

The context grows on the way down and its variables are never replaced, so reach is always that of
the context at the start.
-/

namespace HindleyMilner.Context

open Infer (Meets)

variable {Γ Δ : Context} {k n n' : Nat}

theorem reach_of_reach (hk : k ≤ n) (hle : n ≤ n') (hΓ : ∀ v ∈ Γ.free, v ∈ Δ.reach k n) {w : Nat}
    (hw : w ∈ Γ.reach n n') : w ∈ Δ.reach k n' := by
  rcases hw with hfree | ⟨hge, hlt⟩
  · exact reach_widen (Nat.le_refl k) hle (hΓ w hfree)
  · exact .inr ⟨Nat.le_trans hk hge, hlt⟩

/-- A run that had drawn up to `n` has ended. It has named the variables `named`, and these, like
the forest it leaves, are within reach of `Δ`. -/
def Traced (Δ : Context) (k : Nat) (mode : Supply.Mode) (n : Nat) (named : VarSet) (s : Session) :
    Prop :=
  ∃ n' forest, s.Stands mode n' forest ∧ n ≤ n' ∧ forest.Over (Δ.reach k n') ∧
    ∀ v ∈ named, v ∈ Δ.reach k n'

theorem Traced.earlier {mode : Supply.Mode} {m : Nat} {named : VarSet} {s : Session}
    (h : Δ.Traced k mode m named s) (hle : n ≤ m) :
    Δ.Traced k mode n named s := by
  obtain ⟨n', forest, hs, hm, hforest, hnamed⟩ := h
  exact ⟨n', forest, hs, Nat.le_trans hle hm, hforest, hnamed⟩

theorem typeByLinks_traced (term : Term) {Γ : Context} {s : Session} {mode : Supply.Mode} {n : Nat}
    {forest : Forest} (hmode : mode ≠ .shared) (hs : s.Stands mode n forest) (hk : k ≤ n)
    (hforest : forest.Over (Δ.reach k n)) (hΓ : ∀ v ∈ Γ.free, v ∈ Δ.reach k n) :
    Meets (fun t => Δ.Traced k mode n t.vars) (fun e => Δ.Traced k mode n e.vars)
      (Γ.typeByLinks term s) := by
  have hwiden : ∀ {m m' : Nat}, m ≤ m' → ∀ v ∈ Δ.reach k m, v ∈ Δ.reach k m' :=
    fun hle v hv => reach_widen (Nat.le_refl k) hle hv
  induction term generalizing Γ s n forest with
  | int value =>
    exact Infer.meets_concludeJ hs fun s' hs' =>
      ⟨n, forest, hs', Nat.le_refl n, hforest, Ty.over_int⟩
  | bool value =>
    exact Infer.meets_concludeJ hs fun s' hs' =>
      ⟨n, forest, hs', Nat.le_refl n, hforest, Ty.over_bool⟩
  | var name =>
    refine (Infer.meets_lookup hmode hs fun _ => ⟨n, forest, hs, Nat.le_refl n, hforest,
      fun w hw => absurd hw (VarSet.not_mem_empty w)⟩).bind ?_
    rintro t s₁ ⟨σ, hget, rfl, hs₁⟩
    have hle : n ≤ n + σ.binders.size := Nat.le_add_right _ _
    have hopened := (Footprint.opened hget n).reached
    exact Infer.meets_concludeJ hs₁ fun s' hs' => ⟨_, forest, hs', hle, hforest.mono (hwiden hle),
      fun w hw => reach_of_reach hk hle hΓ (hopened w hw)⟩
  | app func arg ihfunc iharg =>
    refine (ihfunc hs hk hforest hΓ).bind ?_
    rintro t₁ s₁ ⟨n₁, f₁, hs₁, hle₁, hf₁, ht₁⟩
    have hΓ₁ : ∀ v ∈ Γ.free, v ∈ Δ.reach k n₁ := fun v hv => hwiden hle₁ v (hΓ v hv)
    refine ((iharg hs₁ (Nat.le_trans hk hle₁) hf₁ hΓ₁).imp_error fun e s₂ hstop =>
      hstop.earlier hle₁).bind ?_
    rintro t₂ s₂ ⟨n₂, f₂, hs₂, hle₂, hf₂, ht₂⟩
    refine (Infer.meets_fresh hmode hs₂).bind ?_
    rintro result s₃ ⟨rfl, hs₃⟩
    have hlast : n ≤ n₂ + 1 := by omega
    have hf₃ := hf₂.mono (hwiden (Nat.le_succ n₂))
    have hresult : n₂ ∈ Δ.reach k (n₂ + 1) := .inr ⟨by omega, Nat.lt_succ_self n₂⟩
    have hfunc : t₁.Over (Δ.reach k (n₂ + 1)) :=
      fun v hv => hwiden (Nat.le_succ_of_le hle₂) v (ht₁ v hv)
    have hwanted : (Ty.fn t₂ (.var n₂)).Over (Δ.reach k (n₂ + 1)) :=
      Ty.over_fn.mpr ⟨fun v hv => hwiden (Nat.le_succ n₂) v (ht₂ v hv), Ty.over_var.mpr hresult⟩
    obtain ⟨hf₄, herrors⟩ := hf₃.unify hfunc hwanted
    refine (Infer.meets_unify hs₃ fun e s₄ herror hs₄ =>
      ⟨_, _, hs₄, hlast, hf₄, herrors e herror⟩).bind ?_
    rintro _ s₄ ⟨-, hs₄⟩
    refine (Infer.meets_find (.var n₂) hs₄).bind ?_
    rintro t s₅ ⟨rfl, hs₅⟩
    have hf₅ := hf₄.register (Ty.over_var.mpr hresult)
    exact Infer.meets_concludeJ hs₅ fun s' hs' =>
      ⟨_, _, hs', hlast, hf₅, hf₅.rep (Ty.over_var.mpr hresult)⟩
  | abs param body ih =>
    refine (Infer.meets_fresh hmode hs).bind ?_
    rintro t s₀ ⟨rfl, hs₀⟩
    have hparam : n ∈ Δ.reach k (n + 1) := .inr ⟨hk, Nat.lt_succ_self n⟩
    have hown : ∀ v ∈ (Scheme.mono (.var n)).free, v ∈ Δ.reach k (n + 1) := by
      intro v hv
      rw [Scheme.mem_free_mono, Ty.vars_var, VarSet.mem_singleton] at hv
      exact hv ▸ hparam
    have hΓ₀ :=
      forall_mem_free_insert (x := param) hown fun v hv => hwiden (Nat.le_succ n) v (hΓ v hv)
    refine ((ih hs₀ (Nat.le_succ_of_le hk) (hforest.mono (hwiden (Nat.le_succ n))) hΓ₀).imp_error
      fun e s₁ hstop => hstop.earlier (Nat.le_succ n)).bind ?_
    rintro t' s₁ ⟨n₁, f₁, hs₁, hle₁, hf₁, ht'⟩
    have hdom : (Ty.var n).Over (Δ.reach k n₁) := Ty.over_var.mpr (hwiden hle₁ n hparam)
    refine (Infer.meets_find (.var n) hs₁).bind ?_
    rintro dom s₂ ⟨rfl, hs₂⟩
    refine (Infer.meets_find t' hs₂).bind ?_
    rintro cod s₃ ⟨rfl, hs₃⟩
    have hf₂ := hf₁.register hdom
    have hf₃ := hf₂.register ht'
    exact Infer.meets_concludeJ hs₃ fun s' hs' =>
      ⟨_, _, hs', Nat.le_of_succ_le hle₁, hf₃, Ty.over_fn.mpr ⟨hf₂.rep hdom, hf₃.rep ht'⟩⟩
  | letIn name init body ihinit ihbody =>
    refine (ihinit hs hk hforest hΓ).bind ?_
    rintro t₁ s₁ ⟨n₁, f₁, hs₁, hle₁, hf₁, ht₁⟩
    refine (Infer.meets_get hs₁).bind ?_
    rintro session s₂ ⟨rfl, hs₂⟩
    refine (Infer.meets_report _ hs₂).bind fun _ s₃ hs₃ => ?_
    have hown : ∀ v ∈ (Γ.generalizeIn session.forest t₁).free, v ∈ Δ.reach k n₁ :=
      fun v hv => hf₁.resolve ht₁ v (Scheme.mem_free.mp hv).1
    have hΓ₁ := forall_mem_free_insert (x := name) hown fun v hv => hwiden hle₁ v (hΓ v hv)
    refine ((ihbody hs₃ (Nat.le_trans hk hle₁) hf₁ hΓ₁).imp_error fun e s₄ hstop =>
      hstop.earlier hle₁).bind ?_
    rintro t₂ s₄ ⟨n₂, f₂, hs₄, hle₂, hf₂, ht₂⟩
    exact Infer.meets_concludeJ hs₄ fun s' hs' => ⟨n₂, f₂, hs', Nat.le_trans hle₁ hle₂, hf₂, ht₂⟩

end HindleyMilner.Context
