import HindleyMilner.Proofs.Substituting.Footprint
import HindleyMilner.Proofs.Typing
import Mathlib

/-!
# Soundness of inference with substitutions

The type that algorithm W returns is derivable in the context under the substitution it returns. A
run keeps to contexts that are ready for the supply: hygienic, and with all their variables below
the next index. There a run captures nothing, since all it brings in is free in the context or new,
and so a derivation found for one subterm can be substituted by what the next one demands.

All of Mathlib is imported for the sample run at the end: `cbv` unfolds state monads by equations
that no smaller part of it has.
-/

namespace HindleyMilner.Context

variable {Γ : Context} {n n' : Nat} {S : Subst} {t : Ty}

/-- The context is hygienic, and variables from `n` on are new to it. -/
structure Ready (Γ : Context) (n : Nat) : Prop where
  hygienic : Γ.Hygienic
  bound : ∀ v ∈ Γ.bodyVars, v < n

namespace Ready

theorem free_lt (h : Γ.Ready n) : ∀ v ∈ Γ.free, v < n :=
  fun v hv => h.bound v (mem_bodyVars_of_mem_free hv)

theorem mono (h : Γ.Ready n) (hle : n ≤ n') : Γ.Ready n' :=
  ⟨h.hygienic, fun v hv => Nat.lt_of_lt_of_le (h.bound v hv) hle⟩

theorem not_binder (h : Γ.Ready n) {x : String} {σ : Scheme} (hget : Γ.get? x = some σ) {w : Nat}
    (hw : w ∈ Γ.reach n n') : w ∉ σ.binders := by
  intro hbinder
  obtain ⟨hbody, hnot⟩ := hygienic_iff.mp h.hygienic x σ hget w hbinder
  rcases hw with hin | ⟨hge, -⟩
  · exact hnot hin
  · have := h.bound w (mem_bodyVars_iff.mpr ⟨x, σ, hget, hbody⟩)
    omega

/-- What a run substitutes captures nothing in a scheme of the context, whatever its
body has become. -/
theorem clear_scheme (h : Γ.Ready n) (hS : S.Within (Γ.reach n n')) {x : String} {σ τ : Scheme}
    (hget : Γ.get? x = some σ) (hbinders : τ.binders = σ.binders) : τ.Clear S := by
  intro v hv w hw hbinder
  rcases hS.mem_vars_image hw with rfl | hin
  · exact (Scheme.mem_free.mp hv).2 hbinder
  · exact h.not_binder hget hin (hbinders ▸ hbinder)

theorem clear (h : Γ.Ready n) (hS : S.Within (Γ.reach n n')) : Clear S Γ :=
  fun _ _ hget => h.clear_scheme hS hget rfl

private theorem clear_subst (h : Γ.Ready n) (hS : S.Within (Γ.reach n n')) (r : Subst) :
    Clear S (Γ.subst r) := by
  intro x σ hget
  obtain ⟨σ₀, hσ₀, rfl⟩ := get?_subst_eq_some hget
  exact h.clear_scheme hS hσ₀ rfl

theorem subst (h : Γ.Ready n) (hfoot : Footprint Γ n S t n') : (Γ.subst S).Ready n' := by
  constructor
  · refine h.hygienic.subst h.bound fun v hv w hw => ?_
    rcases hfoot.within.mem_vars_image hw with rfl | hin | ⟨hge, -⟩
    · exact .inl hv
    · exact .inl hin
    · exact .inr hge
  · intro w hw
    obtain ⟨x, σ, hget, hbody⟩ := mem_bodyVars_iff.mp hw
    obtain ⟨σ₀, hσ₀, rfl⟩ := get?_subst_eq_some hget
    rw [Scheme.body_subst, Ty.mem_vars_bind] at hbody
    obtain ⟨v, hv, hwv⟩ := hbody
    have hlt : v < n := h.bound v (mem_bodyVars_iff.mpr ⟨x, σ₀, hσ₀, hv⟩)
    by_cases hbinder : v ∈ σ₀.binders
    · rw [if_pos hbinder, Ty.vars_var, VarSet.mem_singleton] at hwv
      exact hwv ▸ Nat.lt_of_lt_of_le hlt hfoot.le
    · rw [if_neg hbinder] at hwv
      exact hfoot.image_lt h.free_lt hlt w hwv

theorem insert_mono (h : Γ.Ready n) (param : String) :
    Ready (Γ.insert param (.mono (.var n))) (n + 1) := by
  constructor
  · refine h.hygienic.insert (fun b hb => absurd hb (VarSet.not_mem_empty b))
      fun y τ hget b hb hfree => ?_
    rw [Scheme.mem_free_mono, Ty.vars_var, VarSet.mem_singleton] at hfree
    have :=
      h.bound b (mem_bodyVars_iff.mpr ⟨y, τ, hget, (hygienic_iff.mp h.hygienic y τ hget b hb).1⟩)
    omega
  · intro v hv
    rcases mem_bodyVars_insert hv with hin | hin
    · rw [Scheme.mono, Ty.vars_var, VarSet.mem_singleton] at hin
      omega
    · exact Nat.lt_succ_of_lt (h.bound v hin)

theorem insert_generalize (h : Γ.Ready n) (ht : ∀ v ∈ t.vars, v < n) (name : String) :
    Ready (Γ.insert name (Γ.generalize t)) n := by
  constructor
  · refine h.hygienic.insert (fun b hb => VarSet.mem_sdiff.mp hb) fun y τ hget b hb hfree => ?_
    exact (hygienic_iff.mp h.hygienic y τ hget b hb).2 (mem_free_generalize.mp hfree).2
  · exact fun v hv => (mem_bodyVars_insert hv).elim (ht v) (h.bound v)

end Ready

/-! ### One derivation for each construct -/

private theorem typing_opened {name : String} {σ : Scheme} (hget : Γ.get? name = some σ) (n : Nat) :
    Typing (Γ.subst ∅) (.var name) (σ.opened n) := by
  refine .var (σ := σ.subst ∅) (by rw [get?_subst, hget, Option.map_some]) ?_
  have hself : σ.subst ∅ = σ :=
    Scheme.subst_eq_self fun v _ => Subst.image_of_not_mem (Subst.not_mem_empty v)
  rw [hself]
  exact Scheme.instance_bind fun v hv => congrArg Ty.var (if_neg (Scheme.mem_free.mp hv).2)

private theorem typing_app {func arg : Term} {n₁ n₂ : Nat} {s₁ s₂ u : Subst} {t₁ t₂ : Ty}
    (h : Γ.Ready n) (h₁ : Footprint Γ (n + 1) s₁ t₁ n₁) (h₂ : Footprint (Γ.subst s₁) n₁ s₂ t₂ n₂)
    (hu : (t₁.subst s₂).mgu (.fn t₂ (.var n)) = .ok u) (hfunc : Typing (Γ.subst s₁) func t₁)
    (harg : Typing ((Γ.subst s₁).subst s₂) arg t₂) :
    Typing (Γ.subst (u.comp (s₂.comp s₁))) (.app func arg) ((Ty.var n).subst u) := by
  have hready := h.mono (Nat.le_succ n)
  have hunifier := Footprint.unifier_within h.free_lt h₁ h₂ hu
  have hcomp : (s₂.comp s₁).Within (Γ.reach (n + 1) n₂) :=
    Footprint.comp hready.free_lt h₁ h₂.within h₂.le
  have hsplit : Γ.subst (s₂.comp s₁) = (Γ.subst s₁).subst s₂ :=
    (hready.clear h₁.within).subst_comp s₂
  rw [(hready.clear hcomp).subst_comp u, hsplit]
  have hclear : Clear u ((Γ.subst s₁).subst s₂) := hsplit ▸ h.clear_subst hunifier (s₂.comp s₁)
  have hfunc' := (hfunc.subst ((hready.subst h₁).clear h₂.within)).subst hclear
  rw [(Ty.unifies_mgu _ _).subst_eq hu] at hfunc'
  exact .app hfunc' (harg.subst hclear)

private theorem typing_abs {param : String} {body : Term}
    (hbody : Typing (subst S (Γ.insert param (.mono (.var n)))) body t) :
    Typing (Γ.subst S) (.abs param body) (.fn ((Ty.var n).subst S) t) := by
  rw [subst_insert, Scheme.mono_subst] at hbody
  exact .abs hbody

/-- What the body of a `let` demands leaves alone the variables that its definition generalizes. -/
theorem generalize_subst_of_footprint {name : String} {n₂ : Nat} {S₂ : Subst} {t₂ : Ty}
    (h : Γ.Ready n) (ht : ∀ v ∈ t.vars, v < n)
    (h₂ : Footprint (Γ.insert name (Γ.generalize t)) n S₂ t₂ n₂) :
    (Γ.subst S₂).generalize (t.subst S₂) = (Γ.generalize t).subst S₂ := by
  have hwithin : S₂.Within (Γ.reach n n₂) := h₂.within.mono fun _ hw => reach_insert_generalize hw
  refine (h.clear hwithin).generalize_subst fun v hv => ?_
  obtain ⟨hvars, hnot⟩ := VarSet.mem_sdiff.mp hv
  have hout : v ∉ Γ.reach n n₂ := by
    rintro (hin | ⟨hge, -⟩)
    · exact hnot hin
    · have := ht v hvars
      omega
  refine ⟨Subst.image_of_not_mem fun hmem => hout (hwithin.keys v hmem), fun hin => ?_⟩
  obtain ⟨w, hw, hvw⟩ := exists_of_mem_free_subst hin
  rcases hwithin.mem_vars_image hvw with rfl | hrange
  · exact hnot hw
  · exact hout hrange

private theorem typing_letIn {name : String} {init body : Term} {n₁ n₂ : Nat} {s₁ s₂ : Subst}
    {t₁ t₂ : Ty} (h : Γ.Ready n) (h₁ : Footprint Γ n s₁ t₁ n₁)
    (h₂ : Footprint ((Γ.subst s₁).insert name ((Γ.subst s₁).generalize t₁)) n₁ s₂ t₂ n₂)
    (hinit : Typing (Γ.subst s₁) init t₁)
    (hbody : Typing (subst s₂ ((Γ.subst s₁).insert name ((Γ.subst s₁).generalize t₁))) body t₂) :
    Typing (Γ.subst (s₂.comp s₁)) (.letIn name init body) t₂ := by
  have hready := h.subst h₁
  have ht := h₁.type_lt h.free_lt
  rw [subst_insert, ← generalize_subst_of_footprint hready ht h₂] at hbody
  rw [(h.clear h₁.within).subst_comp s₂]
  have hclear : Clear s₂ (Γ.subst s₁) :=
    hready.clear (h₂.within.mono fun _ hw => reach_insert_generalize hw)
  exact .letIn (hinit.subst hclear) hbody

/-! ### The whole run -/

theorem typeBySubst_typing (term : Term) {Γ : Context} {s : Session} {mode : Supply.Mode} {n : Nat}
    {forest : Forest} (hmode : mode ≠ .shared) (hs : s.Stands mode n forest) (h : Γ.Ready n) :
    Infer.Meets (fun r _ => Typing (Γ.subst r.1) term r.2) (fun _ _ => True)
      (Γ.typeBySubst term s) := by
  induction term generalizing Γ s n with
  | int value => exact Infer.meets_concludeW hs fun _ _ => .int value
  | bool value => exact Infer.meets_concludeW hs fun _ _ => .bool value
  | var name =>
    refine (Infer.meets_lookup hmode hs fun _ => trivial).bind ?_
    rintro t s₁ ⟨σ, hget, rfl, hs₁⟩
    exact Infer.meets_concludeW hs₁ fun _ _ => typing_opened hget n
  | app func arg ihfunc iharg =>
    refine (Infer.meets_fresh hmode hs).bind ?_
    rintro result s₀ ⟨rfl, hs₀⟩
    have hready := h.mono (Nat.le_succ n)
    refine ((ihfunc hs₀ hready).and (typeBySubst_footprint func hmode hs₀ hready.free_lt)).bind ?_
    rintro ⟨S₁, t₁⟩ s₁ ⟨hfunc, n₁, hs₁, h₁⟩
    have hready₁ := hready.subst h₁
    refine ((iharg hs₁ hready₁).and (typeBySubst_footprint arg hmode hs₁ hready₁.free_lt)).bind ?_
    rintro ⟨S₂, t₂⟩ s₂ ⟨harg, n₂, hs₂, h₂⟩
    refine (Infer.meets_mgu hs₂ fun _ _ => trivial).bind ?_
    rintro u s₃ ⟨hu, hs₃⟩
    exact Infer.meets_concludeW hs₃ fun _ _ => typing_app h h₁ h₂ hu hfunc harg
  | abs param body ih =>
    refine (Infer.meets_fresh hmode hs).bind ?_
    rintro t s₀ ⟨rfl, hs₀⟩
    have hready := h.insert_mono param
    refine ((ih hs₀ hready).and (typeBySubst_footprint body hmode hs₀ hready.free_lt)).bind ?_
    rintro ⟨S, t'⟩ s₁ ⟨hbody, n₁, hs₁, -⟩
    exact Infer.meets_concludeW hs₁ fun _ _ => typing_abs hbody
  | letIn name init body ihinit ihbody =>
    refine ((ihinit hs h).and (typeBySubst_footprint init hmode hs h.free_lt)).bind ?_
    rintro ⟨S₁, t₁⟩ s₁ ⟨hinit, n₁, hs₁, h₁⟩
    refine (Infer.meets_report _ hs₁).bind fun _ s₂ hs₂ => ?_
    dsimp only
    rw [subst_insert, h₁.generalize_subst_self]
    have hready := (h.subst h₁).insert_generalize (h₁.type_lt h.free_lt) name
    refine ((ihbody hs₂ hready).and (typeBySubst_footprint body hmode hs₂ hready.free_lt)).bind ?_
    rintro ⟨S₂, t₂⟩ s₃ ⟨hbody, n₂, hs₃, h₂⟩
    exact Infer.meets_concludeW hs₃ fun _ _ => typing_letIn h h₁ h₂ hinit hbody

/-- In a hygienic context, whatever algorithm W answers is derivable. -/
theorem typing_of_inferW {Γ : Context} {term : Term} {s s' : Session} {S : Subst} {t : Ty}
    (hΓ : Γ.Hygienic) (hmode : s.supply.mode ≠ .shared)
    (hrun : Γ.inferW term s = (.ok (S, t), s')) : Typing (Γ.subst S) term t := by
  have hmeets : Infer.Meets (fun r _ => Typing (Γ.subst r.1) term r.2) (fun _ _ => True)
      (Γ.inferW term s) := by
    refine (Infer.meets_reserve Γ ⟨rfl, rfl⟩).bind ?_
    rintro _ s₁ ⟨n, hs₁, -, hbound⟩
    exact typeBySubst_typing term hmode hs₁ ⟨hΓ, hbound⟩
  rw [hrun] at hmeets
  exact hmeets

/-- Offers a polymorphic `f` whose result is a free variable, which is the type of `y` too. -/
def sample : Context :=
  OrderedMap.ofList [("f", ⟨VarSet.ofList [0], .fn (.var 0) (.var 3)⟩), ("y", .mono (.var 3))]

/-- Uses a generalized identity at the type of `f` and at the type of `y`. -/
def sampleTerm : Term :=
  .letIn "g" (.abs "x" (.var "x")) (.app (.app (.var "g") (.var "f")) (.app (.var "g") (.var "y")))

def sampleSubst : Subst :=
  OrderedMap.ofList [(7, .fn (.var 5) (.var 5)), (6, .fn (.var 5) (.var 5)), (10, .var 5),
    (3, .var 5), (8, .var 5), (9, .var 5)]

theorem typing_of_inferW_sample :
    sample.Hygienic ∧ (sample.inferW sampleTerm { supply := {} }).1 = .ok (sampleSubst, .var 5) ∧
      Typing (sample.subst sampleSubst) sampleTerm (.var 5) := by
  have hΓ : sample.Hygienic := by decide
  have hrun : (sample.inferW sampleTerm { supply := {} }).1 = .ok (sampleSubst, .var 5) := by cbv
  exact ⟨hΓ, hrun, typing_of_inferW hΓ (by decide) (Prod.ext hrun rfl)⟩

end HindleyMilner.Context
