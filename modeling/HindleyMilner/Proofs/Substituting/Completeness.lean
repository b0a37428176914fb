import HindleyMilner.Proofs.Substituting.Soundness

/-!
# Principality of inference with substitutions

Whatever type a term has in an instance of the context, algorithm W finds a more general one. The
induction compares the context `Γ` of the run with the context `Δ` of a derivation along a
replacement `φ` of type variables: under `φ`, every scheme of `Γ` offers at least the instances of
the scheme that `Δ` has for the same name (`Context.Covers`). The comparison is made name by name,
because a name that is bound again hides what was free in its old scheme.

A subterm's answer turns `φ` into a replacement of the variables left over, so the next subterm
starts from the same comparison. At an application the replacement unifies the types in question,
which is why unification succeeds and its result can be taken out of `φ` again.
-/

namespace HindleyMilner

namespace Scheme

variable {φ φ' : Nat → Ty} {σ δ : Scheme}

/-- Once its free variables are replaced by `φ`, the scheme has all the instances that `δ` has. -/
def Covers (φ : Nat → Ty) (σ δ : Scheme) : Prop :=
  ∀ τ, δ.Instance τ → ∃ g : Nat → Ty, (∀ v ∈ σ.free, g v = φ v) ∧ σ.body.bind g = τ

/-- What replaces a free variable of the scheme is free in `δ`: the instance of `δ` with ground
types for its binders mentions nothing else. -/
theorem Covers.mem_free_of_mem_vars (h : Covers φ σ δ) {v w : Nat} (hv : v ∈ σ.free)
    (hw : w ∈ (φ v).vars) : w ∈ δ.free := by
  let ground : Nat → Ty := fun u => if u ∈ δ.binders then .int else .var u
  obtain ⟨g, hagree, heq⟩ :=
    h (δ.body.bind ground) (instance_bind fun u hu => if_neg (mem_free.mp hu).2)
  have hin : w ∈ (δ.body.bind ground).vars := by
    rw [← heq, Ty.mem_vars_bind]
    exact ⟨v, (mem_free.mp hv).1, (hagree v hv).symm ▸ hw⟩
  obtain ⟨u, hu, hwu⟩ := Ty.mem_vars_bind.mp hin
  by_cases hbinder : u ∈ δ.binders
  · rw [show ground u = .int from if_pos hbinder, Ty.vars_int] at hwu
    exact absurd hwu (VarSet.not_mem_empty w)
  · rw [show ground u = .var u from if_neg hbinder, Ty.vars_var, VarSet.mem_singleton] at hwu
    exact mem_free.mpr (hwu ▸ ⟨hu, hbinder⟩)

theorem Covers.congr (h : Covers φ σ δ) (hagree : ∀ v ∈ σ.free, φ' v = φ v) : Covers φ' σ δ := by
  intro τ hτ
  obtain ⟨g, hg, heq⟩ := h τ hτ
  exact ⟨g, fun v hv => (hg v hv).trans (hagree v hv).symm, heq⟩

theorem covers_mono (φ : Nat → Ty) (t : Ty) : Covers φ (mono t) (mono (t.bind φ)) := by
  intro τ hτ
  obtain ⟨f, hfix, rfl⟩ := hτ.exists_bind
  refine ⟨φ, fun _ _ => rfl, ?_⟩
  exact (Ty.bind_eq_self fun v _ => hfix v (VarSet.not_mem_empty v)).symm

theorem Clear.covers {θ : Subst} (hclear : Clear θ σ) : Covers θ.image σ (σ.subst θ) := by
  intro τ hτ
  obtain ⟨f, hfix, rfl⟩ := hτ.exists_bind
  refine ⟨fun v => if v ∈ σ.binders then f v else (θ.image v).bind f, fun v hv => ?_, ?_⟩
  · refine (if_neg (mem_free.mp hv).2).trans ?_
    exact Ty.bind_eq_self fun w hw => hfix w (hclear v hv w hw)
  · rw [body_subst, Ty.bind_bind]
    refine Ty.bind_congr fun v _ => ?_
    by_cases hbinder : v ∈ σ.binders
    · rw [if_pos hbinder, if_pos hbinder, Ty.bind]
    · rw [if_neg hbinder, if_neg hbinder]

/-- A replacement that a substitution is taken out of compares the scheme under the substitution. -/
theorem Covers.subst {S : Subst} (h : Covers φ σ δ) (hclear : Clear S σ)
    (hfactor : ∀ v ∈ σ.free, (S.image v).bind φ' = φ v) :
    Covers φ' (σ.subst S) δ := by
  intro τ hτ
  obtain ⟨g, hagree, rfl⟩ := h τ hτ
  refine ⟨fun w => if w ∈ σ.binders then g w else φ' w, fun w hw => if_neg (mem_free.mp hw).2, ?_⟩
  rw [body_subst, Ty.bind_bind]
  refine Ty.bind_congr fun v hv => ?_
  by_cases hbinder : v ∈ σ.binders
  · rw [if_pos hbinder, Ty.bind, if_pos hbinder]
  · have hfree : v ∈ σ.free := mem_free.mpr ⟨hv, hbinder⟩
    rw [if_neg hbinder, hagree v hfree, ← hfactor v hfree]
    exact Ty.bind_congr fun w hw => if_neg (hclear v hfree w hw)

end Scheme

namespace Context

variable {φ φ' : Nat → Ty} {Γ Δ : Context} {n : Nat}

/-- Each scheme covers the one that `Δ` has for the same name. -/
def Covers (φ : Nat → Ty) (Γ Δ : Context) : Prop := Related (Scheme.Covers φ) Γ Δ

namespace Covers

private theorem mem_free_of_mem_vars (h : Γ.Covers φ Δ) {v w : Nat} (hv : v ∈ Γ.free)
    (hw : w ∈ (φ v).vars) : w ∈ Δ.free := by
  obtain ⟨x, σ, hget, hfree⟩ := mem_free_iff.mp hv
  obtain ⟨δ, hδ, hcovers⟩ := Related.exists_right h hget
  exact mem_free_iff.mpr ⟨x, δ, hδ, hcovers.mem_free_of_mem_vars hfree hw⟩

theorem congr (h : Γ.Covers φ Δ) (hagree : ∀ v ∈ Γ.free, φ' v = φ v) : Γ.Covers φ' Δ :=
  Related.imp h fun x σ _ hσ hcovers => hcovers.congr fun v hv =>
    hagree v (mem_free_iff.mpr ⟨x, σ, hσ, hv⟩)

theorem subst {S : Subst} (h : Γ.Covers φ Δ) (hclear : Clear S Γ)
    (hfactor : ∀ v ∈ Γ.free, (S.image v).bind φ' = φ v) :
    (Γ.subst S).Covers φ' Δ :=
  Related.subst h fun x σ _ hσ hcovers => hcovers.subst (hclear x σ hσ) fun v hv =>
    hfactor v (mem_free_iff.mpr ⟨x, σ, hσ, hv⟩)

theorem generalize (h : Γ.Covers φ Δ) (t : Ty) :
    (Γ.generalize t).Covers φ (Δ.generalize (t.bind φ)) := by
  intro τ hτ
  obtain ⟨f, hfix, rfl⟩ := hτ.exists_bind
  refine ⟨fun v => (φ v).bind f, fun v hv => ?_, (Ty.bind_bind φ f t).symm⟩
  refine Ty.bind_eq_self fun w hw => hfix w fun hbinder => ?_
  exact (VarSet.mem_sdiff.mp hbinder).2 (h.mem_free_of_mem_vars (mem_free_generalize.mp hv).2 hw)

end Covers

theorem Clear.covers {θ : Subst} (hclear : Clear θ Γ) : Γ.Covers θ.image (Γ.subst θ) := by
  intro x
  rw [get?_subst]
  cases hσ : Γ.get? x with
  | none => exact .none
  | some σ => exact .some (hclear x σ hσ).covers

/-! ### Answers that are more general -/

/-- `τ` is an instance of the answer's type, and what `φ` does to old variables goes through the
answer's substitution. -/
structure Factors (φ : Nat → Ty) (n : Nat) (S : Subst) (t τ : Ty) (φ' : Nat → Ty) : Prop where
  type : t.bind φ' = τ
  image : ∀ v < n, (S.image v).bind φ' = φ v

theorem Covers.update (h : Γ.Covers φ Δ) (hΓ : Γ.Ready n) (τ : Ty) :
    Γ.Covers (Function.update φ n τ) Δ :=
  h.congr fun v hv => Function.update_of_ne (Nat.ne_of_lt (hΓ.free_lt v hv)) τ φ

theorem Factors.covers {S : Subst} {t τ : Ty} {n' : Nat} (h : Factors φ n S t τ φ') (hΓ : Γ.Ready n)
    (hfoot : Footprint Γ n S t n') (hcovers : Γ.Covers φ Δ) : (Γ.subst S).Covers φ' Δ :=
  hcovers.subst (hΓ.clear hfoot.within) fun v hv => h.image v (hΓ.free_lt v hv)

theorem Factors.bind_subst {S : Subst} {t τ a : Ty} (h : Factors φ n S t τ φ')
    (ha : ∀ v ∈ a.vars, v < n) : (a.subst S).bind φ' = a.bind φ := by
  rw [Ty.subst, Ty.bind_bind]
  exact Ty.bind_congr fun v hv => h.image v (ha v hv)

private theorem exists_factors_opened {name : String} {σ : Scheme} {τ : Ty} {g : Nat → Ty}
    (hΓ : Γ.Ready n) (hget : Γ.get? name = some σ) (hagree : ∀ v ∈ σ.free, g v = φ v)
    (heq : σ.body.bind g = τ) :
    ∃ φ', Factors φ n ∅ (σ.opened n) τ φ' := by
  -- The indices from `n` on stand for the binders in ascending order.
  refine ⟨fun w => if w < n then φ w else g (σ.binders.toList.getD (w - n) 0), ?_,
    fun v hv => if_pos hv⟩
  rw [← heq, Scheme.opened, Ty.rename_bind]
  refine Ty.bind_congr fun v hv => ?_
  by_cases hbinder : v ∈ σ.binders
  · rw [if_pos hbinder, if_neg (by omega), Nat.add_sub_cancel_left, VarSet.getD_idxOf hbinder]
  · have hlt : v < n := hΓ.bound v (mem_bodyVars_iff.mpr ⟨name, σ, hget, hv⟩)
    rw [if_neg hbinder, if_pos hlt, hagree v (Scheme.mem_free.mpr ⟨hv, hbinder⟩)]

section Application

variable {n₁ n₂ : Nat} {s₁ s₂ : Subst} {t₁ t₂ τ τ₂ : Ty} {φ₁ φ₂ : Nat → Ty}

/-- The replacement unifies what the algorithm unifies. -/
theorem bind_eq_of_factors (hΓ : Γ.Ready n) (h₁ : Footprint Γ (n + 1) s₁ t₁ n₁)
    (h₂ : Footprint (Γ.subst s₁) n₁ s₂ t₂ n₂)
    (hfunc : Factors (Function.update φ n τ) (n + 1) s₁ t₁ (.fn τ₂ τ) φ₁)
    (harg : Factors φ₁ n₁ s₂ t₂ τ₂ φ₂) :
    φ₂ n = τ ∧ (t₁.subst s₂).bind φ₂ = (Ty.fn t₂ (.var n)).bind φ₂ := by
  have hnot := Footprint.result_not_mem hΓ.free_lt h₁ h₂
  have hlt : n < n₁ := h₁.le
  have hresult : φ₂ n = τ := by
    have himage₁ : s₁.image n = .var n :=
      Subst.image_of_not_mem fun hmem => hnot (Subst.mem_comp.mpr (.inl hmem))
    have himage₂ : s₂.image n = .var n :=
      Subst.image_of_not_mem fun hmem => hnot (Subst.mem_comp.mpr (.inr hmem))
    calc
      φ₂ n = (s₂.image n).bind φ₂ := by rw [himage₂, Ty.bind]
      _ = φ₁ n := harg.image n hlt
      _ = (s₁.image n).bind φ₁ := by rw [himage₁, Ty.bind]
      _ = Function.update φ n τ n := hfunc.image n (Nat.lt_succ_self n)
      _ = τ := Function.update_self n τ φ
  refine ⟨hresult, ?_⟩
  rw [harg.bind_subst (h₁.type_lt (hΓ.mono (Nat.le_succ n)).free_lt), hfunc.type, Ty.bind, Ty.bind,
    harg.type, hresult]

theorem Factors.app {u : Subst} (hΓ : Γ.Ready n) (h₁ : Footprint Γ (n + 1) s₁ t₁ n₁)
    (h₂ : Footprint (Γ.subst s₁) n₁ s₂ t₂ n₂)
    (hfunc : Factors (Function.update φ n τ) (n + 1) s₁ t₁ (.fn τ₂ τ) φ₁)
    (harg : Factors φ₁ n₁ s₂ t₂ τ₂ φ₂) (hu : u.Absorbed φ₂) :
    Factors φ n (u.comp (s₂.comp s₁)) ((Ty.var n).subst u) τ φ₂ := by
  refine ⟨?_, fun v hv => ?_⟩
  · rw [hu.bind_subst, Ty.bind]
    exact (bind_eq_of_factors hΓ h₁ h₂ hfunc harg).1
  · have hbelow := h₁.image_lt (hΓ.mono (Nat.le_succ n)).free_lt (Nat.lt_succ_of_lt hv)
    rw [Subst.image_comp, hu.bind_subst, Subst.image_comp, harg.bind_subst hbelow,
      hfunc.image v (Nat.lt_succ_of_lt hv)]
    exact Function.update_of_ne (Nat.ne_of_lt hv) τ φ

end Application

theorem Factors.abs {S : Subst} {t τ υ : Ty}
    (h : Factors (Function.update φ n τ) (n + 1) S t υ φ') :
    Factors φ n S (.fn ((Ty.var n).subst S) t) (.fn τ υ) φ' := by
  have hparam := h.image n (Nat.lt_succ_self n)
  rw [Function.update_self] at hparam
  refine ⟨?_, fun v hv => ?_⟩
  · rw [Ty.bind, h.type]
    exact congrArg (Ty.fn · υ) hparam
  · rw [h.image v (Nat.lt_succ_of_lt hv), Function.update_of_ne (Nat.ne_of_lt hv)]

theorem Factors.letIn {n₁ : Nat} {s₁ s₂ : Subst} {t₁ t₂ τ₁ τ₂ : Ty} {φ₁ φ₂ : Nat → Ty}
    (hΓ : Γ.Ready n) (h₁ : Footprint Γ n s₁ t₁ n₁) (hinit : Factors φ n s₁ t₁ τ₁ φ₁)
    (hbody : Factors φ₁ n₁ s₂ t₂ τ₂ φ₂) : Factors φ n (s₂.comp s₁) t₂ τ₂ φ₂ := by
  refine ⟨hbody.type, fun v hv => ?_⟩
  rw [Subst.image_comp, hbody.bind_subst (h₁.image_lt hΓ.free_lt hv), hinit.image v hv]

/-! ### The whole run -/

theorem typeBySubst_factors {term : Term} {τ : Ty} {s : Session} {mode : Supply.Mode}
    {forest : Forest} (hmode : mode ≠ .shared) (hs : s.Stands mode n forest) (hΓ : Γ.Ready n)
    (hcovers : Γ.Covers φ Δ) (hτ : Typing Δ term τ) :
    Infer.Meets (fun r _ => ∃ φ', Factors φ n r.1 r.2 τ φ') (fun _ _ => False)
      (Γ.typeBySubst term s) := by
  induction hτ generalizing φ Γ s n with
  | int value => exact Infer.meets_concludeW hs fun _ _ => ⟨φ, rfl, fun _ _ => rfl⟩
  | bool value => exact Infer.meets_concludeW hs fun _ _ => ⟨φ, rfl, fun _ _ => rfl⟩
  | @var Δ name δ τ hget hinst =>
    obtain ⟨σ, hσ, hscheme⟩ := Related.exists_left hcovers hget
    obtain ⟨g, hagree, heq⟩ := hscheme τ hinst
    refine (Infer.meets_lookup hmode hs fun hnone => ?_).bind ?_
    · rw [hσ] at hnone
      cases hnone
    · rintro t s₁ ⟨σ', hσ', rfl, hs₁⟩
      obtain rfl : σ = σ' := Option.some.inj (hσ.symm.trans hσ')
      exact Infer.meets_concludeW hs₁ fun _ _ => exists_factors_opened hΓ hσ hagree heq
  | @app Δ func arg τ₂ τ hfunc harg ihfunc iharg =>
    refine (Infer.meets_fresh hmode hs).bind ?_
    rintro result s₀ ⟨rfl, hs₀⟩
    have hready := hΓ.mono (Nat.le_succ n)
    refine ((ihfunc hs₀ hready (hcovers.update hΓ τ)).and
      (typeBySubst_footprint func hmode hs₀ hready.free_lt)).bind ?_
    rintro ⟨S₁, t₁⟩ s₁ ⟨⟨φ₁, hfactors₁⟩, n₁, hs₁, h₁⟩
    have hready₁ := hready.subst h₁
    have hcovers₁ := hfactors₁.covers hready h₁ (hcovers.update hΓ τ)
    refine ((iharg hs₁ hready₁ hcovers₁).and
      (typeBySubst_footprint arg hmode hs₁ hready₁.free_lt)).bind ?_
    rintro ⟨S₂, t₂⟩ s₂ ⟨⟨φ₂, hfactors₂⟩, n₂, hs₂, h₂⟩
    obtain ⟨u, hmgu, hu⟩ :=
      (Ty.unifies_mgu _ _).exists_absorbed (bind_eq_of_factors hΓ h₁ h₂ hfactors₁ hfactors₂).2
    refine (Infer.meets_mgu hs₂ fun e herror => ?_).bind ?_
    · rw [hmgu] at herror
      cases herror
    · rintro u' s₃ ⟨hu', hs₃⟩
      obtain rfl : u = u' := Except.ok.inj (hmgu.symm.trans hu')
      exact Infer.meets_concludeW hs₃ fun _ _ => ⟨φ₂, .app hΓ h₁ h₂ hfactors₁ hfactors₂ hu⟩
  | @abs Δ param body τ υ hbody ih =>
    refine (Infer.meets_fresh hmode hs).bind ?_
    rintro t s₀ ⟨rfl, hs₀⟩
    have hready := hΓ.insert_mono param
    have hparam : Scheme.Covers (Function.update φ n τ) (.mono (.var n)) (.mono τ) := by
      have hmono := Scheme.covers_mono (Function.update φ n τ) (.var n)
      rwa [Ty.bind, Function.update_self] at hmono
    refine ((ih hs₀ hready (Related.insert (hcovers.update hΓ τ) param hparam)).and
      (typeBySubst_footprint body hmode hs₀ hready.free_lt)).bind ?_
    rintro ⟨S, t'⟩ s₁ ⟨⟨φ', hfactors⟩, n₁, hs₁, -⟩
    exact Infer.meets_concludeW hs₁ fun _ _ => ⟨φ', hfactors.abs⟩
  | @letIn Δ name init body τ υ hinit hbody ihinit ihbody =>
    refine ((ihinit hs hΓ hcovers).and (typeBySubst_footprint init hmode hs hΓ.free_lt)).bind ?_
    rintro ⟨S₁, t₁⟩ s₁ ⟨⟨φ₁, hfactors₁⟩, n₁, hs₁, h₁⟩
    refine (Infer.meets_report _ hs₁).bind fun _ s₂ hs₂ => ?_
    dsimp only
    rw [subst_insert, h₁.generalize_subst_self]
    have hready := (hΓ.subst h₁).insert_generalize (h₁.type_lt hΓ.free_lt) name
    have hcovers₁ := hfactors₁.covers hΓ h₁ hcovers
    have hscheme := hcovers₁.generalize t₁
    rw [hfactors₁.type] at hscheme
    refine ((ihbody hs₂ hready (Related.insert hcovers₁ name hscheme)).and
      (typeBySubst_footprint body hmode hs₂ hready.free_lt)).bind ?_
    rintro ⟨S₂, t₂⟩ s₃ ⟨⟨φ₂, hfactors₂⟩, n₂, hs₃, -⟩
    exact Infer.meets_concludeW hs₃ fun _ _ => ⟨φ₂, .letIn hΓ h₁ hfactors₁ hfactors₂⟩

/-! ### Instances of a context -/

/-- No type that the substitution puts in mentions a binder of the context. -/
def Avoids (Γ : Context) (θ : Subst) : Prop :=
  ∀ binding ∈ Γ.entries, ∀ b ∈ binding.2.binders.toList, ∀ entry ∈ θ.entries, b ∉ entry.2.vars

instance (Γ : Context) (θ : Subst) : Decidable (Γ.Avoids θ) :=
  inferInstanceAs
    (Decidable (∀ binding ∈ Γ.entries, ∀ b ∈ binding.2.binders.toList, ∀ entry ∈ θ.entries,
      b ∉ entry.2.vars))

theorem Avoids.clear {θ : Subst} (h : Γ.Avoids θ) : Clear θ Γ := by
  intro x σ hget v hv w hw hbinder
  by_cases hmem : v ∈ θ
  · exact h (x, σ) (OrderedMap.get?_eq_some_iff.mp hget) w hbinder (v, θ.image v)
      (Subst.mem_entries_image hmem) hw
  · rw [Subst.image_of_not_mem hmem, Ty.vars_var, VarSet.mem_singleton] at hw
    exact (Scheme.mem_free.mp hv).2 (hw ▸ hbinder)

/-- A replacement that an answer factors through, as a substitution. -/
theorem Factors.exists_subst {θ S : Subst} {t τ : Ty} {n' : Nat} (h : Factors θ.image n S t τ φ')
    (hΓ : Γ.Ready n) (hfoot : Footprint Γ n S t n') :
    ∃ θ' : Subst, t.subst θ' = τ ∧
      ∀ v ∈ Γ.free, ((Ty.var v).subst S).subst θ' = (Ty.var v).subst θ := by
  have hbelow : ∀ a : Ty, (∀ w ∈ a.vars, w < n') →
      a.subst (.tabulate (List.range n') φ') = a.bind φ' := by
    intro a ha
    refine Ty.bind_congr fun w hw => ?_
    rw [Subst.image_tabulate, if_pos (List.mem_range.mpr (ha w hw))]
  refine ⟨.tabulate (List.range n') φ', (hbelow t (hfoot.type_lt hΓ.free_lt)).trans h.type,
    fun v hv => ?_⟩
  have hlt := hΓ.free_lt v hv
  exact (hbelow _ (hfoot.image_lt hΓ.free_lt hlt)).trans (h.image v hlt)

theorem inferW_factors {term : Term} {s : Session} {θ : Subst} {τ : Ty} (hΓ : Γ.Hygienic)
    (hmode : s.supply.mode ≠ .shared) (hθ : Γ.Avoids θ) (hτ : Typing (Γ.subst θ) term τ) :
    Infer.Meets (fun r _ => ∃ θ' : Subst, r.2.subst θ' = τ ∧
      ∀ v ∈ Γ.free, ((Ty.var v).subst r.1).subst θ' = (Ty.var v).subst θ) (fun _ _ => False)
      (Γ.inferW term s) := by
  refine (Infer.meets_reserve Γ ⟨rfl, rfl⟩).bind ?_
  rintro _ s₁ ⟨n, hs₁, -, hbound⟩
  have hready : Γ.Ready n := ⟨hΓ, hbound⟩
  have hrun := typeBySubst_factors hmode hs₁ hready hθ.clear.covers hτ
  refine (hrun.and (typeBySubst_footprint term hmode hs₁ hready.free_lt)).imp ?_ fun _ _ => id
  rintro r s' ⟨⟨φ', hfactors⟩, n', -, hfoot⟩
  exact hfactors.exists_subst hready hfoot

/-- Algorithm W answers whenever an instance of the context types the term, with a type and a
substitution that this typing is an instance of; and when it finds a type error, no instance of the
context types the term. -/
theorem inferW_principal {Γ : Context} {term : Term} {s : Session} (hΓ : Γ.Hygienic)
    (hmode : s.supply.mode ≠ .shared) (hsupply : (Γ.inferW term s).1 ≠ .error .exhausted) :
    (∀ (θ : Subst) (τ : Ty), Γ.Avoids θ → Typing (Γ.subst θ) term τ →
      ∃ S t, (Γ.inferW term s).1 = .ok (S, t) ∧
        ∃ θ' : Subst, t.subst θ' = τ ∧
          ∀ v ∈ Γ.free, ((Ty.var v).subst S).subst θ' = (Ty.var v).subst θ) ∧
      ∀ e, (Γ.inferW term s).1 = .error (.illTyped e) → ∀ (θ : Subst) (τ : Ty), Γ.Avoids θ →
        ¬ Typing (Γ.subst θ) term τ := by
  refine ⟨fun θ τ hθ hτ => ?_, fun e herror θ τ hθ hτ => ?_⟩
  · obtain ⟨⟨S, t⟩, hanswer, hfactor⟩ := (inferW_factors hΓ hmode hθ hτ).exists_ok hsupply
    exact ⟨S, t, hanswer, hfactor⟩
  · obtain ⟨answer, hanswer, -⟩ := (inferW_factors hΓ hmode hθ hτ).exists_ok hsupply
    rw [herror] at hanswer
    cases hanswer

private theorem sampleTerm_typing : Typing (sample.subst (.singleton 3 .int)) sampleTerm .int := by
  have hidentity :
      Typing (sample.subst (.singleton 3 .int)) (.abs "x" (.var "x")) (.fn (.var 9) (.var 9)) :=
    .abs (.var (σ := .mono (.var 9)) (by decide)
      ⟨∅, fun v hv => absurd hv (Subst.not_mem_empty v), by decide⟩)
  refine .letIn hidentity
    (.app (t := .int) (.app (t := .fn .int .int) ?_ ?_) (.app (t := .int) ?_ ?_))
  · exact .var (σ := ⟨VarSet.ofList [9], .fn (.var 9) (.var 9)⟩) (by decide)
      ⟨.tabulate [9] fun _ => .fn .int .int, fun v hv => Subst.mem_tabulate.mp hv, by decide⟩
  · exact .var (σ := ⟨VarSet.ofList [0], .fn (.var 0) .int⟩) (by decide)
      ⟨.tabulate [0] fun _ => .int, fun v hv => Subst.mem_tabulate.mp hv, by decide⟩
  · exact .var (σ := ⟨VarSet.ofList [9], .fn (.var 9) (.var 9)⟩) (by decide)
      ⟨.tabulate [9] fun _ => .int, fun v hv => Subst.mem_tabulate.mp hv, by decide⟩
  · exact .var (σ := .mono .int) (by decide)
      ⟨∅, fun v hv => absurd hv (Subst.not_mem_empty v), by decide⟩

theorem inferW_principal_sample :
    (∃ S t, (sample.inferW sampleTerm { supply := {} }).1 = .ok (S, t) ∧
      ∃ θ' : Subst, t.subst θ' = .int ∧
        ∀ v ∈ sample.free, ((Ty.var v).subst S).subst θ' = (Ty.var v).subst (.singleton 3 .int)) ∧
      ¬ Typing (sample.subst (.singleton 3 .int)) (.app (.var "y") (.var "y")) .int := by
  have hΓ : sample.Hygienic := by decide
  have hθ : sample.Avoids (.singleton 3 .int) := by decide
  have hrun : (sample.inferW sampleTerm { supply := {} }).1 = .ok (sampleSubst, .var 5) := by cbv
  have herror : (sample.inferW (.app (.var "y") (.var "y")) { supply := {} }).1 =
      .error (.illTyped (.infinite 3 (.fn (.var 3) (.var 4)))) := by
    cbv
  constructor
  · refine (inferW_principal hΓ (by decide) ?_).1 _ _ hθ sampleTerm_typing
    rw [hrun]
    simp
  · refine (inferW_principal hΓ (by decide) ?_).2 _ herror _ _ hθ
    rw [herror]
    simp

end Context

end HindleyMilner
