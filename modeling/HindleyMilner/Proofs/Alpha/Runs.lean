import HindleyMilner.Proofs.Alpha.Terms
import HindleyMilner.Proofs.Linking.Relevance
import HindleyMilner.Proofs.Substituting.Relevance

/-!
# Inference and bound names

The names of parameters and of `let`s do not matter to inference. On alpha-equivalent terms both
algorithms do the same at every step, so they end in the same way, draw the same variables and
leave the same forest.

What has to be seen for this is that generalization is not misled. A binder may hide a binding of
the context in one term and not in the other, so that the contexts on the way have different free
variables. But what a run has found is in both contexts made of the variables that it could reach,
and those are the same.
-/

namespace HindleyMilner.Context

open Infer (Alike Meets)

variable {Γ Δ : Context} {pairs : List (String × String)} {e e' : Term} {s s' : Session}
  {mode : Supply.Mode} {n : Nat}

/-! ### Algorithm W -/

theorem typeBySubst_alike {forest : Forest} (h : Term.AlphaUnder pairs e e')
    (hmode : mode ≠ .shared) (hs : s.Stands mode n forest) (halike : s.Alike s') (hΓ : Γ.Ready n)
    (hΔ : Δ.Ready n) (hpairs : Corresponds pairs Γ Δ) :
    Alike (Γ.typeBySubst e s) (Δ.typeBySubst e' s') := by
  induction h generalizing Γ Δ s s' n with
  | int value => exact Infer.alike_concludeW _ _ _ halike
  | bool value => exact Infer.alike_concludeW _ _ _ halike
  | var hpaired =>
    apply (Infer.alike_lookup hpairs hpaired halike).bind
      (Infer.meets_lookup (E := fun _ _ => True) hmode hs fun _ => trivial)
    intro t s₁ s₁' _ halike₁
    exact Infer.alike_concludeW _ _ _ halike₁
  | app hfunc harg ihfunc iharg =>
    apply (Infer.alike_fresh halike).bind (Infer.meets_fresh (E := fun _ _ => True) hmode hs)
    intro result s₀ s₀' h₀ halike₀
    obtain ⟨rfl, hs₀⟩ := h₀
    have hΓ₀ := hΓ.mono (Nat.le_succ n)
    have hΔ₀ := hΔ.mono (Nat.le_succ n)
    have hruns₁ := ihfunc hs₀ halike₀ hΓ₀ hΔ₀ hpairs
    apply hruns₁.bind (typeBySubst_footprints hmode hs₀ halike₀ hΓ₀ hΔ₀ hruns₁)
    intro answer s₁ s₁' h₁ halike₁
    obtain ⟨n₁, hs₁, h₁, h₁'⟩ := h₁
    have hΓ₁ := hΓ₀.subst h₁
    have hΔ₁ := hΔ₀.subst h₁'
    have hruns₂ := iharg hs₁ halike₁ hΓ₁ hΔ₁ (hpairs.subst answer.1)
    apply hruns₂.bind (typeBySubst_footprints hmode hs₁ halike₁ hΓ₁ hΔ₁ hruns₂)
    intro answer' s₂ s₂' h₂ halike₂
    obtain ⟨n₂, hs₂, -⟩ := h₂
    apply (Infer.alike_mgu _ _ halike₂).bind
      (Infer.meets_mgu (E := fun _ _ => True) hs₂ fun _ _ => trivial)
    intro u s₃ s₃' _ halike₃
    exact Infer.alike_concludeW _ _ _ halike₃
  | @abs pairs p q body body' hbody ih =>
    apply (Infer.alike_fresh halike).bind (Infer.meets_fresh (E := fun _ _ => True) hmode hs)
    intro t s₀ s₀' h₀ halike₀
    obtain ⟨rfl, hs₀⟩ := h₀
    have hΓ₀ := hΓ.insert_mono p
    have hΔ₀ := hΔ.insert_mono q
    have hruns := ih hs₀ halike₀ hΓ₀ hΔ₀ (hpairs.insert p q _)
    apply hruns.bind (typeBySubst_footprints hmode hs₀ halike₀ hΓ₀ hΔ₀ hruns)
    intro answer s₁ s₁' _ halike₁
    exact Infer.alike_concludeW _ _ _ halike₁
  | @letIn pairs p q init init' body body' hinit hbody ihinit ihbody =>
    have hruns₁ := ihinit hs halike hΓ hΔ hpairs
    apply hruns₁.bind (typeBySubst_footprints hmode hs halike hΓ hΔ hruns₁)
    intro answer s₁ s₁' h₁ halike₁
    obtain ⟨n₁, hs₁, h₁, h₁'⟩ := h₁
    obtain ⟨S₁, t₁⟩ := answer
    dsimp only at h₁ h₁' ⊢
    -- The scheme of the bound name is the same, although the contexts may not have
    -- the same free variables.
    have hscheme := generalize_congr h₁ h₁' hΓ hΔ
    rw [subst_insert, subst_insert, h₁.generalize_subst_self, h₁'.generalize_subst_self, hscheme]
    apply (Infer.alike_report _ _ halike₁).bind (Infer.meets_report (E := fun _ _ => True) _ hs₁)
    intro _ s₂ s₂' hs₂ halike₂
    have hΓ₁ := (hΓ.subst h₁).insert_generalize (h₁.type_lt hΓ.free_lt) p
    have hΔ₁ := (hΔ.subst h₁').insert_generalize (h₁'.type_lt hΔ.free_lt) q
    rw [hscheme] at hΔ₁
    have hruns₂ := ihbody hs₂ halike₂ hΓ₁ hΔ₁ ((hpairs.subst S₁).insert p q _)
    apply hruns₂.bind (typeBySubst_footprints hmode hs₂ halike₂ hΓ₁ hΔ₁ hruns₂)
    intro answer' s₃ s₃' _ halike₃
    exact Infer.alike_concludeW _ _ _ halike₃

/-! ### Algorithm J -/

private theorem typeByLinks_trails_of_alike {f : Forest} (hmode : mode ≠ .shared)
    (hs : s.Stands mode n f) (halike : s.Alike s') (hf : f.Over {v | v < n})
    (hΓ : ∀ v ∈ Γ.free, v < n) (hΔ : ∀ v ∈ Δ.free, v < n)
    (hruns : Alike (Γ.typeByLinks e s) (Δ.typeByLinks e' s')) :
    Meets (fun t s₁ => ∃ n₁ f₁, s₁.Stands mode n₁ f₁ ∧ (Γ.Trail f n t f₁ n₁ ∧ Δ.Trail f n t f₁ n₁) ∧
      f₁.Over {v | v < n₁} ∧ t.Over {v | v < n₁})
      (fun _ _ => True) (Γ.typeByLinks e s) := by
  have hleft := typeByLinks_below e hmode hs hf hΓ (typeByLinks_trail e hmode hs hf hΓ)
  have hright := hruns.meets (typeByLinks_trail e' hmode (hs.alike halike) hf hΔ)
  apply (hleft.and hright).imp
  · intro t s₁ h
    obtain ⟨⟨n₁, f₁, hs₁, h₁, hbelow⟩, s₁', halike₁, n₁', f₁', hs₁', h₁'⟩ := h
    have hs₁'' := hs₁.alike halike₁
    obtain rfl := hs₁''.next_eq hs₁'
    obtain rfl : f₁ = f₁' := hs₁''.forest.symm.trans hs₁'.forest
    exact ⟨n₁, f₁, hs₁, ⟨h₁, h₁'⟩, hbelow⟩
  · exact fun _ _ _ => trivial

theorem typeByLinks_alike {f : Forest} (h : Term.AlphaUnder pairs e e') (hmode : mode ≠ .shared)
    (hs : s.Stands mode n f) (halike : s.Alike s') (hf : f.Over {v | v < n})
    (hΓ : ∀ v ∈ Γ.free, v < n) (hΔ : ∀ v ∈ Δ.free, v < n) (hpairs : Corresponds pairs Γ Δ) :
    Alike (Γ.typeByLinks e s) (Δ.typeByLinks e' s') := by
  induction h generalizing Γ Δ s s' n f with
  | int value => exact Infer.alike_concludeJ _ _ halike
  | bool value => exact Infer.alike_concludeJ _ _ halike
  | var hpaired =>
    apply (Infer.alike_lookup hpairs hpaired halike).bind
      (Infer.meets_lookup (E := fun _ _ => True) hmode hs fun _ => trivial)
    intro t s₁ s₁' _ halike₁
    exact Infer.alike_concludeJ _ _ halike₁
  | app hfunc harg ihfunc iharg =>
    have hruns₁ := ihfunc hs halike hf hΓ hΔ hpairs
    apply hruns₁.bind (typeByLinks_trails_of_alike hmode hs halike hf hΓ hΔ hruns₁)
    intro t₁ s₁ s₁' h₁ halike₁
    obtain ⟨n₁, f₁, hs₁, ⟨htrail, -⟩, hf₁, -⟩ := h₁
    have hΓ₁ : ∀ v ∈ Γ.free, v < n₁ := fun v hv => Nat.lt_of_lt_of_le (hΓ v hv) htrail.le
    have hΔ₁ : ∀ v ∈ Δ.free, v < n₁ := fun v hv => Nat.lt_of_lt_of_le (hΔ v hv) htrail.le
    have hruns₂ := iharg hs₁ halike₁ hf₁ hΓ₁ hΔ₁ hpairs
    apply hruns₂.bind (typeByLinks_trails_of_alike hmode hs₁ halike₁ hf₁ hΓ₁ hΔ₁ hruns₂)
    intro t₂ s₂ s₂' h₂ halike₂
    obtain ⟨n₂, f₂, hs₂, -⟩ := h₂
    apply (Infer.alike_fresh halike₂).bind (Infer.meets_fresh (E := fun _ _ => True) hmode hs₂)
    intro result s₃ s₃' h₃ halike₃
    apply (Infer.alike_unify _ _ halike₃).bind
      (Infer.meets_unify (E := fun _ _ => True) h₃.2 fun _ _ _ _ => trivial)
    intro _ s₄ s₄' h₄ halike₄
    apply (Infer.alike_find _ halike₄).bind (Infer.meets_find (E := fun _ _ => True) _ h₄.2)
    intro t s₅ s₅' _ halike₅
    exact Infer.alike_concludeJ _ _ halike₅
  | @abs pairs p q body body' hbody ih =>
    apply (Infer.alike_fresh halike).bind (Infer.meets_fresh (E := fun _ _ => True) hmode hs)
    intro t s₀ s₀' h₀ halike₀
    obtain ⟨rfl, hs₀⟩ := h₀
    have hf₀ : f.Over {v | v < n + 1} := hf.mono fun v hv => Nat.lt_succ_of_lt hv
    have hΓ₀ := free_insert_fresh_lt hΓ p
    have hΔ₀ := free_insert_fresh_lt hΔ q
    have hruns := ih hs₀ halike₀ hf₀ hΓ₀ hΔ₀ (hpairs.insert p q _)
    apply hruns.bind (typeByLinks_trails_of_alike hmode hs₀ halike₀ hf₀ hΓ₀ hΔ₀ hruns)
    intro t' s₁ s₁' h₁ halike₁
    obtain ⟨n₁, f₁, hs₁, -⟩ := h₁
    apply (Infer.alike_find _ halike₁).bind (Infer.meets_find (E := fun _ _ => True) _ hs₁)
    intro dom s₂ s₂' h₂ halike₂
    apply (Infer.alike_find _ halike₂).bind (Infer.meets_find (E := fun _ _ => True) _ h₂.2)
    intro cod s₃ s₃' _ halike₃
    exact Infer.alike_concludeJ _ _ halike₃
  | @letIn pairs p q init init' body body' hinit hbody ihinit ihbody =>
    have hruns₁ := ihinit hs halike hf hΓ hΔ hpairs
    apply hruns₁.bind (typeByLinks_trails_of_alike hmode hs halike hf hΓ hΔ hruns₁)
    intro t₁ s₁ s₁' h₁ halike₁
    obtain ⟨n₁, f₁, hs₁, ⟨htrail, htrail'⟩, hf₁, ht₁⟩ := h₁
    have hΓ₁ : ∀ v ∈ Γ.free, v < n₁ := fun v hv => Nat.lt_of_lt_of_le (hΓ v hv) htrail.le
    have hΔ₁ : ∀ v ∈ Δ.free, v < n₁ := fun v hv => Nat.lt_of_lt_of_le (hΔ v hv) htrail.le
    have hscheme := generalizeIn_congr htrail htrail' hf hΓ hΔ
    rw [Infer.bind_apply, Infer.bind_apply, Infer.get_apply, Infer.get_apply]
    dsimp only
    rw [halike₁.forest, hs₁.forest, hscheme]
    apply (Infer.alike_report _ _ halike₁).bind (Infer.meets_report (E := fun _ _ => True) _ hs₁)
    intro _ s₂ s₂' hs₂ halike₂
    have hΓ₂ := free_insert_generalizeIn_lt hf₁ ht₁ hΓ₁ p
    have hΔ₂ := free_insert_generalizeIn_lt hf₁ ht₁ hΔ₁ q
    rw [hscheme] at hΔ₂
    have hruns₂ := ihbody hs₂ halike₂ hf₁ hΓ₂ hΔ₂ (hpairs.insert p q _)
    apply hruns₂.bind (typeByLinks_trails_of_alike hmode hs₂ halike₂ hf₁ hΓ₂ hΔ₂ hruns₂)
    intro t₂ s₃ s₃' _ halike₃
    exact Infer.alike_concludeJ _ _ halike₃

/-! ### Whole runs -/

theorem inferW_alike (h : e.AlphaEq e') (hΓ : Γ.Hygienic) (hmode : mode ≠ .shared) {forest : Forest}
    (hs : s.Stands mode n forest) :
    Alike (Γ.inferW e s) (Γ.inferW e' s) := by
  apply (Infer.alike_draw Γ.reserve (.refl s)).bind
    (Infer.meets_reserve (E := fun _ _ => True) Γ hs)
  intro _ s₁ s₁' h₁ halike₁
  obtain ⟨n₁, hs₁, -, hbound⟩ := h₁
  exact typeBySubst_alike h hmode hs₁ halike₁ ⟨hΓ, hbound⟩ ⟨hΓ, hbound⟩ Γ.corresponds_self

theorem inferJ_alike (h : e.AlphaEq e') (hmode : mode ≠ .shared) {f : Forest}
    (hs : s.Stands mode n f) (hf : f.Over {v | v < n}) :
    Alike (Γ.inferJ e s) (Γ.inferJ e' s) := by
  apply (Infer.alike_draw Γ.reserve (.refl s)).bind
    (Infer.meets_reserve (E := fun _ _ => True) Γ hs)
  intro _ s₁ s₁' h₁ halike₁
  obtain ⟨n₁, hs₁, hle, hbound⟩ := h₁
  have hΓ : ∀ v ∈ Γ.free, v < n₁ := fun v hv => hbound v (mem_bodyVars_of_mem_free hv)
  exact typeByLinks_alike h hmode hs₁ halike₁ (hf.mono fun v hv => Nat.lt_of_lt_of_le hv hle) hΓ hΓ
    Γ.corresponds_self

/-- On alpha-equivalent terms both algorithms end in the same way, with the same supply, and leave
the same forest, whatever forest they begin with. On a shared supply this needs that its counter
does not start again. -/
theorem infer_alphaEq (h : e.AlphaEq e') (hΓ : Γ.Hygienic) (hforest : s.forest.Reachable)
    (hbelow : ∀ v ∈ s.forest.vars, v < s.supply.next)
    (hrangeW : s.supply.mode = .shared → Infer.InRange (Γ.inferW e) s)
    (hrangeJ : s.supply.mode = .shared → Infer.InRange (Γ.inferJ e) s) :
    ((Γ.inferW e' s).1 = (Γ.inferW e s).1 ∧ (Γ.inferW e' s).2.supply = (Γ.inferW e s).2.supply) ∧
      (Γ.inferJ e' s).1 = (Γ.inferJ e s).1 ∧ (Γ.inferJ e' s).2.supply = (Γ.inferJ e s).2.supply ∧
        (Γ.inferJ e' s).2.forest = (Γ.inferJ e s).2.forest := by
  have hmode := s.supply.mode.strict_ne_shared
  have hover : s.forest.Over {v | v < s.supply.next} :=
    ⟨hforest.wellFormed, fun t ht v hv => hbelow v (Forest.mem_vars_of_mem_types ht hv)⟩
  have hW :=
    (drawsOnly_inferW Γ e).alike_of_strict (drawsOnly_inferW Γ e') hrangeW
      (inferW_alike h hΓ hmode s.stands_strict)
  have hJ :=
    (drawsOnly_inferJ Γ e).alike_of_strict (drawsOnly_inferJ Γ e') hrangeJ
      (inferJ_alike h hmode s.stands_strict hover)
  exact ⟨⟨hW.outcome, hW.sessions.supply⟩, hJ.outcome, hJ.sessions.supply, hJ.sessions.forest⟩

/-- Offers an `x` of a type that the forest `linked` knows, and the identity. -/
def offered : Context :=
  OrderedMap.ofList [("x", .mono (.var 0)), ("g", ⟨VarSet.ofList [1], .fn (.var 1) (.var 1)⟩)]

def linked : Forest := ((∅ : Forest).unify (.var 0) .int).forest

/-- The parameter hides the `x` that is offered. -/
def shadowing : Term := .abs "x" (.letIn "f" (.abs "y" (.app (.var "g") (.var "x"))) (.var "f"))

/-- The name in the `let` hides it, and the names of `shadowing` have changed places. -/
def shadowingLater : Term :=
  .abs "y" (.letIn "x" (.abs "f" (.app (.var "g") (.var "y"))) (.var "x"))

theorem infer_alphaEq_shadowing :
    shadowing.AlphaEq shadowingLater ∧
      ((offered.inferW shadowingLater { supply := ⟨.owned, 2⟩, forest := linked }).1 =
        (offered.inferW shadowing { supply := ⟨.owned, 2⟩, forest := linked }).1 ∧
        (offered.inferJ shadowing { supply := ⟨.owned, 2⟩, forest := linked }).1 =
          .ok (.fn (.var 5) (.fn (.var 6) (.var 5))) ∧
        (offered.inferJ shadowingLater { supply := ⟨.owned, 2⟩, forest := linked }).1 =
          (offered.inferJ shadowing { supply := ⟨.owned, 2⟩, forest := linked }).1) ∧
      (offered.inferJ shadowingLater { supply := ⟨.owned, 2⟩, forest := linked }).2.forest =
        (offered.inferJ shadowing { supply := ⟨.owned, 2⟩, forest := linked }).2.forest := by
  have halpha : shadowing.AlphaEq shadowingLater :=
    .abs (.letIn (.abs (.app (.var (by decide)) (.var (by decide)))) (.var (by decide)))
  have hreachable : linked.Reachable := .unify .empty _ _
  have hbelow : ∀ v ∈ linked.vars, v < 2 := by
    have hvars : linked.vars = VarSet.ofList [0] := by decide
    intro v hv
    have hzero : v = 0 := by simpa [hvars, VarSet.ofList] using hv
    omega
  obtain ⟨⟨hW, -⟩, hJ, -, hforest⟩ :=
    infer_alphaEq (Γ := offered) (s := { supply := ⟨.owned, 2⟩, forest := linked }) halpha
      (by decide) hreachable hbelow (by simp) (by simp)
  exact ⟨halpha, ⟨hW, by decide +kernel, hJ⟩, hforest⟩

/-- A shared supply that has one index left before it starts again. -/
def atTheEnd : Session := { supply := ⟨.shared, Supply.indexCount - 1⟩ }

/-- Offers an `x` whose type is the variable that the supply starts again with. -/
def offeringFirst : Context := .ofList [("x", .mono (.var 0))]

/-- The identity under a name, below a parameter. -/
def identityBelow (param : String) : Term :=
  .abs param (.letIn "f" (.abs "y" (.var "y")) (.var "f"))

/-- On a shared supply that starts again, the name of a parameter matters. The identity is given the
first variable, which is free in the context if the parameter is `z`, but not if it is `x` and hides
what is offered. -/
theorem infer_alphaEq_startsAgain :
    (identityBelow "x").AlphaEq (identityBelow "z") ∧ offeringFirst.Hygienic ∧
      atTheEnd.forest.Reachable ∧
      (∀ v ∈ atTheEnd.forest.vars, v < atTheEnd.supply.next) ∧
      (offeringFirst.inferW (identityBelow "x") atTheEnd).1 =
        .ok (∅, .fn (.var (Supply.indexCount - 1)) (.fn (.var 1) (.var 1))) ∧
      (offeringFirst.inferW (identityBelow "z") atTheEnd).1 =
        .ok (∅, .fn (.var (Supply.indexCount - 1)) (.fn (.var 0) (.var 0))) ∧
      (offeringFirst.inferJ (identityBelow "x") atTheEnd).1 =
        .ok (.fn (.var (Supply.indexCount - 1)) (.fn (.var 1) (.var 1))) ∧
      (offeringFirst.inferJ (identityBelow "z") atTheEnd).1 =
        .ok (.fn (.var (Supply.indexCount - 1)) (.fn (.var 0) (.var 0))) := by
  have halpha : (identityBelow "x").AlphaEq (identityBelow "z") :=
    .abs (.letIn (.abs (.var (by decide))) (.var (by decide)))
  have hbelow : ∀ v ∈ atTheEnd.forest.vars, v < atTheEnd.supply.next :=
    fun v hv => absurd hv (VarSet.not_mem_empty v)
  exact ⟨halpha, by decide, .empty, hbelow, rfl, rfl, rfl, rfl⟩

end HindleyMilner.Context
