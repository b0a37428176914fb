import HindleyMilner.Proofs.Counting
import HindleyMilner.Proofs.Freshness

/-!
# What reserving covers

Before a run draws its first variable it reserves what the bodies of the context mention. A binder
that occurs in no body is not reserved, and nothing keeps the run from drawing it. So drawn
variables always differ from the variables of the bodies, but they differ from everything that the
context mentions only if no binder lies above all of these (`drawn_apart_iff`). Under this condition
no binder can capture what is built from drawn variables.
-/

namespace HindleyMilner

open Supply (indexCount)

/-! ### How far an owned supply counts -/

/-- The supply has counted on, and if it moved at all it has an index that can still be held. -/
structure Supply.Advances (s s' : Supply) : Prop where
  mode : s'.mode = s.mode
  le : s.next ≤ s'.next
  held : s'.next = s.next ∨ s'.next < indexCount

theorem Supply.Advances.refl (s : Supply) : s.Advances s := ⟨rfl, Nat.le_refl _, .inl rfl⟩

theorem Supply.Advances.trans {s s' s'' : Supply} (h : s.Advances s') (h' : s'.Advances s'') :
    s.Advances s'' := by
  refine ⟨h'.mode.trans h.mode, Nat.le_trans h.le h'.le, ?_⟩
  have := h.held
  have := h'.held
  omega

theorem Draw.DrawsOnly.advances {α : Type} {d : Draw α} (h : d.DrawsOnly) {s s' : Supply} {a : α}
    (howned : s.mode = .owned) (hdraw : d s = some (a, s')) :
    s.Advances s' := by
  induction h generalizing s s' with
  | pure a =>
    cases hdraw
    exact .refl s
  | fresh =>
    have hne : s.mode ≠ .shared := by simp [howned]
    obtain ⟨-, rfl⟩ := Supply.fresh_eq_some hne hdraw
    refine ⟨rfl, Nat.le_succ _, .inr ?_⟩
    simp only [Draw.fresh, Supply.fresh, howned, Supply.Mode.succ?] at hdraw
    split at hdraw
    · assumption
    · simp at hdraw
  | reserve used =>
    obtain ⟨s₁, hreserve, hpair⟩ := Option.map_eq_some_iff.mp hdraw
    obtain ⟨-, rfl⟩ := Prod.mk.inj hpair
    obtain rfl := Supply.reserve_eq_some hreserve
    have hused : used + 1 < indexCount := by
      simp only [Supply.reserve, howned, Supply.Mode.above?] at hreserve
      split at hreserve
      · assumption
      · simp at hreserve
    refine ⟨rfl, Nat.le_max_left _ _, ?_⟩
    show max s.next (used + 1) = s.next ∨ max s.next (used + 1) < indexCount
    omega
  | bind hd hf ihd ihf =>
    obtain ⟨⟨b, s₁⟩, hfirst, hrest⟩ := Option.bind_eq_some_iff.mp hdraw
    have h₁ := ihd howned hfirst
    exact h₁.trans (ihf b (h₁.mode.trans howned) hrest)

/-- Whatever a run on an owned supply ends in, its supply has counted on. -/
theorem Infer.DrawsOnly.advances {α : Type} {x : Infer α} (h : x.DrawsOnly) {s : Session}
    (howned : s.supply.mode = .owned) :
    s.supply.Advances (x s).2.supply := by
  induction h generalizing s with
  | @draw _ d hd =>
    rw [draw_apply]
    cases hrun : d s.supply with
    | none => exact .refl _
    | some pair => exact hd.advances howned hrun
  | aside hx =>
    rw [hx.supply_eq]
    exact .refl _
  | look hsame hf ih =>
    rw [bind_apply, get_apply]
    exact ih s howned
  | @bind _ _ x f hx hf ihx ihf =>
    have hfirst := ihx howned
    rw [bind_apply]
    cases hrun : x s with
    | mk result s₁ =>
      rw [hrun] at hfirst
      cases result with
      | error failure => exact hfirst
      | ok a => exact hfirst.trans (ihf a (hfirst.mode.trans howned))

/-! ### Drawn variables -/

namespace Context

variable {Γ : Context} {algorithm : Algorithm} {term : Term} {s : Session} {v : Nat}

/-- The variables that occur anywhere in the context: in bodies, or as binders. -/
def vars (Γ : Context) : VarSet := .unionOf (fun entry => entry.2.vars) Γ.entries

theorem mem_vars : v ∈ Γ.vars ↔ v ∈ Γ.bodyVars ∨ ∃ entry ∈ Γ.entries, v ∈ entry.2.binders := by
  simp only [vars, VarSet.mem_unionOf, Scheme.vars, VarSet.mem_union, mem_bodyVars]
  constructor
  · rintro ⟨entry, hentry, hbody | hbinder⟩
    · exact .inl ⟨entry, hentry, hbody⟩
    · exact .inr ⟨entry, hentry, hbinder⟩
  · rintro (⟨entry, hentry, hbody⟩ | ⟨entry, hentry, hbinder⟩)
    · exact ⟨entry, hentry, .inl hbody⟩
    · exact ⟨entry, hentry, .inr hbinder⟩

/-- The session that inference leaves, whatever its outcome. -/
def sessionAfter (Γ : Context) (algorithm : Algorithm) (term : Term) (s : Session) : Session :=
  match algorithm with
  | .w => (Γ.inferW term s).2
  | .j => (Γ.inferJ term s).2

theorem sessionAfter_eq {reserved : Supply} (hreserve : Γ.reserve s.supply = some ((), reserved))
    (algorithm : Algorithm) (term : Term) :
    Γ.sessionAfter algorithm term s =
      match algorithm with
      | .w => (Γ.typeBySubst term { s with supply := reserved }).2
      | .j => (Γ.typeByLinks term { s with supply := reserved }).2 := by
  cases algorithm with
  | w => rw [sessionAfter, inferW, Infer.bind_apply, Infer.draw_apply, hreserve]
  | j => rw [sessionAfter, inferJ, Infer.bind_apply, Infer.draw_apply, hreserve]

/-- The run draws `v`. A supply hands out every index that it passes, and nothing is reserved again
once the context is. -/
def Drawn (Γ : Context) (algorithm : Algorithm) (term : Term) (s : Session) (v : Nat) : Prop :=
  ∃ reserved, Γ.reserve s.supply = some ((), reserved) ∧ reserved.next ≤ v ∧
    v < (Γ.sessionAfter algorithm term s).supply.next

theorem Drawn.not_mem_bodyVars (h : Γ.Drawn algorithm term s v) : v ∉ Γ.bodyVars := by
  obtain ⟨reserved, hreserve, hle, -⟩ := h
  intro hv
  have := (reserve_eq_some hreserve).2.2 v hv
  omega

theorem Drawn.succ_lt (h : Γ.Drawn algorithm term s v) (howned : s.supply.mode = .owned) :
    v + 1 < indexCount := by
  obtain ⟨reserved, hreserve, hle, hlt⟩ := h
  have hadvances : reserved.Advances (Γ.sessionAfter algorithm term s).supply := by
    have hmode : ({ s with supply := reserved } : Session).supply.mode = .owned :=
      (reserve_eq_some hreserve).1.trans howned
    rw [sessionAfter_eq hreserve]
    cases algorithm with
    | w => exact (drawsOnly_typeBySubst term Γ).advances hmode
    | j => exact (drawsOnly_typeByLinks term Γ).advances hmode
  have := hadvances.held
  omega

theorem reserve_eq_self {b : Nat} (hb : b + 1 < indexCount) (hbody : ∀ v ∈ Γ.bodyVars, v < b) :
    Γ.reserve ⟨.owned, b⟩ = some ((), ⟨.owned, b⟩) := by
  rw [reserve]
  cases hmax : Γ.bodyVars.max? with
  | none => rfl
  | some used =>
    have hused : used < b := hbody used (List.mem_of_getLast? hmax)
    have hlt : used + 1 < indexCount := by omega
    simp [Draw.reserve, Supply.reserve, Supply.Mode.above?, hlt, Nat.max_eq_left hused]

/-- A function draws a variable for its parameter, and that is the next one there is. -/
theorem drawn_of_above {b : Nat} (hb : b + 1 < indexCount) (hbody : ∀ v ∈ Γ.bodyVars, v < b)
    (algorithm : Algorithm) :
    Γ.Drawn algorithm (.abs "x" (.int 0)) { supply := ⟨.owned, b⟩ } b := by
  have hreserve := reserve_eq_self hb hbody
  refine ⟨_, hreserve, Nat.le_refl b, ?_⟩
  have hfresh : Infer.fresh { supply := ⟨.owned, b⟩ } =
      (.ok (.var b), { supply := ⟨.owned, b + 1⟩ }) := by
    rw [Infer.fresh, map_eq_pure_bind, Infer.bind_apply, Infer.draw_apply]
    simp [Draw.fresh, Supply.fresh, Supply.Mode.succ?, hb]
  have hreserve' :
      Γ.reserve ({ supply := ⟨.owned, b⟩ } : Session).supply = some ((), ⟨.owned, b⟩) := hreserve
  rw [sessionAfter_eq hreserve']
  cases algorithm with
  | w =>
    rw [typeBySubst, Infer.bind_apply, hfresh]
    exact Nat.lt_succ_self b
  | j =>
    rw [typeByLinks, Infer.bind_apply, hfresh]
    exact Nat.lt_succ_self b

/-- A substitution that is built from variables which the context does not mention is
captured nowhere in it. -/
theorem clear_of_not_mem_vars {S : Subst}
    (hrange : ∀ entry ∈ S.entries, ∀ w ∈ entry.2.vars, w ∉ Γ.vars) : Γ.Clear S := by
  intro x σ hget v hv w hw hbinder
  by_cases hkey : v ∈ S
  · have hentry : (x, σ) ∈ Γ.entries := OrderedMap.get?_eq_some_iff.mp hget
    exact hrange _ (Subst.mem_entries_image hkey) w hw
      (mem_vars.mpr (.inr ⟨(x, σ), hentry, hbinder⟩))
  · rw [Subst.image_of_not_mem hkey, Ty.vars_var, VarSet.mem_singleton] at hw
    exact (Scheme.mem_free.mp hv).2 (hw ▸ hbinder)

/-- Drawn variables differ from those of the bodies in every run. They differ from all that the
context mentions, and so cannot be captured in it, exactly when no binder that can be drawn lies
above the bodies. -/
theorem drawn_apart_iff (Γ : Context) :
    (∀ (algorithm : Algorithm) (term : Term) (s : Session), s.supply.mode = .owned →
      ∀ v, Γ.Drawn algorithm term s v → v ∉ Γ.bodyVars) ∧
      ((∀ (algorithm : Algorithm) (term : Term) (s : Session), s.supply.mode = .owned →
          (∀ v, Γ.Drawn algorithm term s v → v ∉ Γ.vars) ∧
            ∀ S : Subst, (∀ entry ∈ S.entries, ∀ w ∈ entry.2.vars, Γ.Drawn algorithm term s w) →
              Γ.Clear S) ↔
        ∀ b ∈ Γ.vars, b + 1 < indexCount → ∃ v ∈ Γ.bodyVars, b ≤ v) := by
  refine ⟨fun algorithm term s _ v hdrawn => hdrawn.not_mem_bodyVars, fun hapart b hmem hb => ?_,
    fun hcovered algorithm term s howned => ?_⟩
  · by_contra hnone
    have hbody : ∀ v ∈ Γ.bodyVars, v < b := by
      intro v hv
      by_contra hge
      exact hnone ⟨v, hv, Nat.le_of_not_lt hge⟩
    exact (hapart .w _ _ rfl).1 b (drawn_of_above hb hbody .w) hmem
  · have hapart : ∀ v, Γ.Drawn algorithm term s v → v ∉ Γ.vars := by
      intro v hdrawn hmem
      obtain ⟨u, hu, hle⟩ := hcovered v hmem (hdrawn.succ_lt howned)
      obtain ⟨reserved, hreserve, hge, -⟩ := hdrawn
      have := (reserve_eq_some hreserve).2.2 u hu
      omega
    exact ⟨hapart, fun S hrange => clear_of_not_mem_vars fun entry hentry w hw =>
      hapart w (hrange entry hentry w hw)⟩

/-- A name whose scheme quantifies a variable that its body does not mention. -/
def idle : Context := .ofList [("y", ⟨VarSet.ofList [1], .var 0⟩)]

/-- Both algorithms give the parameter of the identity the variable that the scheme of `y` binds,
and it is captured if it is put in for the free one. -/
theorem drawn_idle_binder :
    (¬ ∀ v, idle.Drawn .w (.abs "x" (.var "x")) { supply := {} } v → v ∉ idle.vars) ∧
      (¬ ∀ v, idle.Drawn .j (.abs "x" (.var "x")) { supply := {} } v → v ∉ idle.vars) ∧
      ¬ idle.Clear (.singleton 0 (.var 1)) := by
  have hmem : 1 ∈ idle.vars := by decide
  have hreserve : idle.reserve ({ supply := {} } : Session).supply = some ((), ⟨.owned, 1⟩) := by
    decide
  refine ⟨fun hapart => hapart 1 ⟨_, hreserve, by decide, by decide⟩ hmem,
    fun hapart => hapart 1 ⟨_, hreserve, by decide, by decide⟩ hmem, fun hclear => ?_⟩
  exact hclear "y" ⟨VarSet.ofList [1], .var 0⟩ (by decide) 0 (by decide) 1 (by decide) (by decide)

end Context

end HindleyMilner
