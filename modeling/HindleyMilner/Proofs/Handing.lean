import HindleyMilner.Proofs.Reservation

/-!
# What a run is handed

`Context.Drawn` gives the variables of a run by an interval of indices. Here the indices are
collected where they are drawn: a run is handed what `Draw.fresh` returns in it, one index after the
other (`Infer.Hands`). Once the context is reserved, neither algorithm does anything with its supply
but draw. So a run is handed the whole interval, in order, and nothing else
(`Context.Hands.drawn_iff`). On a shared supply this holds as long as the supply does not start
again at zero (`Context.drawn_strict_iff`).
-/

namespace HindleyMilner

/-! ### Counting on -/

namespace Supply

/-- Counting on from `s` to `s'` goes past the listed indices and no others. -/
structure Passes (s s' : Supply) (vs : List Nat) : Prop where
  mode : s'.mode = s.mode
  next : s'.next = s.next + vs.length
  indices : vs = List.range' s.next vs.length

namespace Passes

variable {s s₁ s₂ : Supply} {vs ws : List Nat}

theorem refl (s : Supply) : s.Passes s [] := ⟨rfl, rfl, rfl⟩

theorem fresh {v : Nat} (hmode : s.mode ≠ .shared) (hrun : s.fresh = some (v, s₁)) :
    s.Passes s₁ [v] := by
  obtain ⟨rfl, rfl⟩ := fresh_eq_some hmode hrun
  exact ⟨rfl, rfl, rfl⟩

theorem append (h : s.Passes s₁ vs) (h' : s₁.Passes s₂ ws) : s.Passes s₂ (vs ++ ws) where
  mode := h'.mode.trans h.mode
  next := by rw [h'.next, h.next, List.length_append, Nat.add_assoc]
  indices := by
    rw [List.length_append, ← List.range'_append_1, ← h.indices, ← h.next, ← h'.indices]

end Passes

end Supply

/-! ### Draws -/

namespace Draw

/-- The computation does nothing with the supply but draw, and from `s` it is handed the
listed indices. -/
inductive Hands : {α : Type} → Draw α → Supply → List Nat → Prop
  | pure {α : Type} (a : α) (s : Supply) : Hands (pure a) s []
  | fresh {s s' : Supply} {v : Nat} (hrun : Draw.fresh s = some (v, s')) : Hands Draw.fresh s [v]
  | bind {α β : Type} {d : Draw α} {f : α → Draw β} {s s₁ : Supply} {a : α} {vs ws : List Nat}
      (hd : Hands d s vs)
      (hrun : d s = some (a, s₁)) (hf : Hands (f a) s₁ ws) : Hands (d >>= f) s (vs ++ ws)

variable {α : Type} {d : Draw α} {s s' : Supply} {a : α} {vs : List Nat}

/-- A supply that does not start again hands out every index that it passes. -/
theorem Hands.passes (h : Hands d s vs) (hmode : s.mode ≠ .shared) (hrun : d s = some (a, s')) :
    s.Passes s' vs := by
  induction h generalizing s' with
  | pure a s =>
    cases hrun
    exact .refl s
  | fresh hfresh =>
    obtain ⟨rfl, rfl⟩ := Prod.mk.inj (Option.some.inj (hfresh.symm.trans hrun))
    exact .fresh hmode hfresh
  | bind hd hfirst hf ihd ihf =>
    obtain ⟨⟨b, s₁'⟩, hfirst', hrest⟩ := Option.bind_eq_some_iff.mp hrun
    obtain ⟨rfl, rfl⟩ := Prod.mk.inj (Option.some.inj (hfirst.symm.trans hfirst'))
    have hpasses := ihd hmode hfirst
    exact hpasses.append (ihf (hpasses.mode ▸ hmode) hrest)

theorem FreshOnly.exists_hands (h : FreshOnly d) (hrun : d s = some (a, s')) :
    ∃ vs, Hands d s vs := by
  induction h generalizing s s' with
  | pure _ => exact ⟨[], .pure _ s⟩
  | fresh => exact ⟨_, .fresh hrun⟩
  | bind hd hf ihd ihf =>
    obtain ⟨⟨b, s₁⟩, hfirst, hrest⟩ := Option.bind_eq_some_iff.mp hrun
    obtain ⟨vs, hvs⟩ := ihd hfirst
    obtain ⟨ws, hws⟩ := ihf b hrest
    exact ⟨vs ++ ws, .bind hvs hfirst hws⟩

end Draw

/-! ### Runs -/

namespace Infer

/-- The run from `s` does nothing with the supply but draw, and is handed the listed indices. A draw
for which the supply does not suffice hands over nothing. -/
inductive Hands : {α : Type} → Infer α → Session → List Nat → Prop
  | draw {α : Type} {d : Draw α} {s : Session} {s' : Supply} {a : α} {vs : List Nat}
      (hd : d.Hands s.supply vs)
      (hrun : d s.supply = some (a, s')) : Hands (draw d) s vs
  | exhausted {α : Type} {d : Draw α} {s : Session} (hrun : d s.supply = none) : Hands (draw d) s []
  | aside {α : Type} {x : Infer α} (hx : Aside x) (s : Session) : Hands x s []
  | look {α : Type} {f : Session → Infer α} {s : Session} {vs : List Nat} (hf : Hands (f s) s vs) :
      Hands (get >>= f) s vs
  | bind {α β : Type} {x : Infer α} {f : α → Infer β} {s s₁ : Session} {a : α} {vs ws : List Nat}
      (hx : Hands x s vs)
      (hrun : x s = (.ok a, s₁)) (hf : Hands (f a) s₁ ws) : Hands (x >>= f) s (vs ++ ws)
  | stopped {α β : Type} {x : Infer α} {f : α → Infer β} {s s₁ : Session} {e : Failure}
      {vs : List Nat} (hx : Hands x s vs)
      (hrun : x s = (.error e, s₁)) : Hands (x >>= f) s vs

/-- A run is handed every index that its supply passes, whatever it ends in. -/
theorem Hands.passes {α : Type} {x : Infer α} {s : Session} {vs : List Nat} (h : Hands x s vs)
    (hmode : s.supply.mode ≠ .shared) : s.supply.Passes (x s).2.supply vs := by
  induction h with
  | draw hd hrun =>
    rw [draw_apply, hrun]
    exact hd.passes hmode hrun
  | exhausted hrun =>
    rw [draw_apply, hrun]
    exact .refl _
  | aside hx s =>
    rw [hx.supply_eq]
    exact .refl _
  | look hf ih =>
    rw [bind_apply, get_apply]
    exact ih hmode
  | bind hx hrun hf ihx ihf =>
    rw [bind_apply, hrun]
    rw [hrun] at ihx
    have hpasses := ihx hmode
    exact hpasses.append (ihf (hpasses.mode ▸ hmode))
  | stopped hx hrun ih =>
    rw [bind_apply, hrun]
    rw [hrun] at ih
    exact ih hmode

theorem FreshOnly.exists_hands {α : Type} {x : Infer α} (h : FreshOnly x) (s : Session) :
    ∃ vs, Hands x s vs := by
  induction h generalizing s with
  | @draw _ d hd =>
    cases hrun : d s.supply with
    | none => exact ⟨[], .exhausted hrun⟩
    | some pair =>
      obtain ⟨vs, hvs⟩ := hd.exists_hands hrun
      exact ⟨vs, .draw hvs hrun⟩
  | aside hx => exact ⟨[], .aside hx s⟩
  | look hsame hf ih =>
    obtain ⟨vs, hvs⟩ := ih s s
    exact ⟨vs, .look hvs⟩
  | @bind _ _ x f hx hf ihx ihf =>
    obtain ⟨vs, hvs⟩ := ihx s
    cases hrun : x s with
    | mk result s₁ =>
      cases result with
      | error e => exact ⟨vs, .stopped hvs hrun⟩
      | ok a =>
        obtain ⟨ws, hws⟩ := ihf a s₁
        exact ⟨vs ++ ws, .bind hvs hrun hws⟩

end Infer

/-! ### Drawn variables -/

namespace Context

variable {Γ : Context} {algorithm : Algorithm} {term : Term} {s : Session} {vs : List Nat}

/-- Once the context is reserved, the run is handed the listed indices. -/
def Hands (Γ : Context) (algorithm : Algorithm) (term : Term) (s : Session) (vs : List Nat) :
    Prop :=
  ∃ reserved, Γ.reserve s.supply = some ((), reserved) ∧
    match algorithm with
    | .w => Infer.Hands (Γ.typeBySubst term) { s with supply := reserved } vs
    | .j => Infer.Hands (Γ.typeByLinks term) { s with supply := reserved } vs

theorem exists_hands (algorithm : Algorithm) (term : Term) {reserved : Supply}
    (hreserve : Γ.reserve s.supply = some ((), reserved)) : ∃ vs, Γ.Hands algorithm term s vs := by
  cases algorithm with
  | w =>
    obtain ⟨vs, hvs⟩ := (freshOnly_typeBySubst term Γ).exists_hands { s with supply := reserved }
    exact ⟨vs, reserved, hreserve, hvs⟩
  | j =>
    obtain ⟨vs, hvs⟩ := (freshOnly_typeByLinks term Γ).exists_hands { s with supply := reserved }
    exact ⟨vs, reserved, hreserve, hvs⟩

/-- The drawn variables are what `Draw.fresh` returns in the run. -/
theorem Hands.drawn_iff (h : Γ.Hands algorithm term s vs) (hmode : s.supply.mode ≠ .shared)
    (v : Nat) :
    Γ.Drawn algorithm term s v ↔ v ∈ vs := by
  obtain ⟨reserved, hreserve, hvs⟩ := h
  have hmode' : reserved.mode ≠ .shared := (reserve_eq_some hreserve).1 ▸ hmode
  have hpasses : reserved.Passes (Γ.sessionAfter algorithm term s).supply vs := by
    rw [sessionAfter_eq hreserve]
    cases algorithm with
    | w => exact Infer.Hands.passes hvs hmode'
    | j => exact Infer.Hands.passes hvs hmode'
  rw [hpasses.indices, List.mem_range'_1, ← hpasses.next]
  constructor
  · rintro ⟨reserved', hreserve', hge, hlt⟩
    obtain ⟨-, rfl⟩ := Prod.mk.inj (Option.some.inj (hreserve.symm.trans hreserve'))
    exact ⟨hge, hlt⟩
  · rintro ⟨hge, hlt⟩
    exact ⟨reserved, hreserve, hge, hlt⟩

private theorem above?_strict (mode : Supply.Mode) (used : Nat) :
    mode.strict.above? used = mode.above? used := by
  cases mode <;> rfl

theorem reserve_strict (Γ : Context) (s : Session) :
    Γ.reserve s.strict.supply =
      (Γ.reserve s.supply).map fun pair =>
        (pair.1, { pair.2 with mode := s.supply.mode.strict }) := by
  rw [reserve]
  cases Γ.bodyVars.max? with
  | none => rfl
  | some used =>
    simp [Session.strict, Session.withMode, Draw.reserve, Supply.reserve, above?_strict,
      Function.comp_def]

/-- A shared supply that does not start again in the run is a strict one as far as the
drawn variables go. -/
theorem drawn_strict_iff
    (hrange : match algorithm with
      | .w => Infer.InRange (Γ.inferW term) s
      | .j => Infer.InRange (Γ.inferJ term) s) (v : Nat) :
    Γ.Drawn algorithm term s.strict v ↔ Γ.Drawn algorithm term s v := by
  have hnext : (Γ.sessionAfter algorithm term s).supply.next =
      (Γ.sessionAfter algorithm term s.strict).supply.next := by
    cases algorithm with
    | w => exact ((drawsOnly_inferW Γ term).run_strict hrange).2.1
    | j => exact ((drawsOnly_inferJ Γ term).run_strict hrange).2.1
  rw [Drawn, Drawn, reserve_strict, hnext]
  constructor
  · rintro ⟨_, hreserve, hge, hlt⟩
    obtain ⟨⟨_, reserved⟩, hreserve', hpair⟩ := Option.map_eq_some_iff.mp hreserve
    obtain ⟨-, rfl⟩ := Prod.mk.inj hpair
    exact ⟨reserved, hreserve', hge, hlt⟩
  · rintro ⟨reserved, hreserve, hge, hlt⟩
    exact ⟨{ reserved with mode := s.supply.mode.strict },
      Option.map_eq_some_iff.mpr ⟨_, hreserve, rfl⟩, hge, hlt⟩

end Context

end HindleyMilner
