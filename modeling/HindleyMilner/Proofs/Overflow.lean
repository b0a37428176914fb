import HindleyMilner.Proofs.Reservation

/-!
# Counting in 64 bits

An owned supply counts as an unbounded one does until it would leave the range, and there it stops.
For a whole run this says that the supply is exhausted exactly if the same run on an unbounded
supply ends past the range, wherever on the way the range is left: when the context is reserved, at
a fresh variable, or among the binders of a scheme. A type error that comes first ends both runs
before that. In every other case the two runs are the same (`Infer.Exact`).

That a run which an owned supply survives is the same on an unbounded one is known from `Counting`.
What remains is that the unbounded run passes the end of the range where the owned one stops, and
that it never goes back.
-/

namespace HindleyMilner

open Supply (indexCount)

namespace Draw.DrawsOnly

variable {α : Type} {d : Draw α} {a : α} {n : Nat} {s : Supply}

private theorem le_of_unbounded (h : DrawsOnly d) (hdraw : d ⟨.unbounded, n⟩ = some (a, s)) :
    s.mode = .unbounded ∧ n ≤ s.next := by
  induction h generalizing n s with
  | pure a =>
    cases hdraw
    simp
  | fresh =>
    cases hdraw
    simp
  | reserve used =>
    cases hdraw
    simp
  | bind hd hf ihd ihf =>
    obtain ⟨⟨b, mode, m⟩, hfirst, hrest⟩ := Option.bind_eq_some_iff.mp hdraw
    obtain ⟨hmode, hle⟩ := ihd hfirst
    obtain rfl : mode = .unbounded := hmode
    obtain ⟨hmode', hle'⟩ := ihf b hrest
    exact ⟨hmode', Nat.le_trans hle hle'⟩

theorem le_of_owned_eq_none (h : DrawsOnly d) (hnone : d ⟨.owned, n⟩ = none)
    (hdraw : d ⟨.unbounded, n⟩ = some (a, s)) : indexCount ≤ s.next := by
  induction h generalizing n s with
  | pure a => cases hnone
  | fresh =>
    cases hdraw
    by_contra hlt
    have hlt' : n + 1 < indexCount := Nat.lt_of_not_le hlt
    simp [Draw.fresh, Supply.fresh, Supply.Mode.succ?, hlt'] at hnone
  | reserve used =>
    cases hdraw
    by_contra hlt
    have hmax : max n (used + 1) < indexCount := Nat.lt_of_not_le hlt
    have hlt' : used + 1 < indexCount := by omega
    simp [Draw.reserve, Supply.reserve, Supply.Mode.above?, hlt'] at hnone
  | @bind _ _ d f hd hf ihd ihf =>
    obtain ⟨⟨b, mode, m⟩, hfirst, hrest⟩ := Option.bind_eq_some_iff.mp hdraw
    obtain rfl : mode = .unbounded := (hd.le_of_unbounded hfirst).1
    cases howned : d ⟨.owned, n⟩ with
    | none =>
      have hm : indexCount ≤ m := ihd howned hfirst
      have hle : m ≤ s.next := ((hf b).le_of_unbounded hrest).2
      omega
    | some drawn =>
      obtain ⟨c, mode, k⟩ := drawn
      obtain ⟨hmode, hsame⟩ := hd.eq_some_of_owned howned .unbounded
      obtain rfl : mode = .owned := hmode
      obtain ⟨rfl, rfl⟩ : b = c ∧ m = k := by simpa using hfirst.symm.trans hsame
      have hstop : f b ⟨.owned, m⟩ = none := by
        have hbind : (d ⟨.owned, n⟩ >>= fun drawn => f drawn.1 drawn.2) = none := hnone
        rwa [howned] at hbind
      exact ihf b hstop hrest

end Draw.DrawsOnly

namespace Infer

namespace DrawsOnly

variable {α : Type} {x : Infer α} {s : Session}

private theorem le_of_unbounded (h : DrawsOnly x) (hmode : s.supply.mode = .unbounded) :
    s.supply.next ≤ (x s).2.supply.next := by
  induction h generalizing s with
  | @draw _ d hd =>
    obtain ⟨⟨_, n⟩, forest, events⟩ := s
    obtain rfl : _ = Supply.Mode.unbounded := hmode
    obtain ⟨a, m, hdraw⟩ := hd.exists_eq_some_of_unbounded n
    rw [draw_apply, hdraw]
    exact (hd.le_of_unbounded hdraw).2
  | aside hx => rw [hx.supply_eq]
  | look hsame hf ih =>
    rw [bind_apply, get_apply]
    exact ih s hmode
  | @bind _ _ x f hx hf ihx ihf =>
    have hfirst := ihx hmode
    have hmode₁ := (hx.ne_exhausted_of_unbounded hmode).2
    rw [bind_apply]
    cases hrun : x s with
    | mk result s₁ =>
      rw [hrun] at hfirst hmode₁
      cases result with
      | error failure => exact hfirst
      | ok a => exact Nat.le_trans hfirst (ihf a hmode₁)

theorem le_of_exhausted (h : DrawsOnly x) (howned : s.supply.mode = .owned)
    (hexhausted : (x s).1 = .error .exhausted) :
    indexCount ≤ (x (s.withMode .unbounded)).2.supply.next := by
  induction h generalizing s with
  | @draw _ d hd =>
    obtain ⟨⟨_, n⟩, forest, events⟩ := s
    obtain rfl : _ = Supply.Mode.owned := howned
    obtain ⟨a, m, hdraw⟩ := hd.exists_eq_some_of_unbounded n
    have hnone : d ⟨.owned, n⟩ = none := by
      rw [draw_apply] at hexhausted
      cases hrun : d ⟨.owned, n⟩ with
      | none => rfl
      | some drawn => simp [hrun] at hexhausted
    have hpast : indexCount ≤ m := hd.le_of_owned_eq_none hnone hdraw
    rw [draw_apply]
    simpa [Session.withMode, hdraw] using hpast
  | aside hx => exact absurd hexhausted (hx.ne_exhausted s)
  | @look _ f hsame hf ih =>
    have hgo : ∀ s, (get >>= f) s = f s s := fun s => by rw [bind_apply, get_apply]
    have hswitch : f (s.withMode .unbounded) = f s := hsame s _
    rw [hgo] at hexhausted ⊢
    rw [hswitch]
    exact ih s howned hexhausted
  | @bind _ _ x f hx hf ihx ihf =>
    have hmode := (hx.ne_exhausted_of_unbounded (s := s.withMode .unbounded) rfl).2
    rw [bind_apply] at hexhausted ⊢
    by_cases hfirst : (x s).1 = .error .exhausted
    · -- The first part stops; the rest of the unbounded run only counts on.
      have hpast := ihx howned hfirst
      cases hrun : x (s.withMode .unbounded) with
      | mk result s₁ =>
        rw [hrun] at hpast hmode
        cases result with
        | error failure => exact hpast
        | ok a => exact Nat.le_trans hpast ((hf a).le_of_unbounded hmode)
    · obtain ⟨howned₁, hsame⟩ := hx.run_withMode howned hfirst .unbounded
      rw [hsame]
      cases hrun : x s with
      | mk result s₁ =>
        rw [hrun] at hexhausted hfirst howned₁
        cases result with
        | error failure => exact absurd (congrArg Except.error (Except.error.inj hexhausted)) hfirst
        | ok a => exact ihf a howned₁ hexhausted

end DrawsOnly

/-- How a run in 64 bits compares with the same run on an unbounded supply. -/
structure Exact {α : Type} (x : Infer α) (s : Session) : Prop where
  /-- The unbounded run ends in a result or in a type error. -/
  ends : (x (s.withMode .unbounded)).1 ≠ .error .exhausted
  exhausted_iff : (x s).1 = .error .exhausted ↔
    indexCount ≤ (x (s.withMode .unbounded)).2.supply.next
  /-- Results, errors, forests, events and counters are the same. -/
  same : (x s).1 ≠ .error .exhausted →
    x (s.withMode .unbounded) = ((x s).1, (x s).2.withMode .unbounded)
  /-- The counter is never moved back, and it stays in the range. -/
  counter : s.supply.next ≤ (x s).2.supply.next ∧ (x s).2.supply.next < indexCount

theorem DrawsOnly.exact {α : Type} {x : Infer α} {s : Session} (h : DrawsOnly x)
    (howned : s.supply.mode = .owned) (hrange : s.supply.next < indexCount) :
    Exact x s := by
  have hadvances := h.advances howned
  have hcounter : (x s).2.supply.next < indexCount := by
    have := hadvances.held
    omega
  have hsame := fun hsupply => (h.run_withMode howned hsupply .unbounded).2
  have hiff : (x s).1 = .error .exhausted ↔
      indexCount ≤ (x (s.withMode .unbounded)).2.supply.next := by
    constructor
    · exact h.le_of_exhausted howned
    · intro hpast
      by_contra hsupply
      rw [hsame hsupply] at hpast
      have hpast' : indexCount ≤ (x s).2.supply.next := hpast
      omega
  exact ⟨(h.ne_exhausted_of_unbounded rfl).1, hiff, hsame, hadvances.le, hcounter⟩

/-- However the run ends, an unbounded supply counts at least as far. -/
theorem Exact.next_le {α : Type} {x : Infer α} {s : Session} (h : Exact x s) :
    (x s).2.supply.next ≤ (x (s.withMode .unbounded)).2.supply.next := by
  by_cases hexhausted : (x s).1 = .error .exhausted
  · have hpast := h.exhausted_iff.mp hexhausted
    have hcounter := h.counter.2
    omega
  · rw [h.same hexhausted]
    exact Nat.le_refl _

end Infer

namespace Context

variable {Γ : Context} {algorithm : Algorithm} {term : Term} {s : Session} {v : Nat}

theorem Drawn.withMode_unbounded (h : Γ.Drawn algorithm term s v) (howned : s.supply.mode = .owned)
    (hrange : s.supply.next < indexCount) :
    Γ.Drawn algorithm term (s.withMode .unbounded) v := by
  obtain ⟨reserved, hreserve, hge, hlt⟩ := h
  obtain ⟨⟨mode, n⟩, forest, events⟩ := s
  obtain rfl : mode = .owned := howned
  have hreserve' := ((Draw.DrawsOnly.reserveContext Γ).eq_some_of_owned hreserve .unbounded).2
  refine ⟨_, hreserve', hge, Nat.lt_of_lt_of_le hlt ?_⟩
  cases algorithm with
  | w => exact ((drawsOnly_inferW Γ term).exact rfl hrange).next_le
  | j => exact ((drawsOnly_inferJ Γ term).exact rfl hrange).next_le

/-- Both algorithms are exact or exhausted in 64 bits, from any forest. What they draw from an owned
supply, be it exhausted in the end or not, is at or above where the supply stood, in the range, and
drawn by the unbounded run too: no index wraps. -/
theorem infer_exact (Γ : Context) (term : Term) (howned : s.supply.mode = .owned)
    (hrange : s.supply.next < indexCount) :
    (Γ.inferW term).Exact s ∧ (Γ.inferJ term).Exact s ∧
      ∀ algorithm v, Γ.Drawn algorithm term s v → s.supply.next ≤ v ∧ v + 1 < indexCount ∧
        Γ.Drawn algorithm term (s.withMode .unbounded) v := by
  refine ⟨(drawsOnly_inferW Γ term).exact howned hrange,
    (drawsOnly_inferJ Γ term).exact howned hrange, fun algorithm v hdrawn => ?_⟩
  have habove : s.supply.next ≤ v := by
    obtain ⟨reserved, hreserve, hge, -⟩ := hdrawn
    exact Nat.le_trans (reserve_eq_some hreserve).2.1 hge
  exact ⟨habove, hdrawn.succ_lt howned, hdrawn.withMode_unbounded howned hrange⟩

/-- The scheme of `k` has two binders. -/
def constant : Context :=
  .ofList [("k", ⟨VarSet.ofList [0, 1], .fn (.var 0) (.fn (.var 1) (.var 0))⟩)]

/-- Takes three variables: two for the binders and one for the result. -/
def halfApplied : Term := .app (.var "k") (.int 1)

/-- With three indices left the run stops at the third, and with four it goes through. -/
theorem infer_exact_constant :
    (constant.inferJ halfApplied { supply := ⟨.owned, indexCount - 3⟩ }).1 = .error .exhausted ∧
      indexCount ≤
        (constant.inferJ halfApplied { supply := ⟨.unbounded, indexCount - 3⟩ }).2.supply.next ∧
      (constant.inferJ halfApplied { supply := ⟨.owned, indexCount - 4⟩ }).1 =
        .ok (.fn (.var (indexCount - 3)) (.var (indexCount - 4))) ∧
      (constant.inferJ halfApplied { supply := ⟨.unbounded, indexCount - 4⟩ }).1 =
        (constant.inferJ halfApplied { supply := ⟨.owned, indexCount - 4⟩ }).1 := by
  have hstops :=
    (infer_exact constant halfApplied (s := { supply := ⟨.owned, indexCount - 3⟩ }) rfl
      (by decide)).2.1
  have hfits :=
    (infer_exact constant halfApplied (s := { supply := ⟨.owned, indexCount - 4⟩ }) rfl
      (by decide)).2.1
  have hexhausted : (constant.inferJ halfApplied { supply := ⟨.owned, indexCount - 3⟩ }).1 =
      .error .exhausted := by
    decide +kernel
  have hresult : (constant.inferJ halfApplied { supply := ⟨.owned, indexCount - 4⟩ }).1 =
      .ok (.fn (.var (indexCount - 3)) (.var (indexCount - 4))) := by
    decide +kernel
  have hsame := congrArg Prod.fst (hfits.same (by simp [hresult]))
  exact ⟨hexhausted, hstops.exhausted_iff.mp hexhausted, hresult, hsame⟩

end Context

end HindleyMilner
