import HindleyMilner.Supply.Pool
import Mathlib.Data.List.Pairwise

/-!
# Drawing through many handles

Whoever holds a handle to a shared supply can draw from it, reserve in it and make further handles,
and the requests of all holders arrive in some order. A list of requests is such an order, whichever
holder each of them comes from.

All handles lead to one counter, so every grant can be read off it (`Moves`): a draw hands out the
index at which the counter stands. This makes each drawn variable larger than all that was drawn or
reserved before, with one exception. The last index of the range is handed out like any other, and
then the counter stands at zero again. So the grants ascend exactly as long as nothing is drawn
after the last index (`serveAll_ascending_iff`).
-/

namespace HindleyMilner.Supply

/-- What the holder of a handle can ask for. -/
inductive Request where
  | fresh (handle : Nat)
  | reserve (handle used : Nat)
  | clone (handle : Nat)
  deriving DecidableEq, Repr

/-- What a request that is not refused brings. -/
inductive Grant where
  | drawn (v : Nat)
  | reserved (used : Nat)
  | cloned (handle : Nat)
  deriving DecidableEq, Repr

namespace Grant

def drawn? : Grant → Option Nat
  | drawn v => some v
  | _ => none

/-- The variable that is drawn or reserved. -/
def taken? : Grant → Option Nat
  | drawn v => some v
  | reserved used => some used
  | cloned _ => none

/-- If the later grant draws a variable, it is above what the earlier one has drawn or reserved. -/
def Below (earlier later : Grant) : Prop := ∀ w ∈ earlier.taken?, ∀ v ∈ later.drawn?, w < v

instance : DecidableRel Below :=
  fun earlier later => inferInstanceAs (Decidable (∀ w ∈ earlier.taken?, ∀ v ∈ later.drawn?, w < v))

private theorem taken?_of_drawn? {grant : Grant} {v : Nat} (hdrawn : grant.drawn? = some v) :
    grant.taken? = some v := by
  cases grant with
  | drawn w => exact hdrawn
  | reserved used => cases hdrawn
  | cloned handle => cases hdrawn

end Grant

/-- The variables drawn, in their order. -/
def draws (grants : List Grant) : List Nat := grants.filterMap Grant.drawn?

/-- Every variable drawn is above all that was drawn and all that was reserved before it. -/
def Ascending (grants : List Grant) : Prop := grants.Pairwise Grant.Below

instance (grants : List Grant) : Decidable (Ascending grants) :=
  inferInstanceAs (Decidable (grants.Pairwise Grant.Below))

namespace Pool

def serve (pool : Pool) : Request → Except Fault (Grant × Pool)
  | .fresh handle => (pool.fresh handle).map fun (v, pool) => (.drawn v, pool)
  | .reserve handle used => (pool.reserve handle used).map fun pool => (.reserved used, pool)
  | .clone handle => (pool.clone handle).map fun (handle, pool) => (.cloned handle, pool)

/-- Serves the requests in turn; none of them may be refused. -/
def serveAll (pool : Pool) : List Request → Except Fault (List Grant × Pool)
  | [] => .ok ([], pool)
  | request :: rest =>
    match pool.serve request with
    | .error fault => .error fault
    | .ok (grant, pool) => (pool.serveAll rest).map fun (grants, pool) => (grant :: grants, pool)

end Pool

/-! ### The counter behind the handles -/

/-- What a grant does to the counter of a shared supply. -/
inductive Moves : Nat → Grant → Nat → Prop
  | drawn (n : Nat) : Moves n (.drawn n) ((n + 1) % indexCount)
  | reserved {n used : Nat} (hused : used + 1 < indexCount) :
      Moves n (.reserved used) (max n (used + 1))
  | cloned (n handle : Nat) : Moves n (.cloned handle) n

/-- The grants of a counter that starts at the given index. -/
inductive Course : Nat → List Grant → Prop
  | nil (n : Nat) : Course n []
  | cons {n n' : Nat} {grant : Grant} {grants : List Grant} (hmoves : Moves n grant n')
      (hrest : Course n' grants) : Course n (grant :: grants)

namespace Pool

variable {pool pool' : Pool} {n : Nat} {grant : Grant} {request : Request}

/-- There is one supply, a shared one that stands at `n`, and every handle leads to it. -/
structure Shares (pool : Pool) (n : Nat) : Prop where
  supplies : pool.supplies = [⟨.shared, n⟩]
  handles : ∀ position ∈ pool.handles, position = 0

private theorem shares_single (n : Nat) : (single ⟨.shared, n⟩).Shares n := ⟨rfl, by simp [single]⟩

namespace Shares

theorem exists_of_handle (h : pool.Shares n) (handle : Nat) :
    pool.handles[handle]? = none ∨ pool.handles[handle]? = some 0 ∧
      pool.supply? handle = some ⟨.shared, n⟩ := by
  cases hposition : pool.handles[handle]? with
  | none => exact .inl rfl
  | some position =>
    have hzero : position = 0 := h.handles position (List.mem_of_getElem? hposition)
    subst hzero
    exact .inr ⟨rfl, by simp [supply?, hposition, h.supplies]⟩

theorem put (h : pool.Shares n) {handle : Nat} (hhandle : pool.handles[handle]? = some 0)
    (n' : Nat) : (pool.put handle ⟨.shared, n'⟩).Shares n' := by
  rw [Pool.put, hhandle]
  exact ⟨by simp [h.supplies], h.handles⟩

theorem serve (h : pool.Shares n) (hserve : pool.serve request = .ok (grant, pool')) :
    ∃ n', Moves n grant n' ∧ pool'.Shares n' := by
  cases request with
  | fresh handle =>
    rcases h.exists_of_handle handle with hnone | ⟨hhandle, hsupply⟩
    · simp [Pool.serve, Pool.fresh, supply?, hnone, Except.map] at hserve
    · simp only [Pool.serve, Pool.fresh, hsupply, Supply.fresh, Mode.succ?, Option.map_some,
        Except.map] at hserve
      cases hserve
      exact ⟨_, .drawn n, h.put hhandle _⟩
  | reserve handle used =>
    rcases h.exists_of_handle handle with hnone | ⟨hhandle, hsupply⟩
    · simp [Pool.serve, Pool.reserve, supply?, hnone, Except.map] at hserve
    · by_cases hused : used + 1 < indexCount
      · simp only [Pool.serve, Pool.reserve, hsupply, Supply.reserve, Mode.above?, if_pos hused,
          Option.map_some, Except.map] at hserve
        cases hserve
        exact ⟨_, .reserved hused, h.put hhandle _⟩
      · simp [Pool.serve, Pool.reserve, hsupply, Supply.reserve, Mode.above?, hused,
          Except.map] at hserve
  | clone handle =>
    rcases h.exists_of_handle handle with hnone | ⟨hhandle, hsupply⟩
    · simp [Pool.serve, Pool.clone, hnone, Except.map] at hserve
    · simp only [Pool.serve, Pool.clone, hhandle, hsupply, Except.map] at hserve
      cases hserve
      refine ⟨n, .cloned n _, h.supplies, fun position hposition => ?_⟩
      rcases List.mem_append.mp hposition with hold | hnew
      · exact h.handles position hold
      · exact List.mem_singleton.mp hnew

theorem serveAll {requests : List Request} {grants : List Grant} (h : pool.Shares n)
    (hserve : pool.serveAll requests = .ok (grants, pool')) :
    Course n grants := by
  induction requests generalizing pool n grants with
  | nil =>
    cases hserve
    exact .nil n
  | cons request rest ih =>
    rw [Pool.serveAll] at hserve
    cases hfirst : pool.serve request with
    | error fault => simp [hfirst] at hserve
    | ok served =>
      obtain ⟨grant, pool₁⟩ := served
      obtain ⟨n₁, hmoves, h₁⟩ := h.serve hfirst
      cases hlater : pool₁.serveAll rest with
      | error fault => simp [hfirst, hlater, Except.map] at hserve
      | ok served =>
        simp only [hfirst, hlater, Except.map] at hserve
        cases hserve
        exact .cons hmoves (ih h₁ hlater)

end Shares

end Pool

/-! ### When the grants ascend -/

/-- The last index of the range. -/
def lastIndex : Nat := indexCount - 1

private theorem mem_draws {grants : List Grant} {v : Nat} :
    v ∈ draws grants ↔ ∃ grant ∈ grants, grant.drawn? = some v :=
  List.mem_filterMap

private theorem ascending_cons {grant : Grant} {grants : List Grant} :
    Ascending (grant :: grants) ↔ (∀ w ∈ grant.taken?, ∀ v ∈ draws grants, w < v) ∧
      Ascending grants := by
  rw [Ascending, List.pairwise_cons]
  apply and_congr_left
  intro _
  constructor
  · intro hbelow w hw v hv
    obtain ⟨later, hlater, hdrawn⟩ := mem_draws.mp hv
    exact hbelow later hlater w hw v hdrawn
  · intro habove later hlater w hw v hdrawn
    exact habove w hw v (mem_draws.mpr ⟨later, hlater, hdrawn⟩)

private theorem Ascending.pairwise_draws {grants : List Grant} (h : Ascending grants) :
    (draws grants).Pairwise (· < ·) := by
  apply List.Pairwise.filterMap Grant.drawn? _ h
  intro earlier later hbelow w hw v hv
  exact hbelow w (Grant.taken?_of_drawn? hw) v hv

private theorem Moves.lt_indexCount {n n' : Nat} {grant : Grant} (h : Moves n grant n')
    (hn : n < indexCount) : n' < indexCount := by
  cases h with
  | drawn => exact Nat.mod_lt _ (by decide)
  | reserved hused => omega
  | cloned => exact hn

namespace Course

variable {n : Nat} {grants : List Grant}

private theorem draws_lt (h : Course n grants) (hn : n < indexCount) :
    ∀ v ∈ draws grants, v < indexCount := by
  induction h with
  | nil n => simp [draws]
  | cons hmoves hrest ih =>
    have hlater := ih (hmoves.lt_indexCount hn)
    cases hmoves with
    | drawn => simpa [draws, Grant.drawn?, hn] using hlater
    | reserved hused => exact hlater
    | cloned => exact hlater

/-- As long as nothing is drawn after the last index, the counter only goes up, and everything is
drawn at or above it. -/
theorem ascending (h : Course n grants) (hn : n < indexCount)
    (hlast : lastIndex ∉ (draws grants).dropLast) :
    (∀ v ∈ draws grants, n ≤ v) ∧ Ascending grants := by
  induction h with
  | nil n => simp [draws, Ascending]
  | @cons n n' grant grants hmoves hrest ih =>
    have hn' := hmoves.lt_indexCount hn
    cases hmoves with
    | drawn =>
      have hdraws : draws (.drawn n :: grants) = n :: draws grants := rfl
      rw [hdraws] at hlast ⊢
      by_cases hnone : draws grants = []
      · have hrest' : Ascending grants := (ih hn' (by simp [hnone])).2
        simp [hnone, ascending_cons, hrest']
      · -- Something is drawn later, so this was not the last index and the counter goes on
        -- to the next.
        rw [List.dropLast_cons_of_ne_nil hnone, List.mem_cons, not_or] at hlast
        have hnext : n + 1 < indexCount := by
          have := hlast.1
          rw [lastIndex] at this
          omega
        rw [Nat.mod_eq_of_lt hnext] at ih
        obtain ⟨hge, hascending⟩ := ih hnext hlast.2
        refine ⟨fun v hv => ?_, ascending_cons.mpr ⟨fun w hw v hv => ?_, hascending⟩⟩
        · rcases List.mem_cons.mp hv with rfl | hv
          · exact Nat.le_refl v
          · exact Nat.le_of_succ_le (hge v hv)
        · cases hw
          exact hge v hv
    | reserved hused =>
      obtain ⟨hge, hascending⟩ := ih hn' hlast
      refine ⟨fun v hv => ?_, ascending_cons.mpr ⟨fun w hw v hv => ?_, hascending⟩⟩
      · have := hge v hv
        omega
      · cases hw
        have := hge v hv
        omega
    | cloned =>
      obtain ⟨hge, hascending⟩ := ih hn' hlast
      exact ⟨hge, ascending_cons.mpr ⟨by simp [Grant.taken?], hascending⟩⟩

theorem not_mem_dropLast (h : Course n grants) (hn : n < indexCount)
    (hascending : Ascending grants) : lastIndex ∉ (draws grants).dropLast := by
  intro hmem
  have hne : draws grants ≠ [] := by
    intro hnil
    simp [hnil] at hmem
  have hpairwise := hascending.pairwise_draws
  rw [← List.dropLast_concat_getLast hne, List.pairwise_append] at hpairwise
  have hlt := hpairwise.2.2 lastIndex hmem _ (List.mem_singleton_self _)
  have hbound := h.draws_lt hn _ (List.getLast_mem hne)
  rw [lastIndex] at hlt
  omega

end Course

namespace Pool

/-- Through any handles to one shared supply and in any order: the variables drawn ascend above all
that was drawn or reserved before, and are thus all different, exactly if none is drawn after the
last index of the range. -/
theorem serveAll_ascending_iff {requests : List Request} {grants : List Grant} {pool : Pool}
    (hserve : (single ⟨.shared, 0⟩).serveAll requests = .ok (grants, pool)) :
    (Ascending grants ↔ lastIndex ∉ (draws grants).dropLast) ∧
      (Ascending grants → (draws grants).Nodup) := by
  have hcourse : Course 0 grants := (shares_single 0).serveAll hserve
  have hzero : 0 < indexCount := by decide
  refine ⟨⟨hcourse.not_mem_dropLast hzero, fun hlast => (hcourse.ascending hzero hlast).2⟩,
    fun hascending => ?_⟩
  exact hascending.pairwise_draws.imp Nat.ne_of_lt

/-- One holder draws, hands out a second handle and draws again after all but the last index were
reserved through it. -/
def toTheEnd : List Request := [.fresh 0, .clone 0, .reserve 1 (lastIndex - 1), .fresh 0]

theorem serveAll_ascending_iff_toTheEnd :
    ∃ pool, (single ⟨.shared, 0⟩).serveAll toTheEnd =
      .ok ([.drawn 0, .cloned 1, .reserved (lastIndex - 1), .drawn lastIndex], pool) ∧
      Ascending [.drawn 0, .cloned 1, .reserved (lastIndex - 1), .drawn lastIndex] ∧
        (draws [.drawn 0, .cloned 1, .reserved (lastIndex - 1), .drawn lastIndex]).Nodup := by
  have hserve : (single ⟨.shared, 0⟩).serveAll toTheEnd =
      .ok ([.drawn 0, .cloned 1, .reserved (lastIndex - 1), .drawn lastIndex], _) := rfl
  obtain ⟨hiff, hnodup⟩ := serveAll_ascending_iff hserve
  have hascending := hiff.mpr (by decide)
  exact ⟨_, hserve, hascending, hnodup hascending⟩

/-- One more draw, through the other handle, gives out the first variable again. -/
theorem serveAll_draws_again :
    ∃ grants pool, (single ⟨.shared, 0⟩).serveAll (toTheEnd ++ [.fresh 1]) = .ok (grants, pool) ∧
      draws grants = [0, lastIndex, 0] ∧
      ¬ Ascending grants ∧ ¬ (draws grants).Nodup := by
  refine ⟨[.drawn 0, .cloned 1, .reserved (lastIndex - 1), .drawn lastIndex, .drawn 0], _, rfl, rfl,
    ?_, ?_⟩
  · decide
  · decide

end Pool

end HindleyMilner.Supply
