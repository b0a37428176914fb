import HindleyMilner.Context
import HindleyMilner.Proofs.Substitution

/-!
# Drawing variables

A supply that is not shared hands out consecutive indices, so what an operation draws can be read
off the index it starts from: one index for a fresh variable, one for each binder of a scheme that
is instantiated. Instantiating a scheme therefore amounts to renaming its binders to the next
indices in ascending order, which `Scheme.opened` writes down. A shared supply is left out because
it starts again at zero.
-/

namespace HindleyMilner

namespace Supply

theorem fresh_eq_some {s s' : Supply} {v : Nat} (hmode : s.mode ≠ .shared)
    (hfresh : s.fresh = some (v, s')) :
    v = s.next ∧ s' = { s with next := s.next + 1 } := by
  obtain ⟨mode, next⟩ := s
  cases mode with
  | owned =>
    simp only [fresh, Mode.succ?, Option.map_eq_some_iff, Prod.mk.injEq] at hfresh
    obtain ⟨next', hnext, rfl, rfl⟩ := hfresh
    split at hnext
    · cases hnext
      exact ⟨rfl, rfl⟩
    · cases hnext
  | shared => exact absurd rfl hmode
  | unbounded =>
    cases hfresh
    exact ⟨rfl, rfl⟩

theorem reserve_eq_some {s s' : Supply} {used : Nat} (hreserve : s.reserve used = some s') :
    s' = { s with next := max s.next (used + 1) } := by
  have habove : ∀ mode : Mode, ∀ least, mode.above? used = some least → least = used + 1 := by
    intro mode least hleast
    cases mode with
    | unbounded => exact (Option.some.inj hleast).symm
    | _ =>
      simp only [Mode.above?] at hleast
      split at hleast
      · exact (Option.some.inj hleast).symm
      · cases hleast
  obtain ⟨least, hleast, rfl⟩ := Option.map_eq_some_iff.mp hreserve
  rw [habove _ _ hleast]

end Supply

namespace Draw

private theorem freshFor_eq_some {vs : List Nat} {s s' : Supply} {pairs : List (Nat × Nat)}
    (hmode : s.mode ≠ .shared) (hdraw : freshFor vs s = some (pairs, s')) :
    pairs = vs.zipIdx s.next ∧ s' = { s with next := s.next + vs.length } := by
  induction vs generalizing s s' pairs with
  | nil =>
    cases hdraw
    exact ⟨rfl, rfl⟩
  | cons v rest ih =>
    obtain ⟨⟨w, s₁⟩, hfresh, hrest⟩ := Option.bind_eq_some_iff.mp hdraw
    obtain ⟨⟨others, s₂⟩, hothers, hpure⟩ := Option.bind_eq_some_iff.mp hrest
    cases hpure
    obtain ⟨rfl, rfl⟩ := Supply.fresh_eq_some hmode hfresh
    have hmode' : ({ s with next := s.next + 1 } : Supply).mode ≠ .shared := hmode
    obtain ⟨rfl, rfl⟩ := ih hmode' hothers
    refine ⟨by rw [List.zipIdx_cons], ?_⟩
    rw [List.length_cons, Nat.add_right_comm, Nat.add_assoc]

end Draw

/-! ### Instantiation -/

namespace VarSet

variable {vs : VarSet} {v i j : Nat}

theorem getD_idxOf (hv : v ∈ vs) : vs.toList.getD (vs.toList.idxOf v) 0 = v := by
  have hlt : vs.toList.idxOf v < vs.toList.length := List.idxOf_lt_length_of_mem hv
  rw [List.getD_eq_getElem?_getD, List.getElem?_eq_getElem hlt, Option.getD_some,
    List.getElem_idxOf]

theorem getD_mem (hi : i < vs.size) : vs.toList.getD i 0 ∈ vs := by
  have hlt : i < vs.toList.length := hi
  rw [List.getD_eq_getElem?_getD, List.getElem?_eq_getElem hlt, Option.getD_some]
  exact List.getElem_mem hlt

theorem getD_inj (hi : i < vs.size) (hj : j < vs.size)
    (heq : vs.toList.getD i 0 = vs.toList.getD j 0) : i = j := by
  have hnodup : vs.toList.Nodup := vs.ascending.imp Nat.ne_of_lt
  rw [List.getD_eq_getElem?_getD, List.getD_eq_getElem?_getD, List.getElem?_eq_getElem hi,
    List.getElem?_eq_getElem hj] at heq
  exact (List.getElem_inj hnodup).mp heq

end VarSet

namespace Scheme

/-- The body with the binders renamed to the indices from `n` on, in ascending order. -/
def opened (σ : Scheme) (n : Nat) : Ty :=
  σ.body.rename fun v => if v ∈ σ.binders then n + σ.binders.toList.idxOf v else v

private theorem zipIdx_eq_map {vs : List Nat} (hnodup : vs.Nodup) (n : Nat) :
    vs.zipIdx n = vs.map fun v => (v, n + vs.idxOf v) := by
  induction vs generalizing n with
  | nil => rfl
  | cons v rest ih =>
    obtain ⟨hnew, hrest⟩ := List.nodup_cons.mp hnodup
    rw [List.zipIdx_cons, List.map_cons, ih hrest, List.idxOf_cons_self, Nat.add_zero]
    refine congrArg _ (List.map_congr_left fun w hw => ?_)
    have hne : v ≠ w := fun heq => hnew (heq ▸ hw)
    rw [List.idxOf_cons, beq_false_of_ne hne, cond_false, Nat.add_right_comm, Nat.add_assoc]

theorem instantiate_eq_some {σ : Scheme} {s s' : Supply} {t : Ty} (hmode : s.mode ≠ .shared)
    (hdraw : σ.instantiate s = some (t, s')) :
    t = σ.opened s.next ∧ s' = { s with next := s.next + σ.binders.size } := by
  obtain ⟨⟨pairs, s₁⟩, hpairs, hpure⟩ := Option.bind_eq_some_iff.mp hdraw
  cases hpure
  obtain ⟨rfl, rfl⟩ := Draw.freshFor_eq_some hmode hpairs
  refine ⟨?_, rfl⟩
  have hnodup : σ.binders.toList.Nodup := σ.binders.ascending.imp Nat.ne_of_lt
  have htable :
      OrderedMap.ofList ((σ.binders.toList.zipIdx s.next).map fun pair => (pair.1, Ty.var pair.2)) =
      Subst.tabulate σ.binders.toList fun v => .var (s.next + σ.binders.toList.idxOf v) := by
    rw [zipIdx_eq_map hnodup, List.map_map]
    rfl
  rw [htable]
  refine Ty.bind_congr fun v _ => ?_
  rw [Subst.image_tabulate]
  dsimp only
  by_cases hv : v ∈ σ.binders
  · rw [if_pos (VarSet.mem_toList.mpr hv), if_pos hv]
  · rw [if_neg fun hin => hv (VarSet.mem_toList.mp hin), if_neg hv]

end Scheme

/-! ### Reserving -/

theorem Context.reserve_eq_some {Γ : Context} {s s' : Supply}
    (hreserve : Γ.reserve s = some ((), s')) :
    s'.mode = s.mode ∧ s.next ≤ s'.next ∧ ∀ v ∈ Γ.bodyVars, v < s'.next := by
  rw [Context.reserve] at hreserve
  cases hmax : Γ.bodyVars.max? with
  | none =>
    rw [hmax] at hreserve
    cases hreserve
    exact ⟨rfl, Nat.le_refl _, fun v hv => absurd hv (VarSet.max?_eq_none_iff.mp hmax v)⟩
  | some used =>
    rw [hmax] at hreserve
    obtain ⟨s₁, hs₁, hpair⟩ := Option.map_eq_some_iff.mp hreserve
    cases hpair
    rw [Supply.reserve_eq_some hs₁]
    refine ⟨rfl, Nat.le_max_left _ _, fun v hv => ?_⟩
    have hle := VarSet.le_of_max?_eq_some hmax hv
    exact Nat.lt_of_lt_of_le (Nat.lt_succ_of_le hle) (Nat.le_max_right _ _)

end HindleyMilner
