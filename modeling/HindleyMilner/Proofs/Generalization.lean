import HindleyMilner.Proofs.Canonical
import HindleyMilner.Proofs.Instantiation

/-!
# Generalizing and instantiating

Instantiating what a context generalizes gives the type back under other names. The variables that
the context knows keep their names, and every other variable gets a new one. When the supply is
above all of them no new name meets an old one, so that the renaming tells the variables of the type
apart and the canonical form stays the same (`Context.instantiate_generalize`).

An owned supply has room for a variable per binder exactly if the index after the last of them
can still be held.
-/

namespace HindleyMilner

open Supply (indexCount)

/-! ### Room for the binders -/

private theorem Draw.freshFor_owned_eq_none_iff (vs : List Nat) {n : Nat} (hn : n < indexCount) :
    freshFor vs ⟨.owned, n⟩ = none ↔ indexCount ≤ n + vs.length := by
  induction vs generalizing n with
  | nil =>
    show some _ = none ↔ _
    simp only [reduceCtorEq, List.length_nil, Nat.add_zero, false_iff]
    omega
  | cons v rest ih =>
    show (Supply.fresh ⟨.owned, n⟩).bind _ = none ↔ _
    by_cases hlt : n + 1 < indexCount
    · have hfresh : Supply.fresh ⟨.owned, n⟩ = some (n, ⟨.owned, n + 1⟩) := by
        simp [Supply.fresh, Supply.Mode.succ?, hlt]
      have hrest :
          (freshFor rest ⟨.owned, n + 1⟩ >>= fun drawn => some ((v, n) :: drawn.1, drawn.2)) =
          none ↔ freshFor rest ⟨.owned, n + 1⟩ = none := by
        cases freshFor rest ⟨.owned, n + 1⟩ <;> simp
      rw [hfresh, List.length_cons, ← Nat.add_assoc, Nat.add_right_comm, ← ih hlt, ← hrest]
      rfl
    · have hfresh : Supply.fresh ⟨.owned, n⟩ = none := by
        simp [Supply.fresh, Supply.Mode.succ?, hlt]
      simp only [hfresh, Option.bind_none, List.length_cons, true_iff]
      omega

namespace Scheme

variable {σ : Scheme} {n v : Nat}

theorem instantiate_owned_eq_none_iff (σ : Scheme) (hn : n < indexCount) :
    σ.instantiate ⟨.owned, n⟩ = none ↔ indexCount ≤ n + σ.binders.size := by
  have hdraws := σ.map_snd_instantiate ⟨.owned, n⟩
  rw [← Option.map_eq_none_iff (f := Prod.snd), hdraws, Option.map_eq_none_iff,
    Draw.freshFor_owned_eq_none_iff _ hn]
  rfl

theorem instantiate_owned (σ : Scheme) (hroom : n + σ.binders.size < indexCount) :
    σ.instantiate ⟨.owned, n⟩ = some (σ.opened n, ⟨.owned, n + σ.binders.size⟩) := by
  have hn : n < indexCount := by omega
  cases hdraw : σ.instantiate ⟨.owned, n⟩ with
  | none =>
    have := (σ.instantiate_owned_eq_none_iff hn).mp hdraw
    omega
  | some drawn =>
    obtain ⟨ht, hs⟩ := instantiate_eq_some (by simp) hdraw
    rw [← ht, ← hs]

/-! ### The renaming -/

theorem drawn_getD {i : Nat} (hi : i < σ.binders.size) :
    σ.drawn n (σ.binders.toList.getD i 0) = n + i := by
  have hmem : σ.binders.toList.getD i 0 ∈ σ.binders := VarSet.getD_mem hi
  have hlt : σ.binders.toList.idxOf (σ.binders.toList.getD i 0) < σ.binders.size :=
    List.idxOf_lt_length_of_mem hmem
  rw [drawn, if_pos hmem, VarSet.getD_inj hlt hi (VarSet.getD_idxOf hmem)]

theorem drawn_of_not_mem (hv : v ∉ σ.binders) : σ.drawn n v = v := if_neg hv

theorem le_drawn (hv : v ∈ σ.binders) : n ≤ σ.drawn n v := by simp [drawn, hv]

/-- New names above all old ones are told apart from them and from each other. -/
theorem injOn_drawn (σ : Scheme) (n : Nat) : Set.InjOn (σ.drawn n) {v | v < n} := by
  intro v hv w hw heq
  have hvn : v < n := hv
  have hwn : w < n := hw
  by_cases hvmem : v ∈ σ.binders <;> by_cases hwmem :
    w ∈ σ.binders <;> simp only [drawn, hvmem, hwmem, if_true, if_false] at heq
  · have hidx : σ.binders.toList.idxOf v = σ.binders.toList.idxOf w := by omega
    rw [← VarSet.getD_idxOf hvmem, ← VarSet.getD_idxOf hwmem, hidx]
  · omega
  · omega
  · exact heq

end Scheme

namespace Context

variable {Γ : Context} {t : Ty} {n v : Nat}

private theorem mem_binders_generalize : v ∈ (Γ.generalize t).binders ↔ v ∈ t.vars ∧ v ∉ Γ.free :=
  VarSet.mem_sdiff

/-- What is drawn is above all variables of the type, so that only what the context knows is in the
instance and in the type. -/
theorem mem_vars_instance_iff (habove : ∀ v ∈ t.vars, v < n) :
    v ∈ (t.rename ((Γ.generalize t).drawn n)).vars ∧ v ∈ t.vars ↔ v ∈ t.vars ∧ v ∈ Γ.free := by
  rw [Ty.mem_vars_rename]
  constructor
  · intro hboth
    obtain ⟨⟨u, hu, heq⟩, hv⟩ := hboth
    by_cases hbinder : u ∈ (Γ.generalize t).binders
    · have hge : n ≤ (Γ.generalize t).drawn n u := Scheme.le_drawn hbinder
      have hlt : v < n := habove v hv
      omega
    · rw [Scheme.drawn_of_not_mem hbinder] at heq
      subst heq
      exact ⟨hv, Decidable.not_not.mp fun hfree => hbinder (mem_binders_generalize.mpr ⟨hv, hfree⟩)⟩
  · intro hboth
    obtain ⟨hv, hfree⟩ := hboth
    have hbinder : v ∉ (Γ.generalize t).binders :=
      fun hin => (mem_binders_generalize.mp hin).2 hfree
    exact ⟨⟨v, hv, (Scheme.drawn_of_not_mem hbinder).symm⟩, hv⟩

/-- A context quantifies the variables of a type that it does not know and leaves the others free.
On an owned supply that is above all of them, instantiating the scheme draws one variable for each
binder, as long as the indices last. It renames the binders to these in ascending order and fixes
all else. The instance and the type have only those variables in common that the context knows, and
they have the same canonical form. -/
theorem instantiate_generalize (Γ : Context) (t : Ty) (hn : n < indexCount)
    (habove : ∀ v, v ∈ Γ.free ∨ v ∈ t.vars → v < n) :
    (∀ v, v ∈ (Γ.generalize t).binders ↔ v ∈ t.vars ∧ v ∉ Γ.free) ∧
      (∀ v, v ∈ (Γ.generalize t).free ↔ v ∈ t.vars ∧ v ∈ Γ.free) ∧
      ((Γ.generalize t).instantiate ⟨.owned, n⟩ = none ↔
        indexCount ≤ n + (Γ.generalize t).binders.size) ∧
      ∃ ρ : Nat → Nat,
        (∀ i < (Γ.generalize t).binders.size, ρ ((Γ.generalize t).binders.toList.getD i 0) =
          n + i) ∧
        (∀ v ∉ (Γ.generalize t).binders, ρ v = v) ∧
        (n + (Γ.generalize t).binders.size < indexCount →
          (Γ.generalize t).instantiate ⟨.owned, n⟩ =
            some (t.rename ρ, ⟨.owned, n + (Γ.generalize t).binders.size⟩)) ∧
        (∀ v, v ∈ (t.rename ρ).vars ∧ v ∈ t.vars ↔ v ∈ t.vars ∧ v ∈ Γ.free) ∧
        (t.rename ρ).canonical = t.canonical := by
  have hvars : ∀ v ∈ t.vars, v < n := fun v hv => habove v (.inr hv)
  have hcanonical : (t.rename ((Γ.generalize t).drawn n)).canonical = t.canonical :=
    Ty.canonical_rename ((Scheme.injOn_drawn (Γ.generalize t) n).mono hvars)
  refine ⟨fun v => mem_binders_generalize, fun v => mem_free_generalize,
    (Γ.generalize t).instantiate_owned_eq_none_iff hn, (Γ.generalize t).drawn n, ?_⟩
  exact ⟨fun i hi => Scheme.drawn_getD hi, fun v hv => Scheme.drawn_of_not_mem hv,
    (Γ.generalize t).instantiate_owned, fun v => mem_vars_instance_iff hvars, hcanonical⟩

/-- Knows `2`, and has `0` as a binder only. -/
def knowing : Context :=
  .ofList [("x", .mono (.var 2)), ("f", ⟨VarSet.ofList [0], .fn (.var 0) (.var 2)⟩)]

/-- The context knows the variable in the middle. The others are renamed in ascending order, not in
the order in which they occur. -/
theorem instantiate_generalize_knowing :
    knowing.generalize (.fn (.var 3) (.fn (.var 2) (.var 0))) =
      ⟨VarSet.ofList [0, 3], .fn (.var 3) (.fn (.var 2) (.var 0))⟩ ∧
      ∃ ρ : Nat → Nat, ρ 0 = 4 ∧ ρ 3 = 5 ∧ ρ 2 = 2 ∧
        (knowing.generalize (.fn (.var 3) (.fn (.var 2) (.var 0)))).instantiate ⟨.owned, 4⟩ =
          some ((Ty.fn (.var 3) (.fn (.var 2) (.var 0))).rename ρ, ⟨.owned, 6⟩) := by
  have habove : ∀ v, v ∈ knowing.free ∨ v ∈ (Ty.fn (.var 3) (.fn (.var 2) (.var 0))).vars →
      v < 4 := by
    intro v hv
    cases hv with
    | inl hfree => exact (show ∀ w ∈ knowing.free.toList, w < 4 by decide) v hfree
    | inr hvar =>
      have hbelow : ∀ w ∈ (Ty.fn (.var 3) (.fn (.var 2) (.var 0))).vars.toList, w < 4 := by decide
      exact hbelow v hvar
  obtain ⟨-, -, -, ρ, hbinders, hfixed, hinstance, -⟩ :=
    instantiate_generalize knowing (.fn (.var 3) (.fn (.var 2) (.var 0))) (by decide) habove
  exact ⟨by decide, ρ, hbinders 0 (by decide), hbinders 1 (by decide), hfixed 2 (by decide),
    hinstance (by decide)⟩

end Context

end HindleyMilner
