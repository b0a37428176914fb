import HindleyMilner.Proofs.Canonical
import HindleyMilner.Proofs.Forest.Refinement
import HindleyMilner.Proofs.Forest.Solution

/-!
# The order of unifications

Equations between types can be handed to a forest one after the other in any order and either way
round. Which variables end up below which depends on that; what the equations say does not. All of
them succeed in turn exactly when some replacement solves them together
(`unified_iff_exists_solves`), and that is a property of the equations as a set.

The forest at the end is a most general solution: it solves the equations, and every solution
factors through it. So the forests that two orders lead to resolve into each other, and what goes
back and forth between them can only be a renaming of variables.
-/

namespace HindleyMilner.Forest

variable {f : Forest} {φ : Nat → Ty} {equations equations' : List (Ty × Ty)} {a b : Ty}

/-- Unifies the sides of each equation in turn, in the forest that the one before has left. Every
outcome is kept. -/
def unifyAll (f : Forest) : List (Ty × Ty) → List (Except TypeError Unit) × Forest
  | [] => ([], f)
  | (a, b) :: rest =>
    let later := (f.unify a b).forest.unifyAll rest
    ((f.unify a b).outcome :: later.1, later.2)

/-- Every unification succeeds. -/
def Unified (f : Forest) (equations : List (Ty × Ty)) : Prop :=
  ∀ outcome ∈ (f.unifyAll equations).1, outcome = .ok ()

theorem unified_cons (f : Forest) (a b : Ty) (rest : List (Ty × Ty)) :
    f.Unified ((a, b) :: rest) ↔
      (f.unify a b).outcome = .ok () ∧ (f.unify a b).forest.Unified rest := by
  simp [Unified, unifyAll]

/-- The replacement makes the sides of every equation equal. -/
def Solves (φ : Nat → Ty) (equations : List (Ty × Ty)) : Prop :=
  ∀ e ∈ equations, e.1.bind φ = e.2.bind φ

theorem solves_cons {rest : List (Ty × Ty)} :
    Solves φ ((a, b) :: rest) ↔ a.bind φ = b.bind φ ∧ Solves φ rest := by
  simp [Solves]

/-- What the forest has linked, the replacement makes equal. -/
def RespectedBy (f : Forest) (φ : Nat → Ty) : Prop := ∀ t, (f.resolve t).bind φ = t.bind φ

private theorem respectedBy_empty (φ : Nat → Ty) : (∅ : Forest).RespectedBy φ := by
  intro t
  rw [resolve_empty]

/-! ### One unification -/

theorem WellFormed.wellFormed_unify (hf : f.WellFormed) (a b : Ty) :
    (f.unify a b).forest.WellFormed :=
  (hf.unify_refines a b).wellFormed

/-- Types that a replacement makes equal unify, if it respects what is linked so far, and it goes on
to respect what is linked then. -/
theorem WellFormed.unify_of_bind_eq (hf : f.WellFormed) (hφ : f.RespectedBy φ)
    (heq : a.bind φ = b.bind φ) :
    (f.unify a b).outcome = .ok () ∧ (f.unify a b).forest.RespectedBy φ := by
  have hresolved : (f.resolve a).bind φ = (f.resolve b).bind φ := by rw [hφ a, hφ b, heq]
  obtain ⟨s, hmgu, habsorbed⟩ :=
    (Ty.unifies_mgu (f.resolve a) (f.resolve b)).exists_absorbed hresolved
  have hfollows := (hf.unify_refines a b).follows
  rw [hmgu] at hfollows
  obtain ⟨hok, hresolve⟩ := hfollows
  refine ⟨hok, fun t => ?_⟩
  rw [hresolve t, habsorbed.bind_subst, hφ t]

/-- Types that have been unified resolve alike, and so does whatever resolved alike before. -/
theorem WellFormed.resolve_unify_of_ok (hf : f.WellFormed) (hok : (f.unify a b).outcome = .ok ()) :
    (f.unify a b).forest.resolve a = (f.unify a b).forest.resolve b ∧
      ∀ t u, f.resolve t = f.resolve u →
        (f.unify a b).forest.resolve t = (f.unify a b).forest.resolve u := by
  obtain ⟨s, hmgu, hresolve⟩ := (hf.unify_refines a b).follows.exists_of_ok hok
  constructor
  · rw [hresolve a, hresolve b]
    exact (Ty.unifies_mgu _ _).subst_eq hmgu
  · intro t u heq
    rw [hresolve t, hresolve u, heq]

/-! ### All of them in turn -/

theorem WellFormed.wellFormed_unifyAll (hf : f.WellFormed) (equations : List (Ty × Ty)) :
    (f.unifyAll equations).2.WellFormed := by
  induction equations generalizing f with
  | nil => exact hf
  | cons e rest ih => exact ih (hf.wellFormed_unify e.1 e.2)

theorem WellFormed.unifyAll_of_solves (hf : f.WellFormed) (hφ : f.RespectedBy φ)
    (hsolves : Solves φ equations) :
    f.Unified equations ∧ (f.unifyAll equations).2.RespectedBy φ := by
  induction equations generalizing f with
  | nil => exact ⟨by simp [Unified, unifyAll], hφ⟩
  | cons e rest ih =>
    obtain ⟨heq, hrest⟩ := solves_cons.mp hsolves
    obtain ⟨hok, hφ'⟩ := hf.unify_of_bind_eq hφ heq
    obtain ⟨hlater, hlast⟩ := ih (hf.wellFormed_unify e.1 e.2) hφ' hrest
    exact ⟨(unified_cons f e.1 e.2 rest).mpr ⟨hok, hlater⟩, hlast⟩

theorem WellFormed.resolve_unifyAll (hf : f.WellFormed) (hall : f.Unified equations) :
    (∀ e ∈ equations, (f.unifyAll equations).2.resolve e.1 = (f.unifyAll equations).2.resolve e.2) ∧
      ∀ t u, f.resolve t = f.resolve u →
        (f.unifyAll equations).2.resolve t = (f.unifyAll equations).2.resolve u := by
  induction equations generalizing f with
  | nil => exact ⟨by simp, fun t u heq => heq⟩
  | cons e rest ih =>
    obtain ⟨hok, hlater⟩ := (unified_cons f e.1 e.2 rest).mp hall
    obtain ⟨hsides, hkept⟩ := hf.resolve_unify_of_ok hok
    obtain ⟨hsolved, hkept'⟩ := ih (hf.wellFormed_unify e.1 e.2) hlater
    constructor
    · intro e' he'
      rcases List.mem_cons.mp he' with rfl | hin
      · exact hkept' _ _ hsides
      · exact hsolved e' hin
    · intro t u heq
      exact hkept' t u (hkept t u heq)

theorem WellFormed.solves_resolve (hf : f.WellFormed) (hall : f.Unified equations) :
    Solves (fun v => (f.unifyAll equations).2.resolve (.var v)) equations := by
  have hlast := hf.wellFormed_unifyAll equations
  intro e he
  rw [← hlast.resolve_eq_bind_resolve, ← hlast.resolve_eq_bind_resolve]
  exact (hf.resolve_unifyAll hall).1 e he

/-- Equations that are unified in turn, on nothing linked before, all succeed exactly when they
have a solution. -/
theorem unified_iff_exists_solves : (∅ : Forest).Unified equations ↔ ∃ φ, Solves φ equations := by
  constructor
  · intro hall
    exact ⟨_, wellFormed_empty.solves_resolve hall⟩
  · rintro ⟨φ, hsolves⟩
    exact (wellFormed_empty.unifyAll_of_solves (respectedBy_empty φ) hsolves).1

/-! ### Another order -/

/-- Sides are exchanged in some of the equations, and then the equations are put
in another order. -/
def Rearranged (equations equations' : List (Ty × Ty)) : Prop :=
  ∃ turned, List.Forall₂ (fun e e' => e' = e ∨ e' = e.swap) equations turned ∧
    turned.Perm equations'

private theorem solves_of_forall₂ {turned : List (Ty × Ty)}
    (hturned : List.Forall₂ (fun e e' => e' = e ∨ e' = e.swap) equations turned) :
    Solves φ turned ↔ Solves φ equations := by
  induction hturned with
  | nil => rfl
  | @cons e _ rest rest' hside hrest ih =>
    rcases hside with rfl | rfl
    · rw [solves_cons, solves_cons, ih]
    · show Solves φ ((e.2, e.1) :: rest') ↔ Solves φ ((e.1, e.2) :: rest)
      rw [solves_cons, solves_cons, ih, eq_comm]

theorem Rearranged.solves_iff (h : Rearranged equations equations') :
    Solves φ equations' ↔ Solves φ equations := by
  obtain ⟨turned, hturned, hperm⟩ := h
  rw [← solves_of_forall₂ hturned]
  exact forall_congr' fun e => imp_congr_left hperm.mem_iff.symm

/-- Two forests, each of which respects what the other resolves to, differ by a renaming of the
variables left in resolved types. -/
theorem WellFormed.exists_rename_resolve {g : Forest} (hf : f.WellFormed) (hg : g.WellFormed)
    (hfg : f.RespectedBy fun v => g.resolve (.var v))
    (hgf : g.RespectedBy fun v => f.resolve (.var v)) :
    ∃ ρ : Nat → Nat, Set.InjOn ρ {w | ∃ t, w ∈ (f.resolve t).vars} ∧
      ∀ t, g.resolve t = (f.resolve t).rename ρ := by
  have hthrough : ∀ t, g.resolve t = (f.resolve t).bind fun v => g.resolve (.var v) := by
    intro t
    rw [hfg t, ← hg.resolve_eq_bind_resolve]
  -- A variable left by `f` is a root there, so going to `g` and back ends where it started.
  have hundo : ∀ w ∈ {w | ∃ t, w ∈ (f.resolve t).vars},
      (g.resolve (.var w)).bind (fun v => f.resolve (.var v)) = .var w := by
    rintro w ⟨t, hw⟩
    rw [hgf (.var w), ← hf.resolve_eq_bind_resolve]
    exact hf.resolve_of_root (hf.root_of_mem_vars_resolve hw)
  obtain ⟨ρ, hinj, hρ⟩ := Ty.exists_rename_of_undone hundo
  refine ⟨ρ, hinj, fun t => ?_⟩
  rw [hthrough t]
  exact Ty.bind_congr fun v hv => hρ v ⟨t, hv⟩

/-- Neither the order of equations nor the order of their sides decides whether all can be unified
in turn; and if they can, it makes no difference to what types resolve to but for the names of the
variables left. -/
theorem unifyAll_rearranged (h : Rearranged equations equations') :
    ((∅ : Forest).Unified equations ↔ (∅ : Forest).Unified equations') ∧
      ((∅ : Forest).Unified equations →
        ∃ ρ : Nat → Nat,
          Set.InjOn ρ {w | ∃ t, w ∈ (((∅ : Forest).unifyAll equations).2.resolve t).vars} ∧
          ∀ t, ((∅ : Forest).unifyAll equations').2.resolve t =
            (((∅ : Forest).unifyAll equations).2.resolve t).rename ρ) := by
  have hiff : (∅ : Forest).Unified equations ↔ (∅ : Forest).Unified equations' := by
    rw [unified_iff_exists_solves, unified_iff_exists_solves]
    exact exists_congr fun φ => h.solves_iff.symm
  refine ⟨hiff, fun hall => ?_⟩
  have hall' := hiff.mp hall
  have hsolves := h.solves_iff.mpr (wellFormed_empty.solves_resolve hall)
  have hsolves' := h.solves_iff.mp (wellFormed_empty.solves_resolve hall')
  exact WellFormed.exists_rename_resolve (wellFormed_empty.wellFormed_unifyAll equations)
    (wellFormed_empty.wellFormed_unifyAll equations')
    (wellFormed_empty.unifyAll_of_solves (respectedBy_empty _) hsolves').2
      (wellFormed_empty.unifyAll_of_solves (respectedBy_empty _) hsolves).2

/-- Turned round and taken in the reverse order, the equations between variables leave other
variables as roots. -/
theorem unifyAll_rearranged_reversed :
    (∅ : Forest).Unified [(.var 0, .fn (.var 1) (.var 2)), (.var 1, .var 3), (.var 4, .var 2)] ∧
      (∅ : Forest).Unified [(.var 2, .var 4), (.var 3, .var 1), (.var 0, .fn (.var 1) (.var 2))] ∧
      ∃ ρ : Nat → Nat,
        Set.InjOn ρ {w | ∃ t,
          w ∈
          (((∅ : Forest).unifyAll [(.var 0, .fn (.var 1) (.var 2)), (.var 1, .var 3),
          (.var 4, .var 2)]).2.resolve t).vars} ∧
          Ty.fn (.var 1) (.var 4) = (Ty.fn (.var 3) (.var 2)).rename ρ := by
  have hrearranged :
      Rearranged [(.var 0, .fn (.var 1) (.var 2)), (.var 1, .var 3), (.var 4, .var 2)]
      [(.var 2, .var 4), (.var 3, .var 1), (.var 0, .fn (.var 1) (.var 2))] :=
    ⟨[(.var 0, .fn (.var 1) (.var 2)), (.var 3, .var 1), (.var 2, .var 4)],
      .cons (.inl rfl) (.cons (.inr rfl) (.cons (.inr rfl) .nil)), (List.reverse_perm _).symm⟩
  have hoks :
      ((∅ : Forest).unifyAll [(.var 0, .fn (.var 1) (.var 2)), (.var 1, .var 3),
      (.var 4, .var 2)]).1 = [.ok (), .ok (), .ok ()] := rfl
  have hall : (∅ : Forest).Unified [(.var 0, .fn (.var 1) (.var 2)), (.var 1, .var 3),
      (.var 4, .var 2)] := by
    rw [Unified, hoks]
    simp
  obtain ⟨hiff, hrename⟩ := unifyAll_rearranged hrearranged
  obtain ⟨ρ, hinj, hresolve⟩ := hrename hall
  exact ⟨hall, hiff.mp hall, ρ, hinj, hresolve (.var 0)⟩

end HindleyMilner.Forest
