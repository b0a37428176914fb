import HindleyMilner.Proofs.Counting

/-!
# Terms that differ in bound names

Two terms are alpha-equivalent when they have the same shape and their names stand for the same
binders. On the way down both binders of each kind are noted as a pair, the innermost first, and two
names stand for the same thing when the first pair that has one of them has both; names in no pair
are free and must be the same (`Term.Paired`). Nothing is renamed, so nothing can be captured.

To follow inference on both terms, contexts are compared under the pairs on the way
(`Context.Corresponds`), and runs are compared by all but the events they report, since an event of
a `let` has the name in it (`Infer.Alike`).
-/

namespace HindleyMilner

namespace Term

/-- Under the pairs of binders passed so far, the names stand for the same thing. -/
def Paired : List (String × String) → String → String → Prop
  | [], x, y => x = y
  | (p, q) :: outer, x, y => if x = p ∨ y = q then x = p ∧ y = q else Paired outer x y

instance decidablePaired :
    (pairs : List (String × String)) → (x y : String) → Decidable (Paired pairs x y)
  | [], x, y => inferInstanceAs (Decidable (x = y))
  | (p, q) :: outer, x, y =>
    have := decidablePaired outer x y
    inferInstanceAs (Decidable (if x = p ∨ y = q then x = p ∧ y = q else Paired outer x y))

/-- The terms have the same shape, and names in the same place stand for the same thing. -/
inductive AlphaUnder : List (String × String) → Term → Term → Prop
  | int {pairs : List (String × String)} (value : Int) : AlphaUnder pairs (.int value) (.int value)
  | bool {pairs : List (String × String)} (value : Bool) :
      AlphaUnder pairs (.bool value) (.bool value)
  | var {pairs : List (String × String)} {x y : String} (h : Paired pairs x y) :
      AlphaUnder pairs (.var x) (.var y)
  | app {pairs : List (String × String)} {func func' arg arg' : Term}
      (hfunc : AlphaUnder pairs func func') (harg : AlphaUnder pairs arg arg') :
      AlphaUnder pairs (.app func arg) (.app func' arg')
  | abs {pairs : List (String × String)} {p q : String} {body body' : Term}
      (hbody : AlphaUnder ((p, q) :: pairs) body body') :
      AlphaUnder pairs (.abs p body) (.abs q body')
  | letIn {pairs : List (String × String)} {p q : String} {init init' body body' : Term}
      (hinit : AlphaUnder pairs init init')
      (hbody : AlphaUnder ((p, q) :: pairs) body body') :
      AlphaUnder pairs (.letIn p init body) (.letIn q init' body')

/-- The terms are the same up to the names of parameters and of `let`s. -/
def AlphaEq (e e' : Term) : Prop := AlphaUnder [] e e'

end Term

/-! ### Contexts -/

namespace Context

variable {Γ Δ : Context} {pairs : List (String × String)}

/-- Names that stand for the same thing have the same binding, and where there is none they
are the same name. -/
def Corresponds (pairs : List (String × String)) (Γ Δ : Context) : Prop :=
  ∀ x y, Term.Paired pairs x y → Δ.get? y = Γ.get? x ∧ (Γ.get? x = none → x = y)

theorem corresponds_self (Γ : Context) : Corresponds [] Γ Γ := by
  intro x y hpaired
  have heq : x = y := hpaired
  simp [heq]

theorem Corresponds.insert (h : Corresponds pairs Γ Δ) (p q : String) (σ : Scheme) :
    Corresponds ((p, q) :: pairs) (Γ.insert p σ) (Δ.insert q σ) := by
  intro x y hpaired
  rw [Term.Paired] at hpaired
  rw [OrderedMap.get?_insert, OrderedMap.get?_insert]
  by_cases hmet : x = p ∨ y = q
  · rw [if_pos hmet] at hpaired
    simp [hpaired]
  · rw [if_neg hmet] at hpaired
    have hx : p ≠ x := fun heq => hmet (.inl heq.symm)
    have hy : q ≠ y := fun heq => hmet (.inr heq.symm)
    rw [if_neg hx, if_neg hy]
    exact h x y hpaired

theorem Corresponds.subst (h : Corresponds pairs Γ Δ) (S : Subst) :
    Corresponds pairs (Γ.subst S) (Δ.subst S) := by
  intro x y hpaired
  obtain ⟨hget, hunbound⟩ := h x y hpaired
  simpa [hget] using hunbound

end Context

/-! ### Runs -/

variable {α β : Type} {s s' : Session}

namespace Infer

theorem alike_report (event event' : Log.Event) (h : s.Alike s') :
    Alike (report event s) (report event' s') :=
  ⟨rfl, h.supply, h.forest⟩

theorem alike_draw (d : Draw α) (h : s.Alike s') : Alike (draw d s) (draw d s') := by
  rw [draw_apply, draw_apply, h.supply]
  cases d s.supply with
  | none => exact ⟨rfl, h⟩
  | some drawn => exact ⟨rfl, rfl, h.forest⟩

theorem alike_fresh (h : s.Alike s') : Alike (fresh s) (fresh s') := by
  rw [fresh, map_eq_pure_bind]
  apply (alike_draw Draw.fresh h).bind (meets_draw (E := fun _ _ => True) Draw.fresh s)
  intro v s₁ s₁' _ h₁
  exact ⟨rfl, h₁⟩

theorem alike_lookup {Γ Δ : Context} {pairs : List (String × String)} {x y : String}
    (hΓ : Context.Corresponds pairs Γ Δ) (hpaired : Term.Paired pairs x y) (h : s.Alike s') :
    Alike (lookup Γ x s) (lookup Δ y s') := by
  obtain ⟨hget, hunbound⟩ := hΓ x y hpaired
  rw [lookup, lookup, hget]
  cases hx : Γ.get? x with
  | none =>
    rw [hunbound hx]
    exact ⟨rfl, h⟩
  | some σ => exact alike_draw σ.instantiate h

theorem alike_mgu (a b : Ty) (h : s.Alike s') : Alike (mgu a b s) (mgu a b s') := by
  rw [mgu]
  cases a.mgu b with
  | ok u => exact ⟨rfl, h⟩
  | error e => exact ⟨rfl, h⟩

theorem alike_find (t : Ty) (h : s.Alike s') : Alike (find t s) (find t s') :=
  ⟨congrArg (fun f : Forest => Except.ok (f.find t).1) h.forest, h.supply,
    congrArg (fun f : Forest => (f.find t).2) h.forest⟩

theorem alike_unify (a b : Ty) (h : s.Alike s') : Alike (unify a b s) (unify a b s') := by
  rw [unify, bind_apply, bind_apply, get_apply, get_apply]
  dsimp only
  rw [h.forest, bind_apply, bind_apply]
  cases (s.forest.unify a b).outcome with
  | ok _ => exact ⟨rfl, h.supply, rfl⟩
  | error e => exact ⟨rfl, h.supply, rfl⟩

theorem alike_concludeW (form : Term.Form) (S : Subst) (t : Ty) (h : s.Alike s') :
    Alike (Context.concludeW form S t s) (Context.concludeW form S t s') :=
  ⟨rfl, h.supply, h.forest⟩

theorem alike_concludeJ (form : Term.Form) (t : Ty) (h : s.Alike s') :
    Alike (Context.concludeJ form t s) (Context.concludeJ form t s') :=
  ⟨rfl, h.supply, h.forest⟩

/-- Runs that end alike on strict supplies end alike, as long as a shared supply does
not start again. -/
theorem DrawsOnly.alike_of_strict {x x' : Infer α} (hx : DrawsOnly x) (hx' : DrawsOnly x')
    (hrange : s.supply.mode = .shared → InRange x s) (h : Alike (x s.strict) (x' s.strict)) :
    Alike (x s) (x' s) := by
  obtain ⟨⟨mode, n⟩, forest, events⟩ := s
  cases mode with
  | owned => exact h
  | unbounded => exact h
  | shared =>
    have hne : (x ⟨⟨.owned, n⟩, forest, events⟩).1 ≠ .error .exhausted := hrange rfl
    have hne' : (x' ⟨⟨.owned, n⟩, forest, events⟩).1 ≠ .error .exhausted := by
      rw [show (x' ⟨⟨.owned, n⟩, forest, events⟩).1 =
        (x ⟨⟨.owned, n⟩, forest, events⟩).1 from h.outcome]
      exact hne
    have hrun := (hx.run_withMode rfl hne .shared).2
    have hrun' := (hx'.run_withMode rfl hne' .shared).2
    change x ⟨⟨.shared, n⟩, forest, events⟩ = _ at hrun
    change x' ⟨⟨.shared, n⟩, forest, events⟩ = _ at hrun'
    rw [hrun, hrun']
    exact ⟨h.outcome,
      congrArg (fun supply : Supply => { supply with mode := .shared }) h.sessions.supply,
      h.sessions.forest⟩

end Infer

end HindleyMilner
