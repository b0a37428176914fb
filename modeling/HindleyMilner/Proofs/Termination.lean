import HindleyMilner.Proofs.Unification

/-!
# Unification of types ends

The rules of unification set no bound on how deep they go. Of two functions they unify the domains
and then the codomains under the unifier of the domains, which can make the codomains larger than
the functions were. What falls instead is the number of variables: a unifier that does anything
eliminates a variable of the two types and brings in none. So whether the second call ends depends
on what the first one has answered.

Hence no chain of calls goes on forever, and the rules lead from every pair of types to
exactly one outcome.
-/

namespace HindleyMilner.Ty

variable {a a₁ a₂ b b₁ b₂ : Ty} {s : Subst}

/-- The first pair has to be unified on the way to unifying the second. -/
inductive Call : Ty × Ty → Ty × Ty → Prop
  | domains (a₁ a₂ b₁ b₂ : Ty) : Call (a₁, b₁) (fn a₁ a₂, fn b₁ b₂)
  | codomains {a₁ b₁ : Ty} {s : Subst} (a₂ b₂ : Ty) (hdom : Unifies a₁ b₁ (.ok s)) :
    Call (a₂.subst s, b₂.subst s) (fn a₁ a₂, fn b₁ b₂)

theorem Unifies.progress (h : Unifies a b (.ok s)) : s.Progress (a.pairVars b) := by
  have hmgu : (a.solve b).map Subtype.val = .ok s := h.eq_mgu.symm
  cases hsolve : a.solve b with
  | error e => simp [hsolve, Except.map] at hmgu
  | ok solved =>
    have heq : solved.val = s := by simpa [hsolve, Except.map] using hmgu
    exact heq ▸ solved.property

/-- Under the unifier of the domains, the codomains have fewer variables than the functions had,
unless that unifier does nothing. -/
theorem Unifies.fewer_or_smaller (h : Unifies a₁ b₁ (.ok s)) (a₂ b₂ : Ty) :
    ((a₂.subst s).pairVars (b₂.subst s)).size < ((Ty.fn a₁ a₂).pairVars (Ty.fn b₁ b₂)).size ∨
      s = ∅ ∧ (a₂.subst s).size + (b₂.subst s).size < (Ty.fn a₁ a₂).size + (Ty.fn b₁ b₂).size := by
  rcases h.progress with rfl | helim
  · right
    rw [subst_empty, subst_empty, size, size]
    exact ⟨rfl, by omega⟩
  · left
    exact helim.codomains_lt

/-- The number of variables falls with every call, or it stays and the size falls. -/
theorem call_wellFounded : WellFounded Call := by
  have hlex : WellFounded (Prod.Lex (· < ·) (· < ·) : Nat × Nat → Nat × Nat → Prop) :=
    (Prod.lex Nat.lt_wfRel Nat.lt_wfRel).wf
  apply Subrelation.wf _
    (InvImage.wf (fun pair : Ty × Ty => ((pair.1.pairVars pair.2).size, pair.1.size)) hlex)
  intro callee caller hcall
  cases hcall with
  | domains a₁ a₂ b₁ b₂ => exact domains_decrease
  | codomains a₂ b₂ hdom => exact codomains_decrease hdom.progress

/-- Unification ends for every pair of types: no chain of calls is infinite, and there is exactly
one outcome. Of two functions, the codomains are unified under the unifier of the domains. They
have fewer variables then than the functions had, or that unifier is empty and they are smaller
than the functions. -/
theorem mgu_terminates :
    WellFounded Call ∧ (∀ a b r, Unifies a b r ↔ r = a.mgu b) ∧
      ∀ (a₁ a₂ b₁ b₂ : Ty) (s : Subst), a₁.mgu b₁ = .ok s →
        ((a₂.subst s).pairVars (b₂.subst s)).size < ((fn a₁ a₂).pairVars (fn b₁ b₂)).size ∨
          s = ∅ ∧ (a₂.subst s).size + (b₂.subst s).size < (fn a₁ a₂).size + (fn b₁ b₂).size := by
  refine ⟨call_wellFounded, fun a b r => unifies_iff, ?_⟩
  intro a₁ a₂ b₁ b₂ s hs
  exact (unifies_iff.mpr hs.symm).fewer_or_smaller a₂ b₂

/-- A type that takes the place of a variable below. -/
def wide : Ty := fn (fn (var 1) (var 1)) (var 1)

/-- A type that has the variable in three places. -/
def thrice : Ty := fn (var 0) (fn (var 0) (var 0))

/-- Under what the domains demand, the codomains are larger than the functions were; but one
variable is gone. -/
theorem mgu_terminates_growing :
    (var 0).mgu wide = .ok (.singleton 0 wide) ∧
      (fn (var 0) thrice).size + (fn wide (var 2)).size < (thrice.subst (.singleton 0 wide)).size +
        ((var 2).subst (.singleton 0 wide)).size ∧
      ((thrice.subst (.singleton 0 wide)).pairVars ((var 2).subst (.singleton 0 wide))).size <
        ((fn (var 0) thrice).pairVars (fn wide (var 2))).size := by
  have hdom : (var 0).mgu wide = .ok (.singleton 0 wide) := by
    rw [mgu_var_left, if_neg (by decide), if_neg (by decide)]
  have hlarger : (fn (var 0) thrice).size + (fn wide (var 2)).size <
      (thrice.subst (.singleton 0 wide)).size + ((var 2).subst (.singleton 0 wide)).size := by
    decide
  refine ⟨hdom, hlarger, ?_⟩
  cases mgu_terminates.2.2 (var 0) thrice wide (var 2) _ hdom with
  | inl hfewer => exact hfewer
  | inr hempty => exact absurd hempty.2 (by omega)

end HindleyMilner.Ty
