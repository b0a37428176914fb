import HindleyMilner.Inference.Linking
import HindleyMilner.Inference.Substituting

/-!
# Principal types and schemes

What each algorithm has to say about a whole term. Algorithm J starts with an empty forest every
time, and its result is read through the forest at the end. The results of the two algorithms
agree when both are types that differ at most in the names of their variables, or both are type
errors of the same kind.
-/

namespace HindleyMilner

/-- The results of the two algorithms for one term. -/
structure Agreement where
  w : Except TypeError Ty
  j : Except TypeError Ty

namespace Agreement

def agrees (a : Agreement) : Bool :=
  match a.w, a.j with
  | .ok t, .ok u => t.canonical = u.canonical
  | .error e, .error e' => e.kind = e'.kind
  | _, _ => false

theorem agrees_iff {a : Agreement} :
    a.agrees = true ↔ (∃ t u, a.w = .ok t ∧ a.j = .ok u ∧ t.canonical = u.canonical) ∨
      ∃ e e', a.w = .error e ∧ a.j = .error e' ∧ e.kind = e'.kind := by
  obtain ⟨_ | _, _ | _⟩ := a <;> simp [agrees]

end Agreement

namespace Infer

def clearForest : Infer Unit := modify fun s => { s with forest := ∅ }

def principalType (Γ : Context) (term : Term) : Algorithm → Infer Ty
  | .w => do
    let (_, t) ← Γ.inferW term
    return t
  | .j => do
    clearForest
    let t ← Γ.inferJ term
    resolve t

/-- The type of a term, generalized over the variables that the context leaves open. -/
def principalScheme (Γ : Context) (term : Term) : Algorithm → Infer Scheme
  | .w => do
    let (s, t) ← Γ.inferW term
    return Context.generalize (Γ.subst s) t
  | .j => do
    clearForest
    let t ← Γ.inferJ term
    return Γ.generalizeIn (← get).forest t

/-- Asks algorithm W, then algorithm J, and reports if they differ. -/
def compare (Γ : Context) (term : Term) : Infer Agreement := do
  let w ← outcome (principalType Γ term .w)
  let j ← outcome (principalType Γ term .j)
  if !(Agreement.mk w j).agrees then
    report (.disagreed term w j)
  return ⟨w, j⟩

end Infer

end HindleyMilner
