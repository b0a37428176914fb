import HindleyMilner.Subst
import HindleyMilner.Supply

/-!
# Type schemes

A scheme is a type with some variables quantified. Binders are names: they need not occur in the
body, and a substitution passes them by without renaming them, so that a type it puts in may mention
a binder and be captured. Contexts in which that cannot happen are the business of the theory, not
of these operations.
-/

namespace HindleyMilner

structure Scheme where
  binders : VarSet
  body : Ty
  deriving DecidableEq, Repr

namespace Scheme

/-- The scheme that quantifies nothing. -/
def mono (t : Ty) : Scheme := ⟨∅, t⟩

def isMono (σ : Scheme) : Bool := σ.binders.isEmpty

def free (σ : Scheme) : VarSet := σ.body.vars \ σ.binders

def subst (s : Subst) (σ : Scheme) : Scheme := ⟨σ.binders, σ.body.subst (s.without σ.binders)⟩

/-- The body with every binder replaced by a fresh variable; the binders draw in ascending order,
whether they occur or not. -/
def instantiate (σ : Scheme) : Draw Ty := do
  let pairs ← Draw.freshFor σ.binders.toList
  return σ.body.subst (OrderedMap.ofList (pairs.map fun pair => (pair.1, Ty.var pair.2)))

def render (σ : Scheme) : String :=
  if σ.isMono then σ.body.render
  else "∀" ++ " ".intercalate (σ.binders.toList.map Ty.varName) ++ ". " ++ σ.body.render

@[simp] theorem mem_free {σ : Scheme} {v : Nat} : v ∈ σ.free ↔ v ∈ σ.body.vars ∧ v ∉ σ.binders :=
  VarSet.mem_sdiff

@[simp] theorem binders_subst (s : Subst) (σ : Scheme) : (σ.subst s).binders = σ.binders := rfl

end Scheme

end HindleyMilner
