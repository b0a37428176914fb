import HindleyMilner.Forest
import HindleyMilner.TypeError

/-!
# Unification in a forest

Two types are made equal by comparing their representatives. Two functions are unified component by
component, a variable is hung below the other representative, and any other pair is a mismatch.
Before a variable is hung below a type that is not a variable, the type is resolved to see that the
variable does not occur in it.

A unification that fails keeps what it has done up to there: nodes it registered and variables it
linked stay. So its result is an `Attempt`, which has a forest in either case, together with the
pairs of representatives that were compared on the way.
-/

namespace HindleyMilner.Forest

structure Attempt where
  outcome : Except TypeError Unit
  forest : Forest
  /-- The pairs of distinct representatives met, in order. -/
  compared : List (Ty × Ty)

/-- Hangs a variable below the representative `target`, unless the type would contain itself. -/
def link (f : Forest) (v : Nat) (target : Ty) : Except TypeError Forest :=
  if target.isVar then .ok (f.setParent v target)
  else
    let resolved := f.resolve target
    if v ∈ resolved.vars then .error (.infinite v resolved) else .ok (f.setParent v target)

namespace Attempt

def done (f : Forest) : Attempt := ⟨.ok (), f, []⟩

/-- The comparison of `a` and `b` that ends in one link, or in an error that leaves the
forest as it is. -/
def ofLink (a b : Ty) (f : Forest) : Except TypeError Forest → Attempt
  | .ok linked => ⟨.ok (), linked, [(a, b)]⟩
  | .error e => ⟨.error e, f, [(a, b)]⟩

/-- The comparison of two functions, from the attempts on their components. -/
def ofComponents (a b : Ty) (first second : Attempt) : Attempt :=
  ⟨second.outcome, second.forest, (a, b) :: (first.compared ++ second.compared)⟩

/-- The comparison of two functions whose first components do not unify. -/
def ofFirst (a b : Ty) (first : Attempt) : Attempt :=
  ⟨first.outcome, first.forest, (a, b) :: first.compared⟩

end Attempt

/-- Unifies through at most so many levels of functions; there is no answer if a
deeper one is met. -/
def unifyWithin : Nat → Ty → Ty → Forest → Option Attempt
  | 0, _, _, _ => none
  | levels + 1, a, b, f =>
    let f := (f.register a).register b
    let ra := f.rep a
    let rb := f.rep b
    if ra = rb then some (.done f)
    else
      match ra, rb with
      | .fn a₁ a₂, .fn b₁ b₂ => do
        let first ← unifyWithin levels a₁ b₁ f
        match first.outcome with
        | .error _ => return .ofFirst ra rb first
        | .ok () =>
          let second ← unifyWithin levels a₂ b₂ first.forest
          return .ofComponents ra rb first second
      | .var v, target => some (.ofLink ra rb f (f.link v target))
      | target, .var v => some (.ofLink ra rb f (f.link v target))
      | _, _ => some ⟨.error (.mismatch ra rb), f, [(ra, rb)]⟩

/-- Makes two types equal. The bound on levels counts every function that a node or one of the two
types contains. -/
def unify (f : Forest) (a b : Ty) : Attempt :=
  (unifyWithin (f.weight + a.size + b.size + 1) a b f).getD (.done f)

end HindleyMilner.Forest
