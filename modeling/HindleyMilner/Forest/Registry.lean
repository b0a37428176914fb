import HindleyMilner.OrderedMap
import HindleyMilner.TypeError

/-!
# Registries

A registry keeps a forest of types in a row of nodes. A node has a type and, if it is linked, the
position of its parent, and an index says at which position a type stands. Types are looked up in
the index, chains of parents are followed from position to position, and classes are compared by the
positions of their roots.

Nothing in the data keeps the index and the row in step, or a parent inside the row. So whatever
reads at a position has no result if nothing stands there, and neither has a walk or a descent that
goes on for longer than it could in a row without cycles.
-/

namespace HindleyMilner

namespace Registry

structure Node where
  ty : Ty
  parent : Option Nat := none
  deriving DecidableEq, Repr

end Registry

structure Registry where
  nodes : List Registry.Node := []
  /-- The position of each type. -/
  index : OrderedMap Ty Nat := ∅
  deriving DecidableEq, Repr

namespace Registry

instance : EmptyCollection Registry := ⟨{}⟩

instance : Inhabited Registry := ⟨∅⟩

def size (r : Registry) : Nat := r.nodes.length

def typeAt? (r : Registry) (i : Nat) : Option Ty := (r.nodes[i]?).map Node.ty

def parentAt? (r : Registry) (i : Nat) : Option Nat := (r.nodes[i]?).bind Node.parent

/-- The position of a type; a type that has none is put at the end of the row. -/
def register (r : Registry) (t : Ty) : Nat × Registry :=
  match r.index.get? t with
  | some i => (i, r)
  | none => (r.size, ⟨r.nodes ++ [⟨t, none⟩], r.index.insert t r.size⟩)

/-- Goes up to a root and looks at so many nodes at most. -/
def climb? (r : Registry) : Nat → Nat → Option Nat
  | 0, _ => none
  | steps + 1, i => do
    let node ← r.nodes[i]?
    match node.parent with
    | none => some i
    | some p => r.climb? steps p

def rootOf? (r : Registry) (i : Nat) : Option Nat := r.climb? (r.size + 1) i

/-- The root above a type that is registered first. -/
def findRoot? (r : Registry) (t : Ty) : Option (Nat × Registry) :=
  let (i, r) := r.register t
  (r.rootOf? i).map (·, r)

def find? (r : Registry) (t : Ty) : Option (Ty × Registry) := do
  let (root, r) ← r.findRoot? t
  let rep ← r.typeAt? root
  return (rep, r)

/-- The type at the root above a type; a type that has no position represents itself. -/
def rep? (r : Registry) (t : Ty) : Option Ty :=
  match r.index.get? t with
  | none => some t
  | some i => (r.rootOf? i).bind r.typeAt?

def resolveWithin? (r : Registry) : Nat → Ty → Option Ty
  | 0, _ => none
  | levels + 1, t => do
    match ← r.rep? t with
    | .fn a b => do
      let dom ← r.resolveWithin? levels a
      let cod ← r.resolveWithin? levels b
      return .fn dom cod
    | rep => some rep

/-- The number of constructors in all nodes. -/
def weight (r : Registry) : Nat := r.nodes.foldr (fun node total => node.ty.size + total) 0

def resolve? (r : Registry) (t : Ty) : Option Ty := r.resolveWithin? (r.weight + t.size + 1) t

/-! ### Unification -/

/-- Hangs the node at position `i` below the one at position `p`. -/
def setParent (r : Registry) (i p : Nat) : Registry :=
  { r with nodes := r.nodes.modify i fun node => { node with parent := some p } }

/-- Hangs the variable `v`, which stands at position `i`, below the root `p`, unless the type would
contain itself. -/
def link? (r : Registry) (v i p : Nat) : Option (Except TypeError Registry) := do
  let target ← r.typeAt? p
  if target.isVar then some (.ok (r.setParent i p))
  else
    let resolved ← r.resolve? target
    return if v ∈ resolved.vars then .error (.infinite v resolved) else .ok (r.setParent i p)

structure Attempt where
  outcome : Except TypeError Unit
  registry : Registry
  /-- The pairs of distinct representatives met, in order. -/
  compared : List (Ty × Ty)

/-- The comparison of `a` and `b` that ends in one link, or in an error that changes nothing. -/
def Attempt.ofLink (a b : Ty) (r : Registry) : Except TypeError Registry → Attempt
  | .ok linked => ⟨.ok (), linked, [(a, b)]⟩
  | .error e => ⟨.error e, r, [(a, b)]⟩

/-- Registers both types and finds the roots above them, one after the other. -/
def enter? (r : Registry) (a b : Ty) : Option (Nat × Nat × Registry) := do
  let (i, r) ← r.findRoot? a
  let (j, r) ← r.findRoot? b
  return (i, j, r)

/-- Unifies through at most so many levels of functions. -/
def unifyWithin? : Nat → Ty → Ty → Registry → Option Attempt
  | 0, _, _, _ => none
  | levels + 1, a, b, r => do
    let (i, j, r) ← r.enter? a b
    if i = j then some ⟨.ok (), r, []⟩
    else
      let left ← r.typeAt? i
      let right ← r.typeAt? j
      match left, right with
      | .fn a₁ a₂, .fn b₁ b₂ => do
        let first ← unifyWithin? levels a₁ b₁ r
        match first.outcome with
        | .error e => return ⟨.error e, first.registry, (left, right) :: first.compared⟩
        | .ok () =>
          let second ← unifyWithin? levels a₂ b₂ first.registry
          return ⟨second.outcome, second.registry,
            (left, right) :: (first.compared ++ second.compared)⟩
      | .var v, _ => (r.link? v i j).map (.ofLink left right r)
      | _, .var v => (r.link? v j i).map (.ofLink left right r)
      | _, _ => some ⟨.error (.mismatch left right), r, [(left, right)]⟩

/-- Makes two types equal; a failure keeps what was done before it. -/
def unify? (r : Registry) (a b : Ty) : Option Attempt :=
  unifyWithin? (r.weight + a.size + b.size + 1) a b r

end Registry

end HindleyMilner
