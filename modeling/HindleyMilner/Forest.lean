import HindleyMilner.Subst

/-!
# Forests of types

A forest remembers which types have been made equal. Its nodes are types, each at most once,
and a node may have a parent; the node at the end of the chain of parents represents the class.
Only variables ever get a parent, so a class that contains `Int`, `Bool` or a function is
represented by it.

Representatives are shallow: the components of a function are types in their own right,
with representatives of their own. `resolve` goes all the way down. Chains of parents
are never shortened.

A walk up the parents visits each node at most once, and resolving a type passes through distinct
functions on its way down, each of them part of the type or of a node. So a number of steps that can
be read off the forest suffices for both.
-/

namespace HindleyMilner

namespace Forest

structure Node where
  ty : Ty
  parent : Option Ty := none
  deriving DecidableEq, Repr

end Forest

structure Forest where
  nodes : List Forest.Node
  deriving DecidableEq, Repr

namespace Forest

instance : EmptyCollection Forest := ⟨⟨[]⟩⟩

instance : Inhabited Forest := ⟨∅⟩

def size (f : Forest) : Nat := f.nodes.length

def isEmpty (f : Forest) : Bool := f.nodes.isEmpty

def node? (f : Forest) (t : Ty) : Option Node := f.nodes.find? (·.ty = t)

def parent? (f : Forest) (t : Ty) : Option Ty := (f.node? t).bind Node.parent

/-- Goes up at most so many parents. -/
def climb (f : Forest) : Nat → Ty → Ty
  | 0, t => t
  | steps + 1, t =>
    match f.parent? t with
    | none => t
    | some parent => f.climb steps parent

/-- The representative of a type; a type that is no node represents itself. -/
def rep (f : Forest) (t : Ty) : Ty := f.climb f.size t

/-- Makes a type a node of its own, unless it is one. -/
def register (f : Forest) (t : Ty) : Forest :=
  match f.node? t with
  | some _ => f
  | none => ⟨f.nodes ++ [⟨t, none⟩]⟩

/-- The representative of a type that is made a node first. -/
def find (f : Forest) (t : Ty) : Ty × Forest := ((f.register t).rep t, f.register t)

/-- Hangs the variable `v` below `target`. -/
def setParent (f : Forest) (v : Nat) (target : Ty) : Forest :=
  ⟨f.nodes.map fun node => if node.ty = .var v then { node with parent := some target } else node⟩

/-! ### Resolution -/

/-- Resolves through at most so many levels of functions; there is no answer if a
deeper one is met. -/
def resolveWithin (f : Forest) : Nat → Ty → Option Ty
  | 0, _ => none
  | levels + 1, t =>
    match f.rep t with
    | .fn a b => do
      let dom ← f.resolveWithin levels a
      let cod ← f.resolveWithin levels b
      return .fn dom cod
    | r => some r

/-- The number of constructors in all nodes. -/
def weight (f : Forest) : Nat := f.nodes.foldr (fun node total => node.ty.size + total) 0

/-- A type with every part replaced by its representative, all the way down. The forest
does not change. -/
def resolve (f : Forest) (t : Ty) : Ty := (f.resolveWithin (f.weight + t.size + 1) t).getD t

end Forest

end HindleyMilner
