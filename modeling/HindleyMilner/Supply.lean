/-!
# Supplies of fresh type variables

A supply hands out type variables in ascending order, starting at `next`. Two kinds of supply count
in 64 bits and differ at the end of the range: an owned one refuses to count on, a shared one starts
again at zero. Neither can reserve the last index, since nothing above it is left. An unbounded
supply counts on for ever and says what the other two approximate.

`Draw` is the monad of computations that take variables from a supply; there is no result when the
supply is exhausted.
-/

namespace HindleyMilner

namespace Supply

inductive Mode where
  | owned
  | shared
  | unbounded
  deriving DecidableEq, Repr

/-- The number of indices that 64 bits can hold. -/
def indexCount : Nat := UInt64.size

end Supply

structure Supply where
  mode : Supply.Mode := .owned
  /-- The index of the variable that comes next. -/
  next : Nat := 0
  deriving DecidableEq, Repr, Inhabited

namespace Supply

/-- The index after `n`, if the mode can count that far. -/
def Mode.succ? : Mode → Nat → Option Nat
  | owned, n => if n + 1 < indexCount then some (n + 1) else none
  | shared, n => some ((n + 1) % indexCount)
  | unbounded, n => some (n + 1)

/-- The index from which on all are above `used`, if the mode has one. -/
def Mode.above? : Mode → Nat → Option Nat
  | unbounded, used => some (used + 1)
  | _, used => if used + 1 < indexCount then some (used + 1) else none

def fresh (s : Supply) : Option (Nat × Supply) :=
  (s.mode.succ? s.next).map fun next => (s.next, { s with next })

/-- Makes every variable drawn from here on larger than `used`. -/
def reserve (used : Nat) (s : Supply) : Option Supply :=
  (s.mode.above? used).map fun least => { s with next := max s.next least }

end Supply

abbrev Draw := StateT Supply Option

namespace Draw

def fresh : Draw Nat := fun s => s.fresh

def reserve (used : Nat) : Draw Unit := fun s => (s.reserve used).map ((), ·)

/-- Draws a variable for each of the listed ones, in their order. -/
def freshFor : List Nat → Draw (List (Nat × Nat))
  | [] => pure []
  | v :: rest => do
    let w ← fresh
    let pairs ← freshFor rest
    return (v, w) :: pairs

end Draw

end HindleyMilner
