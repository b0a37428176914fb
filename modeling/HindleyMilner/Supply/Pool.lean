import HindleyMilner.Supply

/-!
# Handles to supplies

Several parties can draw from supplies through numbered handles. Cloning the handle of an owned or
unbounded supply copies the supply, and from then on the two count on their own; cloning the handle
of a shared supply gives one more handle to the same counter.
-/

namespace HindleyMilner.Supply

structure Pool where
  supplies : List Supply
  /-- For each handle, the position of its supply. -/
  handles : List Nat
  deriving DecidableEq, Repr

namespace Pool

/-- Why a request through a handle has no answer. -/
inductive Fault where
  | noSuchHandle
  | exhausted
  deriving DecidableEq, Repr

/-- A pool of one supply, with handle zero. -/
def single (s : Supply) : Pool := ⟨[s], [0]⟩

def supply? (pool : Pool) (handle : Nat) : Option Supply := do
  let position ← pool.handles[handle]?
  pool.supplies[position]?

def put (pool : Pool) (handle : Nat) (s : Supply) : Pool :=
  match pool.handles[handle]? with
  | some position => { pool with supplies := pool.supplies.set position s }
  | none => pool

def fresh (pool : Pool) (handle : Nat) : Except Fault (Nat × Pool) :=
  match pool.supply? handle with
  | none => .error .noSuchHandle
  | some s =>
    match s.fresh with
    | none => .error .exhausted
    | some (v, s) => .ok (v, pool.put handle s)

def reserve (pool : Pool) (handle used : Nat) : Except Fault Pool :=
  match pool.supply? handle with
  | none => .error .noSuchHandle
  | some s =>
    match s.reserve used with
    | none => .error .exhausted
    | some s => .ok (pool.put handle s)

/-- A new handle, whose number is returned. -/
def clone (pool : Pool) (handle : Nat) : Except Fault (Nat × Pool) :=
  match pool.handles[handle]?, pool.supply? handle with
  | some position, some s =>
    match s.mode with
    | .shared => .ok (pool.handles.length, { pool with handles := pool.handles ++ [position] })
    | _ => .ok (pool.handles.length, ⟨pool.supplies ++ [s], pool.handles ++ [pool.supplies.length]⟩)
  | _, _ => .error .noSuchHandle

end Pool

end HindleyMilner.Supply
