import HindleyMilner.Forest.Unification
import HindleyMilner.Log.Event

/-!
# Sessions

Inference works on a session: a supply of variables, a forest of types, and the events so far. A
step that fails leaves the session as it was at that point, so nothing that happened before is
undone. Besides a type error there is one more way to fail: the supply can run out.
-/

namespace HindleyMilner

structure Session where
  supply : Supply
  forest : Forest := ∅
  events : Array Log.Event := #[]

inductive Failure where
  | illTyped (error : TypeError)
  | exhausted
  deriving DecidableEq, Repr

namespace Failure

def message : Failure → String
  | illTyped error => error.message
  | exhausted => "attempt to add with overflow"

end Failure

abbrev Infer := ExceptT Failure (StateM Session)

namespace Infer

/-- A computation goes on from the result of the one before, or stops with its failure. -/
theorem bind_apply {α β : Type} (x : Infer α) (f : α → Infer β) (s : Session) :
    (x >>= f) s =
      match x s with
      | (.ok a, s) => f a s
      | (.error e, s) => (.error e, s) := by
  change (ExceptT.bindCont f (x s).1 : StateM Session _) (x s).2 = _
  rcases x s with ⟨_ | _, _⟩ <;> rfl

@[simp] theorem pure_apply {α : Type} (a : α) (s : Session) : (pure a : Infer α) s = (.ok a, s) :=
  rfl

@[simp] theorem throw_apply {α : Type} (e : Failure) (s : Session) :
    (throw e : Infer α) s = (.error e, s) :=
  rfl

def report (event : Log.Event) : Infer Unit :=
  modify fun s => { s with events := s.events.push event }

def draw {α : Type} (d : Draw α) : Infer α := do
  match d (← get).supply with
  | none => throw .exhausted
  | some (a, supply) =>
    modify fun s => { s with supply }
    return a

def fresh : Infer Ty := .var <$> draw Draw.fresh

def lookup (Γ : Context) (name : String) : Infer Ty :=
  match Γ.get? name with
  | none => throw (.illTyped (.unbound name))
  | some scheme => draw scheme.instantiate

def find (t : Ty) : Infer Ty := do
  let (r, forest) := (← get).forest.find t
  modify fun s => { s with forest }
  return r

def resolve (t : Ty) : Infer Ty := do return (← get).forest.resolve t

def unify (a b : Ty) : Infer Unit := do
  let attempt := (← get).forest.unify a b
  let events := attempt.compared.map fun (left, right) => Log.Event.unifying left right
  modify fun s => { s with forest := attempt.forest, events := s.events ++ events }
  match attempt.outcome with
  | .ok () => return
  | .error e => throw (.illTyped e)

/-- The type error of a computation as a value; running out of variables stays a failure. -/
def outcome {α : Type} (act : Infer α) : Infer (Except TypeError α) := fun s =>
  match act s with
  | (.ok a, s) => (.ok (.ok a), s)
  | (.error (.illTyped e), s) => (.ok (.error e), s)
  | (.error .exhausted, s) => (.error .exhausted, s)

end Infer

end HindleyMilner
