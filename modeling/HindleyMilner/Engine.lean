import HindleyMilner.Inference.Principal
import HindleyMilner.Settings

/-!
# The engine

An engine has settings and a supply of its own. It answers one question after the other, and since
the supply goes on where the last question left it, no two answers share a fresh variable.
-/

namespace HindleyMilner

structure Engine where
  settings : Settings
  supply : Supply
  deriving DecidableEq, Repr

/-- What a question to an engine brings: an answer or a failure, the engine from there on, and
what was reported. -/
structure Reply (α : Type) where
  answer : Except Failure α
  engine : Engine
  events : List Log.Event

namespace Engine

def version : String := "0.1.0"

/-- An engine whose first variable is the one that the settings name. -/
def start (settings : Settings) : Engine := ⟨settings, { next := settings.firstVar.toNat }⟩

def run {α : Type} (engine : Engine) (act : Infer α) : Reply α :=
  let (answer, session) := act { supply := engine.supply }
  ⟨answer, { engine with supply := session.supply }, session.events.toList⟩

def infer (engine : Engine) (Γ : Context) (term : Term) : Reply Ty := engine.run do
  let result ← Infer.outcome (Infer.principalType Γ term engine.settings.algorithm)
  Infer.report (.inferred Γ term result engine.settings.algorithm)
  match result with
  | .ok t => return t
  | .error e => throw (.illTyped e)

def inferScheme (engine : Engine) (Γ : Context) (term : Term) : Reply Scheme := engine.run do
  let scheme ← Infer.principalScheme Γ term engine.settings.algorithm
  Infer.report (.generalized Γ term scheme)
  return scheme

/-- The results of both algorithms, whatever the settings say. -/
def checkAgreement (engine : Engine) (Γ : Context) (term : Term) : Reply Agreement :=
  engine.run (Infer.compare Γ term)

end Engine

end HindleyMilner
