import HindleyMilner.Log.Event
import HindleyMilner.Text.Escaped

/-!
# The logger

A logger prints nothing until a level is installed. The first level installed stays in force.
-/

namespace HindleyMilner.Log

structure Logger where
  threshold : Option Level := none
  deriving DecidableEq, Repr

namespace Logger

def install (logger : Logger) (level : Level) : Logger := ⟨logger.threshold.or (some level)⟩

def prints (logger : Logger) (event : Event) : Bool :=
  match logger.threshold with
  | none => false
  | some level => level.rank ≤ event.level.rank

/-- The lines that come out for a run's events. -/
def lines (logger : Logger) (events : List Event) : List String :=
  (events.filter logger.prints).flatMap fun event => Text.printedLines event.line

end Logger

end HindleyMilner.Log
