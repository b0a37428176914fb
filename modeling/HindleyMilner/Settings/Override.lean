import HindleyMilner.Settings
import HindleyMilner.Text.Characters

/-!
# Overrides

Two settings can be overridden from outside, by variables of the environment: the algorithm and the
level of the log. Blanks around a value do not count. The algorithm is looked at first, so it is
what an error is about when both values are bad.
-/

namespace HindleyMilner.Settings

structure OverrideError where
  key : String
  reason : String
  deriving DecidableEq, Repr

def OverrideError.message (e : OverrideError) : String :=
  "Invalid value for " ++ e.key ++ ": " ++ e.reason

def algorithmKey : String := "MINIHM_ALGORITHM"

def logKey : String := "MINIHM_LOG"

/-- The value of a variable that is set, or `current`. -/
def readOverride {α : Type} (environment : String → Option String) (key : String)
    (read : String → Except String α) (current : α) :
    Except OverrideError α :=
  match environment key with
  | none => .ok current
  | some value =>
    match read (Text.trimmed value) with
    | .ok a => .ok a
    | .error reason => .error ⟨key, reason⟩

def withOverrides (settings : Settings) (environment : String → Option String) :
    Except OverrideError Settings := do
  let algorithm ← readOverride environment algorithmKey Algorithm.ofText settings.algorithm
  let logLevel ← readOverride environment logKey Log.Level.ofText settings.logLevel
  return { settings with algorithm, logLevel }

end HindleyMilner.Settings
