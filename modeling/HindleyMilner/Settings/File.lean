import HindleyMilner.Settings.Override
import HindleyMilner.Settings.Reader

/-!
# Settings files

A settings file is a document as bytes. What can go wrong with it is told together with what was
being done at the time.
-/

namespace HindleyMilner.Settings

inductive FileError where
  | missing
  | notText
  | malformed
  | badOverride (error : OverrideError)
  deriving DecidableEq, Repr

/-- What was being done when the error arose. -/
def FileError.context (path : String) : FileError → String
  | missing => "reading config file " ++ path
  | notText => "reading config file " ++ path
  | malformed => "parsing config file " ++ path
  | badOverride _ => "applying environment overrides"

/-- The settings of a file with the given contents, or of no file. -/
def ofFile (contents : Option ByteArray) : Except FileError Settings :=
  match contents with
  | none => .error .missing
  | some bytes =>
    match String.fromUTF8? bytes with
    | none => .error .notText
    | some text =>
      match ofDocument? text with
      | none => .error .malformed
      | some settings => .ok settings

/-- The settings of a file under the overrides of the environment. -/
def load (contents : Option ByteArray) (environment : String → Option String) :
    Except FileError Settings := do
  let settings ← ofFile contents
  (settings.withOverrides environment).mapError .badOverride

/-- The defaults under the overrides of the environment. -/
def ofEnvironment (environment : String → Option String) : Except OverrideError Settings :=
  defaults.withOverrides environment

end HindleyMilner.Settings
