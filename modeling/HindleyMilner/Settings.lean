import HindleyMilner.Log.Level

/-!
# Settings

What an engine can be told: which algorithm to run, the index of the first variable, and the level
of the log. A document sets each of them at most once and leaves the others at their defaults, so
its contents are a list of `Entry`s.
-/

namespace HindleyMilner

/-- Algorithm W carries what it learns in substitutions, algorithm J in a forest of types. -/
inductive Algorithm where
  | w
  | j
  deriving DecidableEq, Repr, Inhabited

namespace Algorithm

def label : Algorithm → String
  | w => "W"
  | j => "J"

def ofLabel? (text : String) : Option Algorithm := [w, j].find? (·.label = text)

/-- Reads the letter of an algorithm in either case; otherwise says what was expected. -/
def ofText (text : String) : Except String Algorithm :=
  if text = "w" ∨ text = "W" then .ok w
  else if text = "j" ∨ text = "J" then .ok j
  else .error ("unknown algorithm '" ++ text ++ "', expected W or J")

end Algorithm

structure Settings where
  algorithm : Algorithm := .w
  firstVar : UInt64 := 0
  logLevel : Log.Level := .info
  deriving DecidableEq, Repr

namespace Settings

def defaults : Settings := {}

instance : Inhabited Settings := ⟨defaults⟩

/-- One line of a settings document. -/
inductive Entry where
  | algorithm (value : Algorithm)
  | firstVar (value : UInt64)
  | logLevel (value : Log.Level)
  deriving DecidableEq, Repr

def entries (settings : Settings) : List Entry :=
  [.algorithm settings.algorithm, .firstVar settings.firstVar, .logLevel settings.logLevel]

/-! ### Written form -/

def Entry.render : Entry → String
  | algorithm value => "    algorithm: " ++ value.label ++ ",\n"
  | firstVar value => "    first_var: " ++ toString value.toNat ++ ",\n"
  | logLevel value => "    log_level: " ++ value.keyword ++ ",\n"

def renderEntries (entries : List Entry) : String :=
  "(\n" ++ String.join (entries.map Entry.render) ++ ")"

def render (settings : Settings) : String := renderEntries settings.entries

end Settings

end HindleyMilner
