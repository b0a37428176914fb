import HindleyMilner.Settings
import HindleyMilner.Settings.Value

/-!
# Reading settings

A settings document is one group of entries in parentheses, with the word `EngineConfig` in front or
not, and nothing behind. Entries come in any order, separated by commas; one comma may follow the
last. A setting may occur once. An entry with another name is passed over, whatever its value is, as
long as it is well formed.
-/

namespace HindleyMilner.Settings

/-! ### Settings found so far -/

structure Draft where
  algorithm : Option Algorithm := none
  firstVar : Option UInt64 := none
  logLevel : Option Log.Level := none
  deriving DecidableEq, Repr

namespace Draft

/-- Records an entry, unless its setting has been found before. -/
def add? (draft : Draft) : Entry → Option Draft
  | .algorithm value =>
    if draft.algorithm.isSome then none else some { draft with algorithm := some value }
  | .firstVar value =>
    if draft.firstVar.isSome then none else some { draft with firstVar := some value }
  | .logLevel value =>
    if draft.logLevel.isSome then none else some { draft with logLevel := some value }

def settings (draft : Draft) : Settings where
  algorithm := draft.algorithm.getD defaults.algorithm
  firstVar := draft.firstVar.getD defaults.firstVar
  logLevel := draft.logLevel.getD defaults.logLevel

end Draft

/-! ### Entries -/

def isSetting (name : String) : Bool :=
  name = "algorithm" || name = "first_var" || name = "log_level"

/-- Reads the value of a setting. -/
def readSetting (name : String) (cs : List Char) : Option (Entry × List Char) :=
  if name = "first_var" then do
    let value ← Numeral.word? (cs.takeWhile Numeral.isNumeralChar)
    return (.firstVar value, cs.dropWhile Numeral.isNumeralChar)
  else do
    let (word, rest) ← Word.read? cs
    if name = "algorithm" then return (.algorithm (← Algorithm.ofLabel? word.name), rest)
    else if name = "log_level" then return (.logLevel (← Log.Level.ofKeyword? word.name), rest)
    else none

/-- The levels of nesting in a document, its group included. -/
def levelLimit : Nat := 128

/-- Reads the value after a name and a colon, and records it if it is a setting. -/
def readEntry (extensions : List Extension) (draft : Draft) (name : String) (cs : List Char) :
    Option (Draft × List Char) :=
  if isSetting name then do
    let (entry, rest) ← readSetting name cs
    return (← draft.add? entry, rest)
  else do
    let rest ← skipValue extensions (levelLimit - 2) cs
    return (draft, rest)

/-- Reads entries up to the closing parenthesis. The number bounds how many there are. -/
def readEntries (extensions : List Extension) : Nat → Draft → List Char → Option (Draft × List Char)
  | 0, _, _ => none
  | _ + 1, draft, ')' :: rest => some (draft, rest)
  | count + 1, draft, cs => do
    let (word, rest) ← Word.readSpaced? cs
    let (draft, rest) ← readEntry extensions draft word.name (← skipMark ':' rest)
    match ← skipSpace rest with
    | ',' :: rest => readEntries extensions count draft (← skipSpace rest)
    | ')' :: rest => some (draft, rest)
    | _ => none

/-- Passes over the name in front of the group, which is there by choice or because an
extension demands it. -/
def skipGroupName (extensions : List Extension) (cs : List Char) : Option (List Char) :=
  match Word.readSpaced? cs with
  | some (word, rest) => if word.name = "EngineConfig" then some rest else none
  | none => if extensions.contains .explicitStructNames then none else some cs

/-- Reads a document; there is no answer if it is malformed. -/
def ofDocument? (text : String) : Option Settings := do
  let cs ← skipSpace text.toList
  let (extensions, cs) ← readAttributes cs.length cs
  let cs ← skipMark '(' (← skipGroupName extensions cs)
  let (draft, rest) ← readEntries extensions (cs.length + 1) {} cs
  match ← skipSpace rest with
  | [] => some draft.settings
  | _ => none

end HindleyMilner.Settings
