import HindleyMilner.Settings.Space

/-!
# Words of a settings document

A word is a name. With `r#` in front it may also hold points and signs, and is never a keyword. The
letters `b` and `r` before a quote belong to a text and are no word.
-/

namespace HindleyMilner.Settings

structure Word where
  name : String
  raw : Bool := false
  deriving DecidableEq, Repr

namespace Word

def isRawChar (c : Char) : Bool := Text.isNameRest c || c = '.' || c = '+' || c = '-'

/-- Whether the beginning is that of a text with letters in front. -/
def startsText (cs : List Char) : Bool :=
  ["b\"", "b'", "br\"", "br#", "r\"", "r#\"", "r##"].any fun opening => opening.toList.isPrefixOf cs

/-- The word at the beginning, and the rest. -/
def read? (cs : List Char) : Option (Word × List Char) :=
  if startsText cs then none
  else
    match cs with
    | [] => none
    | 'r' :: '#' :: rest =>
      let name := rest.takeWhile isRawChar
      if name.isEmpty then none else some (⟨.ofList name, true⟩, rest.dropWhile isRawChar)
    | c :: rest =>
      if Text.isNameStart c then some (⟨.ofList (c :: rest.takeWhile Text.isNameRest), false⟩,
        rest.dropWhile Text.isNameRest)
      else none

/-- The word at the beginning, and what comes after it and the space behind it. -/
def readSpaced? (cs : List Char) : Option (Word × List Char) := do
  let (word, rest) ← read? cs
  return (word, ← skipSpace rest)

end Word

end HindleyMilner.Settings
