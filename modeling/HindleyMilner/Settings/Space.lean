import HindleyMilner.Text.Characters

/-!
# Space in a settings document

Blanks and comments may stand between any two parts of a document. A `//` comment ends with the
line, and `/* */` comments nest.
-/

namespace HindleyMilner.Settings

/-- Passes over the beginning of a text and returns the rest. -/
abbrev Skip := List Char → Option (List Char)

/-- What kind of space the next character is in. -/
inductive Space where
  | blank
  | line
  /-- In a nesting comment, with so many others around it. -/
  | block (around : Nat)
  deriving DecidableEq, Repr

def Space.skip : Space → Skip
  | blank, [] => some []
  | blank, '/' :: '/' :: rest => line.skip rest
  | blank, '/' :: '*' :: rest => (block 0).skip rest
  | blank, c :: rest =>
    if Text.isSeparator c then blank.skip rest else if c = '/' then none else some (c :: rest)
  | line, [] => some []
  | line, c :: rest => if c = '\n' then blank.skip rest else line.skip rest
  | block _, [] => none
  | block around, '/' :: '*' :: rest => (block (around + 1)).skip rest
  | block 0, '*' :: '/' :: rest => blank.skip rest
  | block (around + 1), '*' :: '/' :: rest => (block around).skip rest
  | block around, _ :: rest => (block around).skip rest

def skipSpace : Skip := Space.blank.skip

/-- Passes over a mark and the space behind it. -/
def skipMark (mark : Char) : Skip
  | [] => none
  | c :: rest => if c = mark then skipSpace rest else none

end HindleyMilner.Settings
