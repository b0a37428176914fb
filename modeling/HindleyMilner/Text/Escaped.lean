import HindleyMilner.Text.Characters

/-!
# Escaped text

Two forms of a text in which some characters are written as escapes: between quotes, for a
reader who has to see every character, and printed, for a terminal that must not be given
orders. An escape names a character by its code point in hexadecimal, by any number of digits
between braces or by two digits.
-/

namespace HindleyMilner.Text

def codePointEscape (c : Char) : String := "\\u\x7b" ++ .ofList (Nat.toDigits 16 c.toNat) ++ "\x7d"

/-- For code points below 256. -/
def byteEscape (c : Char) : String :=
  "\\x" ++ .ofList [Nat.digitChar (c.toNat / 16), Nat.digitChar (c.toNat % 16)]

/-!
### Quoted text

Text between double quotes. The quote and the backslash are written with a backslash, and so
are the commonest controls, by a letter; any other character that cannot be seen is written
by its code point.
-/

def escape (c : Char) : String :=
  if c = '"' then "\\\""
  else if c = '\\' then "\\\\"
  else if c = '\n' then "\\n"
  else if c = '\r' then "\\r"
  else if c = '\t' then "\\t"
  else if c.toNat = 0 then "\\0"
  else if isUnseen c then codePointEscape c
  else String.singleton c

def quoted (text : String) : String := "\"" ++ String.join (text.toList.map escape) ++ "\""

/-!
### Printed text

What a terminal gets to see of a text. Controls that a terminal would obey are written as escapes;
tabs and line breaks are left alone, so one text can make several lines.
-/

/-- The escape that stands for a control: bell, backspace, form feed, escape, delete, and all
controls beyond ASCII. -/
def disarm (c : Char) : String :=
  if 0x80 ≤ c.toNat ∧ c.toNat ≤ 0x9f then codePointEscape c
  else if [0x07, 0x08, 0x0c, 0x1b, 0x7f].contains c.toNat then byteEscape c
  else String.singleton c

/-- The lines of a text that a line break follows; a carriage return before a break
belongs to the break. -/
def splitLines : List Char → List (List Char)
  | [] => [[]]
  | ['\r'] => [[]]
  | '\n' :: rest => [] :: splitLines rest
  | '\r' :: '\n' :: rest => [] :: splitLines rest
  | c :: rest =>
    match splitLines rest with
    | [] => [[c]]
    | line :: lines => (c :: line) :: lines

def printedLines (text : String) : List String :=
  (splitLines (String.join (text.toList.map disarm)).toList).map .ofList

end HindleyMilner.Text
