import HindleyMilner.Settings.Numeral
import HindleyMilner.Settings.Space

/-!
# Quoted texts of a settings document

Strings and byte strings stand between double quotes, or raw after the letter `r` between quotes
with any number of hashes around them. Characters and bytes stand between single quotes. No setting
is a text, so texts are passed over; what is checked is that their escapes make sense.
-/

namespace HindleyMilner.Settings

inductive Quotation where
  | string
  | bytes
  | character
  | byte
  deriving DecidableEq, Repr

namespace Quotation

/-! ### Escapes -/

def byte? : List Char → Option (Nat × List Char)
  | high :: low :: rest => do
    let high ← Numeral.digit? high
    let low ← Numeral.digit? low
    return (16 * high + low, rest)
  | _ => none

def isUtf8 (values : List Nat) : Bool :=
  (String.fromUTF8? ⟨(values.map Nat.toUInt8).toArray⟩).isSome

/-- After the head of a two-digit escape: digits, and further escapes until the bytes make a
character. At most so many escapes may be left, and some bytes have come before. -/
def skipCharBytes : Nat → List Nat → Skip
  | 0, _, _ => none
  | count + 1, before, cs => do
    let (value, rest) ← byte? cs
    if isUtf8 (before ++ [value]) then some rest
    else
      match rest with
      | '\\' :: 'x' :: rest => skipCharBytes count (before ++ [value]) rest
      | _ => none

/-- Up to six digits between braces, the code point of a character. -/
def skipCodePoint : Skip
  | '\x7b' :: rest =>
    let isDigit := fun c => (Numeral.digit? c).isSome
    let digits := rest.takeWhile isDigit
    match rest.dropWhile isDigit, Numeral.digits? 16 digits with
    | '\x7d' :: rest, some code => if digits.length ≤ 6 ∧ code.isValidChar then some rest else none
    | _, _ => none
  | _ => none

/-- An escape after its backslash. Bytes may be anything; in a string up to four make a character,
elsewhere one has to. -/
def skipEscape (quotation : Quotation) : Skip
  | [] => none
  | c :: rest =>
    if "\"'\\nrt0".toList.contains c then some rest
    else
      match c, quotation with
      | 'x', string => skipCharBytes 4 [] rest
      | 'x', character => skipCharBytes 1 [] rest
      | 'x', _ => (byte? rest).map Prod.snd
      | 'u', byte => none
      | 'u', _ => skipCodePoint rest
      | _, _ => none

/-! ### Texts -/

/-- The rest of a text up to its double quote. A backslash at the end of a line joins the next one.
The number bounds how many characters and escapes there are. -/
def skipLong (quotation : Quotation) : Nat → Skip
  | 0, _ => none
  | _ + 1, [] => none
  | count + 1, '\\' :: '\n' :: rest => quotation.skipLong count rest
  | count + 1, '\\' :: '\r' :: '\n' :: rest => quotation.skipLong count rest
  | count + 1, '\\' :: rest => do quotation.skipLong count (← quotation.skipEscape rest)
  | count + 1, c :: rest => if c = '"' then some rest else quotation.skipLong count rest

/-- Goes on behind the first place where the given characters stand. -/
def skipPast (mark : List Char) : Skip
  | [] => none
  | c :: rest =>
    if mark.isPrefixOf (c :: rest) then some ((c :: rest).drop mark.length) else skipPast mark rest

/-- A raw text after its letters. As many hashes as before it end it. -/
def skipRaw (cs : List Char) : Option (List Char) :=
  match cs.dropWhile (· = '#') with
  | '"' :: rest => skipPast ('"' :: cs.takeWhile (· = '#')) rest
  | _ => none

/-- One character and the single quote behind it. -/
def skipSingle (quotation : Quotation) (cs : List Char) : Option (List Char) := do
  let rest ← match cs with
    | [] => none
    | '\\' :: rest => quotation.skipEscape rest
    | c :: rest => if quotation = byte ∧ 0x80 ≤ c.toNat then none else some rest
  match rest with
  | '\'' :: rest => some rest
  | _ => none

/-- Passes over a text of one sort. -/
def skip : Quotation → Skip
  | string, '"' :: rest => string.skipLong (rest.length + 1) rest
  | string, 'r' :: rest => skipRaw rest
  | bytes, 'b' :: '"' :: rest => bytes.skipLong (rest.length + 1) rest
  | bytes, 'b' :: 'r' :: rest => skipRaw rest
  | character, '\'' :: rest => character.skipSingle rest
  | byte, 'b' :: '\'' :: rest => byte.skipSingle rest
  | _, _ => none

end Quotation

end HindleyMilner.Settings
