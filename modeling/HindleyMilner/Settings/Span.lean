import HindleyMilner.Settings.Quotation

/-!
# Numbers and spans of a settings document

A number is a numeral or a byte between quotes. A span is two dots with a number on both sides, on
one, or on none; an equals sign after the dots says that the number after it is the last one and has
to be there. No space may stand inside a span.
-/

namespace HindleyMilner.Settings

namespace Numeral

/-- What may stand in a numeral, at whatever place. -/
def isNumeralChar (c : Char) : Bool := c.isAlphanum || c = '_' || c = '.' || c = '+' || c = '-'

/-- The characters before the first two dots in a row. -/
def beforeDots : List Char → List Char
  | [] => []
  | '.' :: '.' :: _ => []
  | c :: rest => c :: beforeDots rest

end Numeral

def skipNumeral (cs : List Char) : Option (List Char) :=
  let numeral := Numeral.beforeDots (cs.takeWhile Numeral.isNumeralChar)
  if Numeral.isNumber numeral then some (cs.drop numeral.length) else none

def skipNumber (cs : List Char) : Option (List Char) := Quotation.byte.skip cs <|> skipNumeral cs

/-- The rest of a span after its dots. -/
def skipSpanEnd : Skip
  | '=' :: rest => skipNumber rest
  | rest => some ((skipNumber rest).getD rest)

/-- Passes over a number, and over the span that it may be the first bound of, or over a span
without a first bound. -/
def skipSpan (cs : List Char) : Option (List Char) := do
  let rest ← if cs.take 2 = ['.', '.'] then some cs else skipNumber cs
  match rest with
  | '.' :: '.' :: rest => skipSpanEnd rest
  | _ => some rest

end HindleyMilner.Settings
