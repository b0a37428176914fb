/-!
# Numerals of a settings document

An integer is decimal, or has `0x`, `0o` or `0b` in front of its digits; underscores may stand
anywhere after the first digit, a sign in front of it all, and the name of a format of machine
integers behind it. A decimal fraction has a point or an exponent, or is a whole number too
large for an integer.
-/

namespace HindleyMilner.Settings.Numeral

/-- The value of a digit in bases up to sixteen. -/
def digit? (c : Char) : Option Nat :=
  if c.isDigit then some (c.toNat - '0'.toNat)
  else if 'a' ≤ c ∧ c ≤ 'f' then some (c.toNat - 'a'.toNat + 10)
  else if 'A' ≤ c ∧ c ≤ 'F' then some (c.toNat - 'A'.toNat + 10)
  else none

/-- Whether the text has a minus sign, and the text without its sign. -/
def splitSign : List Char → Bool × List Char
  | '-' :: rest => (true, rest)
  | '+' :: rest => (false, rest)
  | text => (false, text)

/-! ### Integers -/

/-- Appends a digit to the number read so far; an underscore changes nothing. -/
def push (base : Nat) (value : Nat) (c : Char) : Option Nat :=
  if c = '_' then some value
  else
    match digit? c with
    | some d => if d < base then some (value * base + d) else none
    | none => none

/-- Digits in a base, the first of them no underscore. -/
def digits? (base : Nat) : List Char → Option Nat
  | [] => none
  | c :: rest => if c = '_' then none else (c :: rest).foldlM (push base) 0

def magnitude? : List Char → Option Nat
  | '0' :: 'x' :: rest => digits? 16 rest
  | '0' :: 'o' :: rest => digits? 8 rest
  | '0' :: 'b' :: rest => digits? 2 rest
  | cs => digits? 10 cs

structure Format where
  signed : Bool
  bits : Nat
  deriving DecidableEq, Repr

namespace Format

def all : List Format := [8, 16, 32, 64].flatMap fun bits => [⟨true, bits⟩, ⟨false, bits⟩]

def word : Format := ⟨false, 64⟩

def name (format : Format) : String := (if format.signed then "i" else "u") ++ toString format.bits

/-- The range of a signed format lies around zero, that of an unsigned one begins there. -/
def holds (format : Format) (negative : Bool) (magnitude : Nat) : Bool :=
  match format.signed, negative with
  | true, true => magnitude ≤ 1 <<< (format.bits - 1)
  | true, false => magnitude < 1 <<< (format.bits - 1)
  | false, true => magnitude = 0
  | false, false => magnitude < 1 <<< format.bits

end Format

structure Integer where
  negative : Bool
  magnitude : Nat
  /-- The format, if the numeral names one. -/
  format : Option Format
  deriving DecidableEq, Repr

def isIntegerChar (c : Char) : Bool := (digit? c).isSome || c = 'o' || c = 'x' || c = '_'

def integer? (text : List Char) : Option Integer := do
  let (negative, rest) := splitSign text
  let magnitude ← magnitude? (rest.takeWhile isIntegerChar)
  match rest.dropWhile isIntegerChar with
  | [] => return ⟨negative, magnitude, none⟩
  | suffix =>
    let format ← Format.all.find? fun format => format.name.toList = suffix
    return ⟨negative, magnitude, some format⟩

def Integer.fits (n : Integer) (format : Format) : Bool := format.holds n.negative n.magnitude

/-- Without a format of its own, an integer has to fit into 64 bits, with a sign if
it is negative. -/
def isInteger (text : List Char) : Bool :=
  match integer? text with
  | none => false
  | some n => n.fits (n.format.getD ⟨n.negative, 64⟩)

/-- An integer of an unsigned format with 64 bits. -/
def word? (text : List Char) : Option UInt64 := do
  let n ← integer? text
  if n.fits (n.format.getD .word) ∧
    n.format.getD .word = .word then some n.magnitude.toUInt64 else none

/-! ### Decimal fractions -/

def isFractionChar (c : Char) : Bool := c.isDigit || ['e', 'E', '.', '+', '-', '_'].contains c

/-- Drops the underscores. They may follow a digit or the letter of the exponent, but not the point,
and not come first. -/
def dropUnderscores (allowed : Bool) : List Char → Option (List Char)
  | [] => some []
  | c :: rest =>
    if c = '_' then if allowed then dropUnderscores allowed rest else none
    else do
      let rest ← dropUnderscores (c ≠ '.' && (allowed || c.isDigit || c = 'e' || c = 'E')) rest
      return c :: rest

def isExponent : List Char → Bool
  | [] => true
  | c :: rest =>
    let (_, digits) := splitSign rest
    (c = 'e' || c = 'E') && !digits.isEmpty && digits.all Char.isDigit

/-- Digits with at most one point among them, and an exponent or none. -/
def isDecimal (cs : List Char) : Bool :=
  let whole := cs.takeWhile Char.isDigit
  match cs.dropWhile Char.isDigit with
  | '.' :: rest =>
    let fraction := rest.takeWhile Char.isDigit
    !(whole.isEmpty && fraction.isEmpty) && isExponent (rest.dropWhile Char.isDigit)
  | rest => !whole.isEmpty && isExponent rest

def fractionFormats : List String := ["", "f32", "f64"]

def limits : List String := ["inf", "NaN"].flatMap fun limit => fractionFormats.map (limit ++ ·)

def isFraction (text : List Char) : Bool :=
  let plain := match dropUnderscores false (text.takeWhile isFractionChar) with
    | none => false
    | some digits =>
      isDecimal (splitSign digits).2 && fractionFormats.contains
        (.ofList (text.dropWhile isFractionChar))
  plain || limits.contains (.ofList (splitSign text).2)

def isNumber (text : List Char) : Bool := isInteger text || isFraction text

end HindleyMilner.Settings.Numeral
