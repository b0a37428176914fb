import HindleyMilner.Settings.Attribute
import HindleyMilner.Settings.Span

/-!
# Values that are passed over

The value of an entry that is no setting may be anything well formed: a number or a span, a text, a
word, a group in parentheses with a word in front or not, a list in brackets, or a map in braces.
Nesting is limited: a group, a list or a map takes one level and each of its members another, and
`Some` takes one level.
-/

namespace HindleyMilner.Settings

/-! ### Members -/

/-- What the members of a bracketed value look like. -/
inductive Member where
  | item
  | field
  | pair
  deriving DecidableEq, Repr

namespace Member

/-- A group in parentheses has fields if it starts with a word and a colon, and items otherwise. -/
def ofGroup (cs : List Char) : Member :=
  match Word.readSpaced? cs with
  | some (_, ':' :: _) => field
  | _ => item

def skip (value : Skip) : Member → Skip
  | item, cs => value cs
  | field, cs => do
    let (_, rest) ← Word.readSpaced? cs
    value (← skipMark ':' rest)
  | pair, cs => do
    let rest ← skipSpace (← value cs)
    value (← skipMark ':' rest)

end Member

/-- Passes over members with commas between them, and the closing mark. The number bounds how
many there are. -/
def skipMembers (member : Skip) (close : Char) : Nat → Skip
  | 0, _ => none
  | count + 1, cs => do
    match ← skipSpace cs with
    | [] => none
    | c :: rest =>
      if c = close then some rest
      else
        match ← skipSpace (← member (c :: rest)) with
        | ',' :: rest => skipMembers member close count rest
        | c :: rest => if c = close then some rest else none
        | [] => none

/-! ### Counting members ahead -/

/-- Passes over a character, a string and a byte string, as far as they are there. -/
def skipTexts (cs : List Char) : List Char :=
  [Quotation.character, .string, .bytes].foldl (fun cs quotation => (quotation.skip cs).getD cs) cs

/-- Whether a group has a second member, judged by its commas and brackets alone. A text is passed
over wherever its quote stands, and a byte between quotes is not known as one: its letter is passed
over first. The numbers bound the length and count the brackets that are open inside the group. -/
def hasSeveral : Nat → Nat → List Char → Option Bool
  | 0, _, _ => none
  | bound + 1, depth, cs => do
    match skipTexts (← skipSpace cs) with
    | [] => none
    | c :: rest =>
      if "([\x7b".toList.contains c then hasSeveral bound (depth + 1) rest
      else if ")]\x7d".toList.contains c then
        if depth = 0 then some false else hasSeveral bound (depth - 1) rest
      else if c = ',' ∧ depth = 0 then return (← skipSpace rest).head? ≠ some ')'
      else hasSeveral bound depth rest

/-- Whether the contents of `Some` are those of a group rather than one value. A word in front is
left out of the count. -/
def isGroup (cs : List Char) : Option Bool := do
  let rest := match Word.read? cs with
    | none => cs
    | some (_, rest) => rest
  if Member.ofGroup cs = .field then some true else hasSeveral (rest.length + 1) 0 rest

/-! ### Values -/

/-- The readers for what lies one and two levels deeper, as far as there are such levels. -/
structure Deeper where
  once : Option Skip
  twice : Option Skip

namespace Deeper

/-- The rest of a bracketed value after its opening mark. -/
def skipMembers (deeper : Deeper) (member : Member) (close : Char) (cs : List Char) :
    Option (List Char) :=
  match deeper.once, deeper.twice with
  | none, _ => none
  | some _, none => Settings.skipMembers (fun _ => none) close (cs.length + 1) cs
  | some _, some value => Settings.skipMembers (member.skip value) close (cs.length + 1) cs

/-- The rest of a group after its opening parenthesis. -/
def skipGroup (deeper : Deeper) (cs : List Char) : Option (List Char) := do
  let cs ← skipSpace cs
  deeper.skipMembers (.ofGroup cs) ')' cs

/-- What may follow a word: a group, or nothing. -/
def skipArguments (deeper : Deeper) : Skip
  | '(' :: rest => deeper.skipGroup rest
  | cs => some cs

/-- One value after an opening parenthesis, and the closing one; a comma may follow the value. -/
def skipWrapped (value : Skip) (cs : List Char) : Option (List Char) := do
  let rest ← match ← skipSpace (← value cs) with
    | ',' :: rest => skipSpace rest
    | rest => some rest
  match rest with
  | ')' :: rest => some rest
  | _ => none

/-- What follows the word `Some`. -/
def skipOption (deeper : Deeper) (extensions : List Extension) (cs : List Char) :
    Option (List Char) := do
  let value ← deeper.once
  match cs with
  | '(' :: inner =>
    let inner ← skipSpace inner
    if extensions.contains .unwrapVariantNewtypes then
      if inner.head? = some ')' then some inner.tail
      else if ← isGroup inner then value ('(' :: inner)
      else skipWrapped value inner
    else skipWrapped value inner
  | _ => if extensions.contains .implicitSome then value cs else none

end Deeper

/-- Words that are values by themselves: no group can follow them. -/
def constants : List String := ["true", "false", "None"]

/-- A value that starts with a word; the limits of fractions are numbers. -/
def skipWord (extensions : List Extension) (deeper : Deeper) (word : Word) (cs rest : List Char) :
    Option (List Char) := do
  if !word.raw && Numeral.limits.contains word.name then skipSpan cs
  else if !word.raw && constants.contains word.name then some rest
  else
    let rest ← skipSpace rest
    if word = ⟨"Some", false⟩ then deeper.skipOption extensions rest else deeper.skipArguments rest

def skipPlain (deeper : Deeper) : Skip
  | '(' :: ')' :: rest => some rest
  | '(' :: rest => deeper.skipGroup rest
  | '[' :: rest => deeper.skipMembers .item ']' rest
  | '\x7b' :: rest => deeper.skipMembers .pair '\x7d' rest
  | cs =>
    Quotation.string.skip cs <|> Quotation.bytes.skip cs <|> Quotation.character.skip cs <|>
      skipSpan cs

def skipShallow (extensions : List Extension) (deeper : Deeper) (cs : List Char) :
    Option (List Char) :=
  match Word.read? cs with
  | some (word, rest) => skipWord extensions deeper word cs rest
  | none => skipPlain deeper cs

/-- Passes over a value that may have so many levels. -/
def skipValue (extensions : List Extension) : Nat → Skip
  | 0, cs => skipShallow extensions ⟨none, none⟩ cs
  | 1, cs => skipShallow extensions ⟨some (skipValue extensions 0), none⟩ cs
  | levels + 2, cs =>
    skipShallow extensions
      ⟨some (skipValue extensions (levels + 1)), some (skipValue extensions levels)⟩ cs

end HindleyMilner.Settings
