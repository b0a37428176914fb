import HindleyMilner.Settings.Quotation
import HindleyMilner.Settings.Word

/-!
# Attributes of a settings document

Attributes stand in front of a document, each in `#![…]`. One kind enables extensions of the
grammar; the other kind names the type or the schema of the document for tools, and is passed over.
-/

namespace HindleyMilner.Settings

inductive Extension where
  /-- Wrappers around one value may be left out. No setting is a wrapper. -/
  | unwrapNewtypes
  /-- `Some` needs no parentheses around its value. -/
  | implicitSome
  /-- The value of `Some` may be a group without parentheses of its own. -/
  | unwrapVariantNewtypes
  /-- The group of settings needs its name in front. -/
  | explicitStructNames
  deriving DecidableEq, Repr

namespace Extension

def keyword : Extension → String
  | unwrapNewtypes => "unwrap_newtypes"
  | implicitSome => "implicit_some"
  | unwrapVariantNewtypes => "unwrap_variant_newtypes"
  | explicitStructNames => "explicit_struct_names"

def all : List Extension :=
  [unwrapNewtypes, implicitSome, unwrapVariantNewtypes, explicitStructNames]

def ofKeyword? (text : String) : Option Extension := all.find? (·.keyword = text)

end Extension

/-- Reads extensions up to the closing parenthesis; a comma may follow the last. The number bounds
how many there are. -/
def readExtensions : Nat → List Char → Option (List Extension × List Char)
  | 0, _ => none
  | count + 1, cs => do
    let (word, rest) ← Word.readSpaced? cs
    let extension ← Extension.ofKeyword? word.name
    match rest with
    | ')' :: rest => return ([extension], rest)
    | ',' :: rest =>
      match ← skipSpace rest with
      | ')' :: rest => return ([extension], rest)
      | rest =>
        let (extensions, rest) ← readExtensions count rest
        return (extension :: extensions, rest)
    | _ => none

/-- Reads one attribute after its opening marks, up to the bracket at its end. -/
def readAttribute (cs : List Char) : Option (List Extension × List Char) := do
  let (word, rest) ← Word.readSpaced? cs
  if word = ⟨"enable", false⟩ then readExtensions (rest.length + 1) (← skipMark '(' rest)
  else if word = ⟨"type", false⟩ ∨ word = ⟨"schema", false⟩ then
    return ([], ← Quotation.string.skip (← skipMark '=' rest))
  else none

/-- All extensions that the attributes in front enable, and what comes after. The number bounds how
many attributes there are. -/
def readAttributes : Nat → List Char → Option (List Extension × List Char)
  | count + 1, '#' :: rest => do
    let rest ← skipMark '[' (← skipMark '!' (← skipSpace rest))
    let (enabled, rest) ← readAttribute rest
    let (others, rest) ← readAttributes count (← skipMark ']' (← skipSpace rest))
    return (enabled ++ others, rest)
  | _, cs => some ([], cs)

end HindleyMilner.Settings
