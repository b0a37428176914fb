import HindleyMilner.Proofs.Text.Legible

/-!
# Words

A word is a run of letters, digits, underscores and minus signs, and is read as far as it goes, so
only one word can be the beginning of a text. Identifiers are the words that can be names; integers
and the reserved words are words too, and none of them is an identifier.
-/

namespace HindleyMilner.Text

variable {w w' : String} {rest rest' : List Char}

/-! ### Words -/

/-- What literals, names and keywords are made of. -/
def isWordChar (c : Char) : Bool := c.isAlphanum || c = '_' || c = '-'

def IsWord (w : String) : Prop := w.toList ≠ [] ∧ w.toList.all isWordChar = true

instance (w : String) : Decidable (IsWord w) :=
  inferInstanceAs (Decidable (w.toList ≠ [] ∧ w.toList.all isWordChar = true))

/-- Nothing follows that would make a word longer. -/
abbrev EndsWord (rest : List Char) : Prop := Stops (fun c => isWordChar c = false) rest

private theorem IsWord.forall_mem (hw : IsWord w) : ∀ c ∈ w.toList, isWordChar c = true :=
  List.all_eq_true.mp hw.2

theorem IsWord.append_inj (hw : IsWord w) (hw' : IsWord w') (hrest : EndsWord rest)
    (hrest' : EndsWord rest') (heq : w.toList ++ rest = w'.toList ++ rest') :
    w = w' ∧ rest = rest' := by
  have hwords : w.toList = w'.toList := by
    rw [← takeWhile_append_of_stops hw.forall_mem hrest, heq,
      takeWhile_append_of_stops hw'.forall_mem hrest']
  rw [hwords, List.append_cancel_left_eq] at heq
  exact ⟨String.toList_inj.mp hwords, heq⟩

theorem IsWord.append_ne_cons (hw : IsWord w) {mark : Char} (hmark : isWordChar mark = false) :
    w.toList ++ rest ≠ mark :: rest' := by
  intro heq
  obtain ⟨c, chars, hchars⟩ := List.exists_cons_of_ne_nil hw.1
  rw [hchars, List.cons_append, List.cons.injEq] at heq
  have hc := hw.forall_mem c (by simp [hchars])
  rw [heq.1, hmark] at hc
  cases hc

/-! ### Identifiers -/

def isLetter (c : Char) : Bool := c.isAlpha || c = '_'

def keywords : List String := ["let", "in"]

/-- Words that cannot be names. -/
def reserved : List String := keywords ++ ["true", "false"]

theorem isWord_of_mem_keywords : ∀ w ∈ keywords, IsWord w := by decide

theorem head_of_mem_reserved : ∀ w ∈ reserved, w.toList.head?.any isLetter = true := by decide

/-- A letter or an underscore, followed by letters, digits and underscores; and not reserved. -/
def IsIdentifier (name : String) : Prop :=
  name.toList.head?.any isLetter = true ∧
    (name.toList.all fun c => isLetter c || c.isDigit) = true ∧ name ∉ reserved

instance (name : String) : Decidable (IsIdentifier name) :=
  inferInstanceAs
    (Decidable (name.toList.head?.any isLetter = true ∧
    (name.toList.all fun c => isLetter c || c.isDigit) = true ∧ name ∉ reserved))

theorem IsIdentifier.isWord (h : IsIdentifier w) : IsWord w := by
  constructor
  · intro hnil
    simp [IsIdentifier, hnil] at h
  · rw [List.all_eq_true]
    intro c hc
    have hletter := List.all_eq_true.mp h.2.1 c hc
    grind [isLetter, isWordChar, Char.isAlphanum]

/-! ### Integers -/

private theorem toString_ofNat (n : Nat) : toString (Int.ofNat n) = toString n := rfl

private theorem toString_negSucc (n : Nat) : toString (Int.negSucc n) = "-" ++ toString (n + 1) :=
  rfl

private theorem mem_toString_int {value : Int} {c : Char} (hc : c ∈ (toString value).toList) :
    c.isDigit = true ∨ c = '-' := by
  cases value with
  | ofNat n => exact .inl (isDigit_of_mem_toString hc)
  | negSucc n =>
    rw [toString_negSucc, String.toList_append, List.mem_append] at hc
    cases hc with
    | inl hsign => exact .inr (List.mem_singleton.mp hsign)
    | inr hdigit => exact .inl (isDigit_of_mem_toString hdigit)

theorem isWord_toString_int (value : Int) : IsWord (toString value) := by
  constructor
  · cases value with
    | ofNat n => rw [toString_ofNat]; simp
    | negSucc n => rw [toString_negSucc]; simp
  · rw [List.all_eq_true]
    intro c hc
    cases mem_toString_int hc with
    | inl hdigit => simp [isWordChar, Char.isAlphanum, hdigit]
    | inr hsign => rw [hsign]; decide

private theorem not_isLetter_of_isDigit {c : Char} (hc : c.isDigit = true) :
    isLetter c = false := by
  have hmark : c ≠ '_' := ne_of_isDigit hc rfl
  -- Both classes of letters are intervals of code points above the digits.
  show (decide ('A'.val ≤ c.val ∧ c.val ≤ 'Z'.val) || decide ('a'.val ≤ c.val) && decide
    (c.val ≤ 'z'.val) || decide (c = '_')) = false
  grind [Char.isDigit]

theorem toString_int_ne (value : Int) (hw : w.toList.head?.any isLetter = true) :
    toString value ≠ w := by
  intro heq
  cases hhead : w.toList.head? with
  | none => simp [hhead] at hw
  | some c =>
    rw [hhead, Option.any_some] at hw
    have hmem : c ∈ (toString value).toList := heq ▸ List.mem_of_mem_head? hhead
    cases mem_toString_int hmem with
    | inl hdigit => simp [not_isLetter_of_isDigit hdigit] at hw
    | inr hsign =>
      subst hsign
      cases hw

theorem toString_negSucc_ne (m n : Nat) : toString (Int.negSucc m) ≠ toString (Int.ofNat n) := by
  intro heq
  have hsign : '-' ∈ (toString n).toList := by
    rw [← toString_ofNat, ← heq, toString_negSucc]
    simp
  exact absurd (isDigit_of_mem_toString hsign) (by decide)

theorem toString_int_injective {m n : Int} (heq : toString m = toString n) : m = n := by
  cases m with
  | ofNat m =>
    cases n with
    | ofNat n => rw [toString_injective (congrArg String.toList heq)]
    | negSucc n => exact absurd heq.symm (toString_negSucc_ne n m)
  | negSucc m =>
    cases n with
    | ofNat n => exact absurd heq (toString_negSucc_ne m n)
    | negSucc n =>
      have hlists := congrArg String.toList heq
      simp only [toString_negSucc, String.toList_append, List.append_cancel_left_eq] at hlists
      rw [Nat.succ.inj (toString_injective hlists)]

end HindleyMilner.Text
