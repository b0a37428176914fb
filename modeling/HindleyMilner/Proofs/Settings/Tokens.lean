import HindleyMilner.Proofs.Text.Legible
import HindleyMilner.Settings.Span
import HindleyMilner.Settings.Word

/-!
# Reading the parts of a settings document

What the readers of space, words and numbers make of a text whose beginning is known. Each of them
reads as far as it can, so they find what is there if something of another kind follows it.
-/

namespace HindleyMilner.Settings

open Text (Stops)

variable {gap rest text : List Char} {c : Char}

/-! ### Space -/

/-- Made of separators only. -/
def Blank (gap : List Char) : Prop := gap.all Text.isSeparator = true

instance (gap : List Char) : Decidable (Blank gap) :=
  inferInstanceAs (Decidable (gap.all Text.isSeparator = true))

private theorem blank_cons : Blank (c :: gap) ↔ Text.isSeparator c = true ∧ Blank gap := by
  rw [Blank, List.all_cons, Bool.and_eq_true, Blank]

theorem Blank.stops_append {P : Char → Prop} (hgap : Blank gap)
    (hblank : ∀ c, Text.isSeparator c = true → P c) (hrest : Stops P rest) :
    Stops P (gap ++ rest) := by
  cases gap with
  | nil => exact hrest
  | cons c gap => exact Text.stops_cons.mpr (hblank c (blank_cons.mp hgap).1)

/-- Can begin neither blanks nor comments. -/
def Solid (c : Char) : Prop := Text.isSeparator c = false ∧ c ≠ '/'

instance (c : Char) : Decidable (Solid c) := inferInstanceAs (Decidable (_ ∧ _))

theorem skipSpace_of_solid (hrest : Stops Solid rest) : skipSpace rest = some rest := by
  cases rest with
  | nil => rfl
  | cons c rest =>
    obtain ⟨hblank, hslash⟩ := Text.stops_cons.mp hrest
    simp [skipSpace, Space.skip, hblank, hslash]

theorem skipSpace_append (hgap : Blank gap) (hrest : Stops Solid rest) :
    skipSpace (gap ++ rest) = some rest := by
  induction gap with
  | nil => exact skipSpace_of_solid hrest
  | cons c gap ih =>
    obtain ⟨hc, hmore⟩ := blank_cons.mp hgap
    have hslash : c ≠ '/' := by
      intro heq
      subst heq
      cases hc
    simpa [skipSpace, Space.skip, hc, hslash] using ih hmore

theorem skipMark_append (mark : Char) (hgap : Blank gap) (hrest : Stops Solid rest) :
    skipMark mark (mark :: (gap ++ rest)) = some rest := by
  rw [skipMark, if_pos rfl, skipSpace_append hgap hrest]

/-- The separators one by one. -/
private def separators : List Char :=
  [9, 10, 11, 12, 13, 0x20, 0x85, 0x200e, 0x200f, 0x2028, 0x2029].map Char.ofNat

private theorem mem_separators (hc : Text.isSeparator c = true) : c ∈ separators := by
  have hcode : c.toNat ∈ [9, 10, 11, 12, 13, 0x20, 0x85, 0x200e, 0x200f, 0x2028, 0x2029] := by
    simp only [Text.isSeparator, Text.covers, Text.separatorRanges, List.any_cons, List.any_nil,
      Bool.or_eq_true, Bool.and_eq_true, decide_eq_true_eq,
      Bool.or_false] at hc
    simp only [List.mem_cons, List.not_mem_nil, or_false]
    omega
  rw [← Char.ofNat_toNat c]
  exact List.mem_map_of_mem hcode

/-- Can continue neither a word nor a number. -/
def EndsValue (c : Char) : Prop := Text.isNameRest c = false ∧ Numeral.isNumeralChar c = false

instance (c : Char) : Decidable (EndsValue c) := inferInstanceAs (Decidable (_ ∧ _))

theorem endsValue_of_isSeparator (hc : Text.isSeparator c = true) : EndsValue c := by
  have hall : (separators.all fun c => decide (EndsValue c)) = true := by decide +kernel
  exact of_decide_eq_true (List.all_eq_true.mp hall c (mem_separators hc))

theorem solid_of_isDigit (hc : c.isDigit = true) : Solid c := by
  constructor
  · cases hblank : Text.isSeparator c with
    | false => rfl
    | true =>
      have hnot := (endsValue_of_isSeparator hblank).1
      simp [Text.isNameRest, hc] at hnot
  · exact Text.ne_of_isDigit hc rfl

/-! ### Words -/

/-- A name that begins no text. -/
def IsPlainName : List Char → Prop
  | [] => False
  | c :: chars => Text.isNameStart c = true ∧ c ≠ 'b' ∧ c ≠ 'r' ∧ chars.all Text.isNameRest = true

instance : DecidablePred IsPlainName
  | [] => inferInstanceAs (Decidable False)
  | c :: chars =>
    inferInstanceAs
      (Decidable (Text.isNameStart c = true ∧ c ≠ 'b' ∧ c ≠ 'r' ∧ chars.all Text.isNameRest = true))

theorem read?_append {name : String} (hname : IsPlainName name.toList)
    (hrest : Stops (fun c => Text.isNameRest c = false) rest) :
    Word.read? (name.toList ++ rest) = some (⟨name, false⟩, rest) := by
  cases hlist : name.toList with
  | nil =>
    rw [hlist] at hname
    cases hname
  | cons c chars =>
    rw [hlist] at hname
    obtain ⟨hstart, hb, hr, hall⟩ := hname
    have hchars : ∀ d ∈ chars, Text.isNameRest d = true := List.all_eq_true.mp hall
    have htext : Word.startsText (c :: (chars ++ rest)) = false := by
      simp [Word.startsText, List.isPrefixOf, Ne.symm hb, Ne.symm hr]
    have hname : name = .ofList (c :: chars) := by rw [← hlist, String.ofList_toList]
    rw [List.cons_append, Word.read?, htext, hname]
    · simp [hstart, Text.takeWhile_append_of_stops hchars hrest,
        Text.dropWhile_append_of_stops hchars hrest]
    · intro more hraw _
      exact hr hraw

/-! ### Numbers -/

private theorem foldlM_push (hdigits : ∀ c ∈ text, c.isDigit = true) (value : Nat) :
    text.foldlM (Numeral.push 10) value = some (Nat.ofDigitChars 10 text value) := by
  induction text generalizing value with
  | nil => rfl
  | cons c text ih =>
    have hc : c.isDigit = true := hdigits c List.mem_cons_self
    have hpush : Numeral.push 10 value c = some (10 * value + (c.toNat - '0'.toNat)) := by
      have hmark : c ≠ '_' := Text.ne_of_isDigit hc rfl
      have hlt : c.toNat - '0'.toNat < 10 := by
        simp only [Char.isDigit, Bool.and_eq_true, decide_eq_true_eq, UInt32.le_iff_toNat_le] at hc
        exact Nat.lt_succ_of_le (Nat.sub_le_of_le_add hc.2)
      rw [Numeral.push, if_neg hmark, Numeral.digit?, if_pos hc]
      simp only [if_pos hlt, Nat.mul_comm]
    rw [List.foldlM_cons, hpush, Nat.ofDigitChars_cons]
    exact ih (fun d hd => hdigits d (List.mem_cons_of_mem _ hd)) _

private theorem digits?_ten (htext : text ≠ []) (hdigits : ∀ c ∈ text, c.isDigit = true) :
    Numeral.digits? 10 text = some (Nat.ofDigitChars 10 text 0) := by
  cases text with
  | nil => exact absurd rfl htext
  | cons c text =>
    have hmark : c ≠ '_' := Text.ne_of_isDigit (hdigits c List.mem_cons_self) rfl
    rw [Numeral.digits?, if_neg hmark, foldlM_push hdigits]

private theorem magnitude?_of_digits (hdigits : ∀ c ∈ text, c.isDigit = true) :
    Numeral.magnitude? text = Numeral.digits? 10 text := by
  unfold Numeral.magnitude?
  split
  · exact absurd (hdigits 'x' (by simp)) (by decide)
  · exact absurd (hdigits 'o' (by simp)) (by decide)
  · exact absurd (hdigits 'b' (by simp)) (by decide)
  · rfl

private theorem splitSign_of_digits (hdigits : ∀ c ∈ text, c.isDigit = true) :
    Numeral.splitSign text = (false, text) := by
  unfold Numeral.splitSign
  split
  · exact absurd (hdigits '-' (by simp)) (by decide)
  · exact absurd (hdigits '+' (by simp)) (by decide)
  · rfl

private theorem integer?_of_digits (htext : text ≠ []) (hdigits : ∀ c ∈ text, c.isDigit = true) :
    Numeral.integer? text = some ⟨false, Nat.ofDigitChars 10 text 0, none⟩ := by
  have hall : ∀ c ∈ text, Numeral.isIntegerChar c = true := by
    intro c hc
    simp [Numeral.isIntegerChar, Numeral.digit?, hdigits c hc]
  have htake : text.takeWhile Numeral.isIntegerChar = text := by
    simpa using Text.takeWhile_append_of_stops hall Text.stops_nil
  have hdrop : text.dropWhile Numeral.isIntegerChar = [] := by
    simpa using Text.dropWhile_append_of_stops hall Text.stops_nil
  simp [Numeral.integer?, splitSign_of_digits hdigits, htake, hdrop, magnitude?_of_digits hdigits,
    digits?_ten htext hdigits]

theorem word?_toString (n : UInt64) : Numeral.word? (toString n.toNat).toList = some n := by
  have hvalue : Nat.ofDigitChars 10 (toString n.toNat).toList 0 = n.toNat := by
    rw [Nat.toString_eq_ofList_toDigits, String.toList_ofList, Nat.ofDigitChars_ten_toDigits]
  have hfits : n.toNat < 18446744073709551616 := n.toNat_lt
  rw [Numeral.word?, integer?_of_digits (by simp) fun _ => Text.isDigit_of_mem_toString, hvalue]
  simp [Numeral.Integer.fits, Numeral.Format.holds, Numeral.Format.word, hfits]

end HindleyMilner.Settings
