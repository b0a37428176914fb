/-!
# Legible writing

A way of writing is legible if what is written can be told from what follows it: a text that begins
with a written item begins with one item only, and what remains is determined as well. Items of
which one may be the beginning of another, such as numbers, are legible only before certain
characters, so the notion says where reading stops.

Legible writing is injective. It is asked for instead of injectivity because it goes on from
parts to the whole: through a fixed text in front, through one item after another, and through a
list with separators.
-/

namespace HindleyMilner.Text

variable {α β : Type} {write : α → String} {stop stop' : Char → Prop}

/-- Nothing follows, or something that begins with a character of the given kind. -/
def Stops (stop : Char → Prop) (rest : List Char) : Prop := ∀ c ∈ rest.head?, stop c

@[simp] theorem stops_nil : Stops stop [] := by simp [Stops]

@[simp] theorem stops_cons {c : Char} {rest : List Char} : Stops stop (c :: rest) ↔ stop c := by
  simp [Stops]

theorem Stops.imp {rest : List Char} (h : Stops stop rest) (hstop : ∀ c, stop c → stop' c) :
    Stops stop' rest :=
  fun c hc => hstop c (h c hc)

theorem head?_append_of_some {front rest : List Char} {c : Char} (h : front.head? = some c) :
    (front ++ rest).head? = some c := by
  rw [List.head?_append, h, Option.some_or]

theorem stops_append {front rest : List Char} {c : Char} (h : front.head? = some c) (hc : stop c) :
    Stops stop (front ++ rest) := by
  simpa [Stops, head?_append_of_some h] using hc

theorem takeWhile_append_of_stops {p : Char → Bool} {front rest : List Char}
    (hfront : ∀ c ∈ front, p c = true) (hrest : Stops (fun c => p c = false) rest) :
    (front ++ rest).takeWhile p = front := by
  have hnone : rest.takeWhile p = [] := by
    cases rest with
    | nil => rfl
    | cons c rest => simp [stops_cons.mp hrest]
  rw [List.takeWhile_append_of_pos hfront, hnone, List.append_nil]

theorem dropWhile_append_of_stops {p : Char → Bool} {front rest : List Char}
    (hfront : ∀ c ∈ front, p c = true) (hrest : Stops (fun c => p c = false) rest) :
    (front ++ rest).dropWhile p = rest := by
  rw [List.dropWhile_append_of_pos hfront]
  cases rest with
  | nil => rfl
  | cons c rest => simp [stops_cons.mp hrest]

/-- Before such a rest the item can be told from the rest: no other item, and no other rest,
makes the same text. -/
def LegibleAt (write : α → String) (stop : Char → Prop) (a : α) : Prop :=
  ∀ b rest rest', Stops stop rest → Stops stop rest' →
    (write a).toList ++ rest = (write b).toList ++ rest' → a = b ∧ rest = rest'

def Legible (write : α → String) (stop : Char → Prop) : Prop := ∀ a, LegibleAt write stop a

namespace Legible

theorem injective (h : Legible write stop) : Function.Injective write := by
  intro a b heq
  exact (h a b [] [] stops_nil stops_nil (by rw [heq])).1

theorem after (h : Legible write stop) (text : String) :
    Legible (fun a => text ++ write a) stop := by
  intro a b rest rest' hrest hrest' heq
  simp only [String.toList_append, List.append_assoc, List.append_cancel_left_eq] at heq
  exact h a b rest rest' hrest hrest' heq

/-- One item after another, if reading the first one stops where the second one begins. -/
theorem append {write' : β → String} (h : Legible write stop) (h' : Legible write' stop')
    (hnext : ∀ b rest, Stops stop' rest → Stops stop ((write' b).toList ++ rest)) :
    Legible (fun pair : α × β => write pair.1 ++ write' pair.2) stop' := by
  intro pair pair' rest rest' hrest hrest' heq
  obtain ⟨a, b⟩ := pair
  obtain ⟨c, d⟩ := pair'
  simp only [String.toList_append, List.append_assoc] at heq
  obtain ⟨rfl, htail⟩ := h a c _ _ (hnext b rest hrest) (hnext d rest' hrest') heq
  obtain ⟨rfl, rfl⟩ := h' b d rest rest' hrest hrest' htail
  exact ⟨rfl, rfl⟩

end Legible

/-! ### Numbers -/

theorem toString_injective {m n : Nat} (heq : (toString m).toList = (toString n).toList) :
    m = n := by
  simp only [Nat.toString_eq_ofList_toDigits, String.toList_ofList] at heq
  rw [← Nat.ofDigitChars_ten_toDigits (n := m), heq, Nat.ofDigitChars_ten_toDigits]

theorem isDigit_of_mem_toString {n : Nat} {c : Char} (hc : c ∈ (toString n).toList) :
    c.isDigit = true := by
  rw [Nat.toString_eq_ofList_toDigits, String.toList_ofList] at hc
  exact Nat.isDigit_of_mem_toDigits (by decide) (by decide) hc

theorem ne_of_isDigit {c mark : Char} (hc : c.isDigit = true) (hmark : mark.isDigit = false) :
    c ≠ mark := by
  intro heq
  rw [heq, hmark] at hc
  cases hc

theorem legible_toString : Legible (fun n : Nat => toString n) (fun c => c.isDigit = false) := by
  intro m n rest rest' hrest hrest' heq
  have hdigits : (toString m).toList = (toString n).toList := by
    rw [← takeWhile_append_of_stops (fun _ => isDigit_of_mem_toString) hrest, heq,
      takeWhile_append_of_stops (fun _ => isDigit_of_mem_toString) hrest']
  obtain rfl := toString_injective hdigits
  rw [List.append_cancel_left_eq] at heq
  exact ⟨rfl, heq⟩

/-! ### Lists -/

/-- A list with its separators and the text that closes it. Before its first item, if it has one,
stands the text `lead`. -/
private def listed (write : α → String) (sep close lead : String) : List α → List Char
  | [] => close.toList
  | a :: items => lead.toList ++ ((write a).toList ++ listed write sep close sep items)

private theorem toList_intercalate_append (write : α → String) (sep close : String)
    (items : List α) :
    (sep.intercalate (items.map write) ++ close).toList = listed write sep close "" items := by
  have hcons : ∀ (items : List α) (a : α),
      (sep.intercalate ((a :: items).map write) ++ close).toList =
          (write a).toList ++ listed write sep close sep items := by
    intro items
    induction items with
    | nil => simp [listed]
    | cons b items ih =>
      intro a
      have hrest := ih b
      rw [List.map_cons] at hrest
      rw [List.map_cons, List.map_cons, String.intercalate_cons_cons, listed, ← hrest]
      simp only [String.toList_append, List.append_assoc]
  cases items with
  | nil => simp [listed]
  | cons a items => rw [hcons, listed, String.toList_empty, List.nil_append]

section

variable {sep close : String} {s c : Char}

private theorem stops_listed (hsep : sep.toList.head? = some s)
    (hclose : close.toList.head? = some c) (hs : stop s) (hc : stop c) (items : List α)
    (rest : List Char) : Stops stop (listed write sep close sep items ++ rest) := by
  cases items with
  | nil => exact stops_append hclose hc
  | cons a items =>
    rw [listed, List.append_assoc]
    exact stops_append hsep hs

private theorem listed_cons_ne (hclose : close.toList.head? = some c) {lead : String} {a : α}
    {items : List α} {rest rest' : List Char}
    (hlead : ∃ d, (lead.toList ++ (write a).toList).head? = some d ∧ d ≠ c) :
    listed write sep close lead (a :: items) ++ rest ≠ close.toList ++ rest' := by
  intro heq
  obtain ⟨d, hd, hne⟩ := hlead
  have hsplit : listed write sep close lead (a :: items) ++ rest =
      (lead.toList ++ (write a).toList) ++ (listed write sep close sep items ++ rest) := by
    simp only [listed, List.append_assoc]
  have hheads := congrArg List.head? (hsplit ▸ heq)
  rw [head?_append_of_some hd, head?_append_of_some hclose] at hheads
  exact hne (Option.some.inj hheads)

/-- The list ends where `close` begins, since nothing that may stand before an item
begins like that. -/
private theorem listed_inj (h : Legible write stop) (hsep : sep.toList.head? = some s)
    (hclose : close.toList.head? = some c) (hs : stop s) (hc : stop c) (hne : s ≠ c) {lead : String}
    (hlead : ∀ a, ∃ d, (lead.toList ++ (write a).toList).head? = some d ∧ d ≠ c)
    {items items' : List α} {rest rest' : List Char}
    (heq : listed write sep close lead items ++ rest =
    listed write sep close lead items' ++ rest') :
    items = items' ∧ rest = rest' := by
  induction items generalizing lead items' with
  | nil =>
    cases items' with
    | nil =>
      rw [List.append_cancel_left_eq] at heq
      exact ⟨rfl, heq⟩
    | cons b items' => exact absurd heq.symm (listed_cons_ne hclose (hlead b))
  | cons a items ih =>
    cases items' with
    | nil => exact absurd heq (listed_cons_ne hclose (hlead a))
    | cons b items' =>
      simp only [listed, List.append_assoc, List.append_cancel_left_eq] at heq
      obtain ⟨rfl, htail⟩ :=
        h a b _ _ (stops_listed hsep hclose hs hc items rest)
          (stops_listed hsep hclose hs hc items' rest') heq
      obtain ⟨rfl, rfl⟩ := ih (fun a => ⟨s, head?_append_of_some hsep, hne⟩) htail
      exact ⟨rfl, rfl⟩

/-- A list with separators and a text that closes it, if reading an item stops before either of the
two, these begin differently, and no item begins as the closing text does. -/
theorem Legible.list (h : Legible write stop) (hsep : sep.toList.head? = some s)
    (hclose : close.toList.head? = some c) (hs : stop s) (hc : stop c) (hne : s ≠ c)
    (hstart : ∀ a, ∃ d, (write a).toList.head? = some d ∧ d ≠ c) :
    Legible (fun items : List α => sep.intercalate (items.map write) ++ close) (fun _ => True) := by
  intro items items' rest rest' _ _ heq
  simp only [toList_intercalate_append] at heq
  exact listed_inj h hsep hclose hs hc hne (by simpa using hstart) heq

end

end HindleyMilner.Text
