/-!
# Sets of type variables

Type variables are natural numbers. A finite set of them is its ascending list of members, so that
sets with the same members are the same value and listing a set needs no sorting. The rest of the
library reaches the list only through membership, `toList` and `size`.
-/

namespace HindleyMilner

structure VarSet where
  toList : List Nat
  ascending : toList.Pairwise (· < ·)
  deriving DecidableEq, Repr

namespace VarSet

instance : Membership Nat VarSet := ⟨fun s v => v ∈ s.toList⟩

instance (v : Nat) (s : VarSet) : Decidable (v ∈ s) := inferInstanceAs (Decidable (v ∈ s.toList))

instance : EmptyCollection VarSet := ⟨⟨[], .nil⟩⟩

instance : Inhabited VarSet := ⟨∅⟩

def size (s : VarSet) : Nat := s.toList.length

def isEmpty (s : VarSet) : Bool := s.toList.isEmpty

@[simp] theorem mem_toList {s : VarSet} {v : Nat} : v ∈ s.toList ↔ v ∈ s := .rfl

@[simp] theorem not_mem_empty (v : Nat) : v ∉ (∅ : VarSet) := List.not_mem_nil

theorem isEmpty_iff {s : VarSet} : s.isEmpty = true ↔ s = ∅ := by
  constructor
  · intro hempty
    obtain ⟨members, hascending⟩ := s
    cases List.isEmpty_iff.mp hempty
    rfl
  · rintro rfl
    rfl

/-! ### Insertion -/

/-- Puts `v` at its place in an ascending list, unless it is there. -/
private def place (v : Nat) : List Nat → List Nat
  | [] => [v]
  | w :: rest => if v < w then v :: w :: rest else if v = w then w :: rest else w :: place v rest

private theorem mem_place {v w : Nat} {members : List Nat} :
    w ∈ place v members ↔ w = v ∨ w ∈ members := by
  induction members with
  | nil => simp [place]
  | cons u rest ih =>
    simp only [place]
    split
    · simp
    · split
      · subst v
        simp
      · simp only [List.mem_cons, ih, or_left_comm]

private theorem pairwise_place {v : Nat} {members : List Nat}
    (hascending : members.Pairwise (· < ·)) :
    (place v members).Pairwise (· < ·) := by
  induction members with
  | nil => simp [place]
  | cons u rest ih =>
    obtain ⟨hhead, htail⟩ := List.pairwise_cons.mp hascending
    simp only [place]
    split
    · rename_i hlt
      refine List.pairwise_cons.mpr ⟨fun w hw => ?_, hascending⟩
      cases List.mem_cons.mp hw with
      | inl heq => omega
      | inr hmem => have := hhead w hmem; omega
    · split
      · exact hascending
      · refine List.pairwise_cons.mpr ⟨fun w hw => ?_, ih htail⟩
        cases mem_place.mp hw with
        | inl heq => omega
        | inr hmem => exact hhead w hmem

private theorem length_place {v : Nat} {members : List Nat} (hnew : v ∉ members) :
    (place v members).length = members.length + 1 := by
  induction members with
  | nil => rfl
  | cons u rest ih =>
    obtain ⟨hne, hrest⟩ : v ≠ u ∧ v ∉ rest := by simpa using hnew
    simp only [place]
    split
    · rfl
    · rw [List.length_cons, ih hrest, List.length_cons]

def insert (v : Nat) (s : VarSet) : VarSet := ⟨place v s.toList, pairwise_place s.ascending⟩

instance : Insert Nat VarSet := ⟨insert⟩

instance : Singleton Nat VarSet := ⟨fun v => insert v ∅⟩

@[simp] theorem mem_insert {v w : Nat} {s : VarSet} : w ∈ s.insert v ↔ w = v ∨ w ∈ s := mem_place

@[simp] theorem mem_singleton {v w : Nat} : w ∈ ({v} : VarSet) ↔ w = v := by
  change w ∈ insert v ∅ ↔ w = v
  simp

/-! ### Union, difference and collection -/

instance : Union VarSet := ⟨fun s t => s.toList.foldr insert t⟩

instance : SDiff VarSet := ⟨fun s t => ⟨s.toList.filter (· ∉ t), s.ascending.filter _⟩⟩

def ofList (members : List Nat) : VarSet := members.foldr insert ∅

/-- The union of the images of a list. -/
def unionOf {α : Type} (f : α → VarSet) (items : List α) : VarSet :=
  items.foldr (fun item s => f item ∪ s) ∅

private theorem mem_foldr_insert {members : List Nat} {t : VarSet} {v : Nat} :
    v ∈ members.foldr insert t ↔ v ∈ members ∨ v ∈ t := by
  induction members with
  | nil => simp
  | cons w rest ih => simp [ih, or_assoc]

@[simp] theorem mem_union {s t : VarSet} {v : Nat} : v ∈ s ∪ t ↔ v ∈ s ∨ v ∈ t := mem_foldr_insert

@[simp] theorem mem_sdiff {s t : VarSet} {v : Nat} : v ∈ s \ t ↔ v ∈ s ∧ v ∉ t := by
  change v ∈ s.toList.filter (· ∉ t) ↔ _
  simp

@[simp] theorem mem_ofList {members : List Nat} {v : Nat} : v ∈ ofList members ↔ v ∈ members := by
  simp [ofList, mem_foldr_insert]

@[simp] theorem mem_unionOf {α : Type} {f : α → VarSet} {items : List α} {v : Nat} :
    v ∈ unionOf f items ↔ ∃ item ∈ items, v ∈ f item := by
  induction items with
  | nil => simp [unionOf]
  | cons item rest ih =>
    have hstep : unionOf f (item :: rest) = f item ∪ unionOf f rest := rfl
    simp [hstep, ih]

/-! ### The largest member -/

def max? (s : VarSet) : Option Nat := s.toList.getLast?

theorem max?_eq_none_iff {s : VarSet} : s.max? = none ↔ ∀ v, v ∉ s := by
  rw [max?, List.getLast?_eq_none_iff, List.eq_nil_iff_forall_not_mem]
  rfl

theorem le_of_max?_eq_some {s : VarSet} {v w : Nat} (hmax : s.max? = some w) (hv : v ∈ s) :
    v ≤ w := by
  obtain ⟨front, hsplit⟩ := List.getLast?_eq_some_iff.mp hmax
  have hascending := s.ascending
  have hin : v ∈ s.toList := hv
  rw [hsplit] at hascending hin
  rcases List.mem_append.mp hin with hfront | hlast
  · exact Nat.le_of_lt
      ((List.pairwise_append.mp hascending).2.2 v hfront w (List.mem_singleton.mpr rfl))
  · exact Nat.le_of_eq (List.mem_singleton.mp hlast)

theorem exists_above (s : VarSet) : ∃ n, ∀ v ∈ s, v < n := by
  cases hmax : s.max? with
  | none => exact ⟨0, fun v hv => absurd hv (max?_eq_none_iff.mp hmax v)⟩
  | some w => exact ⟨w + 1, fun v hv => Nat.lt_succ_of_le (le_of_max?_eq_some hmax hv)⟩

/-! ### Extensionality and counting -/

private theorem eq_of_same_members {left right : List Nat} (hleft : left.Pairwise (· < ·))
    (hright : right.Pairwise (· < ·)) (hmem : ∀ v, v ∈ left ↔ v ∈ right) : left = right := by
  induction left generalizing right with
  | nil =>
    cases right with
    | nil => rfl
    | cons w rest => exact absurd ((hmem w).mpr List.mem_cons_self) List.not_mem_nil
  | cons v rest ih =>
    cases right with
    | nil => exact absurd ((hmem v).mp List.mem_cons_self) List.not_mem_nil
    | cons w others =>
      obtain ⟨hv, hrest⟩ := List.pairwise_cons.mp hleft
      obtain ⟨hw, hothers⟩ := List.pairwise_cons.mp hright
      have hhead : v = w := by
        cases List.mem_cons.mp ((hmem v).mp List.mem_cons_self) with
        | inl heq => exact heq
        | inr hin =>
          cases List.mem_cons.mp ((hmem w).mpr List.mem_cons_self) with
          | inl heq => exact heq.symm
          | inr hin' => have := hv w hin'; have := hw v hin; omega
      subst hhead
      rw [ih hrest hothers fun u => ?_]
      constructor
      · intro hu
        have := hv u hu
        exact (List.mem_cons.mp ((hmem u).mp (List.mem_cons_of_mem _ hu))).resolve_left (by omega)
      · intro hu
        have := hw u hu
        exact (List.mem_cons.mp ((hmem u).mpr (List.mem_cons_of_mem _ hu))).resolve_left (by omega)

@[ext] theorem ext {s t : VarSet} (hmem : ∀ v, v ∈ s ↔ v ∈ t) : s = t := by
  obtain ⟨left, hleft⟩ := s
  obtain ⟨right, hright⟩ := t
  cases eq_of_same_members hleft hright hmem
  rfl

private theorem length_le_of_members {left right : List Nat} (hleft : left.Pairwise (· < ·))
    (hright : right.Pairwise (· < ·)) (hmem : ∀ v ∈ left, v ∈ right) :
    left.length ≤ right.length := by
  induction right generalizing left with
  | nil =>
    cases left with
    | nil => exact Nat.le_refl _
    | cons v rest => exact absurd (hmem v List.mem_cons_self) List.not_mem_nil
  | cons w others ih =>
    obtain ⟨hw, hothers⟩ := List.pairwise_cons.mp hright
    cases left with
    | nil => exact Nat.zero_le _
    | cons v rest =>
      obtain ⟨hv, hrest⟩ := List.pairwise_cons.mp hleft
      refine Nat.succ_le_succ (ih hrest hothers fun u hu => ?_)
      have hvu := hv u hu
      have hwv : w ≤ v := by
        cases List.mem_cons.mp (hmem v List.mem_cons_self) with
        | inl heq => omega
        | inr hin => have := hw v hin; omega
      exact (List.mem_cons.mp (hmem u (List.mem_cons_of_mem _ hu))).resolve_left (by omega)

theorem size_le_size {s t : VarSet} (hmem : ∀ v ∈ s, v ∈ t) : s.size ≤ t.size :=
  length_le_of_members s.ascending t.ascending hmem

theorem size_lt_size {s t : VarSet} {v : Nat} (hmem : ∀ w ∈ s, w ∈ t) (hin : v ∈ t) (hout : v ∉ s) :
    s.size < t.size := by
  have hle : (s.insert v).size ≤ t.size := size_le_size fun w hw => by
    cases mem_insert.mp hw with
    | inl heq => exact heq ▸ hin
    | inr hws => exact hmem w hws
  have hsize : (s.insert v).size = s.size + 1 := length_place hout
  omega

end VarSet

end HindleyMilner
