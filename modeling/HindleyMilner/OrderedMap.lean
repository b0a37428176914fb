/-!
# Finite maps in insertion order

A map is its list of entries, each key at most once. A key keeps the place where it was first
inserted when its value is replaced, so the order of entries is the order in which keys arrived.
Substitutions and contexts are such maps: their printed form lists the entries in this order, while
equality as maps (`sameBindings`) ignores it.
-/

namespace HindleyMilner

structure OrderedMap (κ α : Type) where
  entries : List (κ × α)
  nodup : (entries.map Prod.fst).Nodup
  deriving DecidableEq, Repr

namespace OrderedMap

variable {κ α β : Type}

instance : EmptyCollection (OrderedMap κ α) := ⟨⟨[], .nil⟩⟩

instance : Inhabited (OrderedMap κ α) := ⟨∅⟩

def keys (m : OrderedMap κ α) : List κ := m.entries.map Prod.fst

def size (m : OrderedMap κ α) : Nat := m.entries.length

def isEmpty (m : OrderedMap κ α) : Bool := m.entries.isEmpty

instance : Membership κ (OrderedMap κ α) := ⟨fun m k => k ∈ m.keys⟩

@[simp] theorem mem_keys {m : OrderedMap κ α} {k : κ} : k ∈ m.keys ↔ k ∈ m := .rfl

@[ext] theorem ext {m n : OrderedMap κ α} (hentries : m.entries = n.entries) : m = n := by
  obtain ⟨entries, hnodup⟩ := m
  cases hentries
  rfl

/-- Changes the values and leaves the keys where they are. -/
def mapValues (f : α → β) (m : OrderedMap κ α) : OrderedMap κ β :=
  ⟨m.entries.map fun entry => (entry.1, f entry.2), by simpa [Function.comp_def] using m.nodup⟩

/-- Keeps the entries whose key passes the test. -/
def filterKeys (keep : κ → Bool) (m : OrderedMap κ α) : OrderedMap κ α :=
  ⟨m.entries.filter fun entry => keep entry.1, m.nodup.sublist (List.filter_sublist.map Prod.fst)⟩

variable [DecidableEq κ]

instance (k : κ) (m : OrderedMap κ α) : Decidable (k ∈ m) :=
  inferInstanceAs (Decidable (k ∈ m.keys))

/-- The value of the first entry under a key. -/
private def seek (k : κ) : List (κ × α) → Option α
  | [] => none
  | entry :: rest => if entry.1 = k then some entry.2 else seek k rest

def get? (m : OrderedMap κ α) (k : κ) : Option α := seek k m.entries

/-! ### Insertion and removal -/

private def put (k : κ) (a : α) : List (κ × α) → List (κ × α)
  | [] => [(k, a)]
  | entry :: rest => if entry.1 = k then (k, a) :: rest else entry :: put k a rest

private theorem keys_put (k : κ) (a : α) (entries : List (κ × α)) :
    (put k a entries).map Prod.fst =
      if k ∈ entries.map Prod.fst then entries.map Prod.fst else entries.map Prod.fst ++ [k] := by
  induction entries with
  | nil => rfl
  | cons entry rest ih =>
    by_cases hkey : entry.1 = k
    · simp [put, hkey]
    · have hkey' : k ≠ entry.1 := fun h => hkey h.symm
      simp only [put, if_neg hkey, List.map_cons, ih, List.mem_cons, hkey', false_or]
      split <;> simp

private theorem seek_put (k : κ) (a : α) (k' : κ) (entries : List (κ × α)) :
    seek k' (put k a entries) = if k = k' then some a else seek k' entries := by
  induction entries with
  | nil => rfl
  | cons entry rest ih =>
    by_cases hkey : entry.1 = k
    · subst hkey
      by_cases h : entry.1 = k' <;> simp [put, seek, h]
    · simp only [put, if_neg hkey, seek, ih]
      by_cases h : entry.1 = k'
      · subst h
        rw [if_pos rfl, if_pos rfl, if_neg fun heq => hkey heq.symm]
      · rw [if_neg h, if_neg h]

/-- A key that is present keeps its place; a new one goes to the end. -/
def insert (k : κ) (a : α) (m : OrderedMap κ α) : OrderedMap κ α :=
  ⟨put k a m.entries, by
    rw [keys_put]
    split
    · exact m.nodup
    · rename_i hnew
      rw [List.nodup_append]
      refine ⟨m.nodup, by simp, fun left hleft right hright heq => hnew ?_⟩
      rw [List.mem_singleton] at hright
      exact hright ▸ heq ▸ hleft⟩

def erase (k : κ) (m : OrderedMap κ α) : OrderedMap κ α := m.filterKeys (· ≠ k)

def singleton (k : κ) (a : α) : OrderedMap κ α := insert k a ∅

/-- Collects entries from the left: a repeated key keeps its first place and takes
its last value. -/
def ofList (entries : List (κ × α)) : OrderedMap κ α :=
  entries.foldl (fun m entry => m.insert entry.1 entry.2) ∅

/-- Inserts every entry of `n` into `m`, so that `n` decides where both have a key. -/
def merge (m n : OrderedMap κ α) : OrderedMap κ α :=
  n.entries.foldl (fun m entry => m.insert entry.1 entry.2) m

/-- Adds to `m` the entries of `n` whose key `m` lacks. -/
def orElse (m n : OrderedMap κ α) : OrderedMap κ α :=
  ⟨m.entries ++ (n.filterKeys (· ∉ m)).entries, by
    rw [List.map_append, List.nodup_append]
    refine ⟨m.nodup, (n.filterKeys (· ∉ m)).nodup, fun left hleft right hright heq => ?_⟩
    obtain ⟨entry, hentry, rfl⟩ := List.mem_map.mp hright
    have hout := (List.mem_filter.mp hentry).2
    exact (of_decide_eq_true hout) (heq ▸ hleft)⟩

/-- Equality as maps: the same keys with the same values, in any order. -/
def sameBindings [DecidableEq α] (m n : OrderedMap κ α) : Bool :=
  m.size == n.size && m.entries.all fun entry => n.get? entry.1 == some entry.2

/-! ### Look-up through the operations -/

@[simp] theorem get?_empty (k : κ) : (∅ : OrderedMap κ α).get? k = none := rfl

@[simp] theorem get?_insert (m : OrderedMap κ α) (k k' : κ) (a : α) :
    (m.insert k a).get? k' = if k = k' then some a else m.get? k' := seek_put k a k' m.entries

private theorem put_of_not_mem {k : κ} {entries : List (κ × α)} (hk : k ∉ entries.map Prod.fst)
    (a : α) :
    put k a entries = entries ++ [(k, a)] := by
  induction entries with
  | nil => rfl
  | cons entry rest ih =>
    rw [List.map_cons, List.mem_cons, not_or] at hk
    rw [put, if_neg (Ne.symm hk.1), ih hk.2, List.cons_append]

theorem entries_insert_of_not_mem {m : OrderedMap κ α} {k : κ} (hk : k ∉ m) (a : α) :
    (m.insert k a).entries = m.entries ++ [(k, a)] := put_of_not_mem hk a

private theorem seek_map (f : α → β) (k : κ) (entries : List (κ × α)) :
    seek k (entries.map fun entry => (entry.1, f entry.2)) = (seek k entries).map f := by
  induction entries with
  | nil => rfl
  | cons entry rest ih => by_cases h : entry.1 = k <;> simp [seek, h, ih]

@[simp] theorem get?_mapValues (f : α → β) (m : OrderedMap κ α) (k : κ) :
    (m.mapValues f).get? k = (m.get? k).map f :=
  seek_map f k m.entries

private theorem seek_filter (keep : κ → Bool) (k : κ) (entries : List (κ × α)) :
    seek k (entries.filter fun entry => keep entry.1) =
      if keep k then seek k entries else none := by
  induction entries with
  | nil => simp [seek]
  | cons entry rest ih =>
    by_cases h : entry.1 = k
    · subst h
      by_cases hkeep : keep entry.1 <;> simp [hkeep, seek, ih]
    · by_cases hkeep : keep entry.1 <;> simp [hkeep, seek, h, ih]

@[simp] theorem get?_filterKeys (keep : κ → Bool) (m : OrderedMap κ α) (k : κ) :
    (m.filterKeys keep).get? k = if keep k then m.get? k else none := seek_filter keep k m.entries

private theorem seek_eq_none_iff {k : κ} {entries : List (κ × α)} :
    seek k entries = none ↔ k ∉ entries.map Prod.fst := by
  induction entries with
  | nil => simp [seek]
  | cons entry rest ih =>
    by_cases h : entry.1 = k
    · simp [seek, h]
    · rw [seek, if_neg h, ih, List.map_cons, List.mem_cons, not_or]
      exact ⟨fun hrest => ⟨fun heq => h heq.symm, hrest⟩, And.right⟩

theorem get?_eq_none_iff {m : OrderedMap κ α} {k : κ} : m.get? k = none ↔ k ∉ m := seek_eq_none_iff

private theorem seek_eq_some_iff {k : κ} {a : α} {entries : List (κ × α)}
    (hnodup : (entries.map Prod.fst).Nodup) :
    seek k entries = some a ↔ (k, a) ∈ entries := by
  induction entries with
  | nil => simp [seek]
  | cons entry rest ih =>
    obtain ⟨hhead, htail⟩ := List.nodup_cons.mp hnodup
    by_cases h : entry.1 = k
    · subst h
      have hrest : (entry.1, a) ∉ rest := fun hmem => hhead (List.mem_map.mpr ⟨_, hmem, rfl⟩)
      rw [seek, if_pos rfl, List.mem_cons, or_iff_left hrest, Option.some.injEq]
      exact ⟨fun heq => heq ▸ rfl, fun heq => (congrArg Prod.snd heq).symm⟩
    · have hne : (k, a) ≠ entry := fun heq => h (congrArg Prod.fst heq).symm
      rw [seek, if_neg h, ih htail, List.mem_cons, or_iff_right hne]

theorem get?_eq_some_iff {m : OrderedMap κ α} {k : κ} {a : α} :
    m.get? k = some a ↔ (k, a) ∈ m.entries :=
  seek_eq_some_iff m.nodup

private theorem put_map (f : α → β) (k : κ) (a : α) (entries : List (κ × α)) :
    (put k a entries).map (fun entry => (entry.1, f entry.2)) =
      put k (f a) (entries.map fun entry => (entry.1, f entry.2)) := by
  induction entries with
  | nil => rfl
  | cons entry rest ih => by_cases h : entry.1 = k <;> simp [put, h, ih]

theorem mapValues_insert (f : α → β) (k : κ) (a : α) (m : OrderedMap κ α) :
    (m.insert k a).mapValues f = (m.mapValues f).insert k (f a) := ext (put_map f k a m.entries)

private theorem seek_append (k : κ) (front back : List (κ × α)) :
    seek k (front ++ back) = (seek k front).or (seek k back) := by
  induction front with
  | nil => rfl
  | cons entry rest ih => by_cases h : entry.1 = k <;> simp [seek, h, ih]

@[simp] theorem get?_orElse (m n : OrderedMap κ α) (k : κ) :
    (m.orElse n).get? k = (m.get? k).or (n.get? k) := by
  have hsplit : (m.orElse n).get? k = (m.get? k).or ((n.filterKeys (· ∉ m)).get? k) :=
    seek_append k _ _
  rw [hsplit]
  cases hget : m.get? k with
  | some a => rfl
  | none => simp [get?_eq_none_iff.mp hget]

/-! ### Maps that stay as they are -/

omit [DecidableEq κ] in
theorem mapValues_eq_self {f : α → α} {m : OrderedMap κ α}
    (hfix : ∀ entry ∈ m.entries, f entry.2 = entry.2) : m.mapValues f = m := by
  apply ext
  have hentries : ∀ entry ∈ m.entries, (entry.1, f entry.2) = entry :=
    fun entry hentry => Prod.ext rfl (hfix entry hentry)
  exact (List.map_congr_left hentries).trans (List.map_id' m.entries)

theorem orElse_eq_left {m n : OrderedMap κ α} (hkeys : ∀ k ∈ n, k ∈ m) : m.orElse n = m := by
  apply ext
  have hnone : n.entries.filter (fun entry => entry.1 ∉ m) = [] := by
    rw [List.filter_eq_nil_iff]
    intro entry hentry
    simp [hkeys entry.1 (List.mem_map.mpr ⟨entry, hentry, rfl⟩)]
  show m.entries ++ n.entries.filter _ = m.entries
  rw [hnone, List.append_nil]

end OrderedMap

end HindleyMilner
