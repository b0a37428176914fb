import HindleyMilner.Inference.Principal
import HindleyMilner.Proofs.Canonical
import HindleyMilner.Proofs.Renaming

/-!
# Canonical numbering decides equality up to names

The canonical form of a type is the type itself under other names: its variables are numbered from
zero, without gaps, as they first occur from left to right. Such a numbering can be undone, so types
with one canonical form are instances of each other, and then one is a renaming of the other. In the
other direction a renaming does not change which variable comes first. The agreement of two types is
therefore equality up to names.
-/

namespace HindleyMilner.Ty

variable {t u : Ty} {v w : Nat}

/-- The types are the same up to the names of their variables. -/
def Variant (t u : Ty) : Prop := ∃ ρ : Nat → Nat, Function.Injective ρ ∧ t.rename ρ = u

/-! ### First occurrences -/

private theorem nodup_eraseDups (l : List Nat) : l.eraseDups.Nodup := by
  induction l using eraseDups_induction with
  | nil => simp
  | cons x rest ih =>
    rw [List.eraseDups_cons, List.nodup_cons]
    exact ⟨by simp, ih⟩

private theorem idxOf_filter_lt_iff {p : Nat → Bool} (hv : p v = true) (hw : p w = true)
    (l : List Nat) :
    (l.filter p).idxOf v < (l.filter p).idxOf w ↔ l.idxOf v < l.idxOf w := by
  induction l with
  | nil => simp
  | cons x rest ih => grind

/-- Erasing later occurrences does not change which of two comes first. -/
private theorem idxOf_eraseDups_lt_iff (l : List Nat) :
    l.eraseDups.idxOf v < l.eraseDups.idxOf w ↔ l.idxOf v < l.idxOf w := by
  induction l using eraseDups_induction with
  | nil => simp
  | cons x rest ih =>
    rw [List.eraseDups_cons]
    by_cases hw : x = w
    · simp [hw]
    · by_cases hv : x = v
      · simp [hv, List.idxOf_cons_ne _ (hv ▸ hw)]
      · rw [idxOf_filter_lt_iff (by simp [Ne.symm hv]) (by simp [Ne.symm hw])] at ih
        rw [List.idxOf_cons_ne _ hv, List.idxOf_cons_ne _ hw, List.idxOf_cons_ne _ hv,
          List.idxOf_cons_ne _ hw]
        omega

theorem mem_occurrenceOrder : v ∈ t.occurrenceOrder ↔ v ∈ t.vars := by
  rw [occurrenceOrder, List.mem_eraseDups, mem_leaves]

theorem nodup_occurrenceOrder (t : Ty) : t.occurrenceOrder.Nodup := nodup_eraseDups t.leaves

theorem length_occurrenceOrder (t : Ty) : t.occurrenceOrder.length = t.vars.size := by
  have hnodup : t.vars.toList.Nodup := t.vars.ascending.imp Nat.ne_of_lt
  have hperm : t.occurrenceOrder.Perm t.vars.toList := by
    rw [List.perm_ext_iff_of_nodup t.nodup_occurrenceOrder hnodup]
    intro v
    exact mem_occurrenceOrder
  exact hperm.length_eq

/-! ### The numbering -/

theorem number_lt_iff (t : Ty) : t.number v < t.number w ↔ t.leaves.idxOf v < t.leaves.idxOf w :=
  idxOf_eraseDups_lt_iff t.leaves

private theorem number_lt_size (hv : v ∈ t.vars) : t.number v < t.vars.size := by
  rw [← length_occurrenceOrder]
  exact List.idxOf_lt_length_of_mem (mem_occurrenceOrder.mpr hv)

theorem injOn_number (t : Ty) : Set.InjOn t.number {v | v ∈ t.vars} := by
  intro v hv w _ heq
  exact (List.idxOf_inj (mem_occurrenceOrder.mpr hv)).mp heq

theorem mem_vars_canonical : w ∈ t.canonical.vars ↔ w < t.vars.size := by
  rw [canonical_eq_rename, mem_vars_rename]
  constructor
  · intro ⟨v, hv, hnumber⟩
    rw [hnumber]
    exact number_lt_size hv
  · intro hlt
    rw [← length_occurrenceOrder] at hlt
    have hmem : t.occurrenceOrder[w] ∈ t.vars := mem_occurrenceOrder.mp (List.getElem_mem hlt)
    exact ⟨_, hmem, (t.nodup_occurrenceOrder.idxOf_getElem w hlt).symm⟩

theorem rename_canonical (t : Ty) :
    t.canonical.rename (fun n => t.occurrenceOrder.getD n 0) = t := by
  rw [canonical_eq_rename, rename, rename_bind]
  apply bind_eq_self
  intro v hv
  have hlt : t.number v < t.occurrenceOrder.length := t.length_occurrenceOrder ▸ number_lt_size hv
  have hread : t.occurrenceOrder.getD (t.number v) 0 = v := by
    rw [List.getD_eq_getElem?_getD, List.getElem?_eq_getElem hlt, Option.getD_some]
    exact List.getElem_idxOf hlt
  rw [hread]

theorem canonical_canonical (t : Ty) : t.canonical.canonical = t.canonical := by
  rw [t.canonical_eq_rename, canonical_rename t.injOn_number, ← t.canonical_eq_rename]

/-! ### Types under other names -/

theorem variant_rename {ρ : Nat → Nat} (hinj : Set.InjOn ρ {v | v ∈ t.vars}) :
    t.Variant (t.rename ρ) := by
  obtain ⟨ρ', hinj', hagree⟩ := VarSet.exists_injective hinj
  exact ⟨ρ', hinj', rename_congr hagree⟩

/-- Number the variables of one type and read the numbers as those of the other. -/
theorem exists_rename_of_canonical_eq (heq : t.canonical = u.canonical) :
    ∃ ρ : Nat → Nat, t.rename ρ = u := by
  refine ⟨fun v => u.occurrenceOrder.getD (t.number v) 0, ?_⟩
  calc t.rename (fun v => u.occurrenceOrder.getD (t.number v) 0)
    _ = (t.rename t.number).rename fun n => u.occurrenceOrder.getD n 0 :=
      (rename_bind t.number (fun n => .var (u.occurrenceOrder.getD n 0)) t).symm
    _ = t.canonical.rename fun n => u.occurrenceOrder.getD n 0 := by rw [t.canonical_eq_rename]
    _ = u.canonical.rename fun n => u.occurrenceOrder.getD n 0 := by rw [heq]
    _ = u := u.rename_canonical

theorem canonical_eq_iff : t.canonical = u.canonical ↔ t.Variant u := by
  constructor
  · intro heq
    obtain ⟨ρ, hρ⟩ := exists_rename_of_canonical_eq heq
    obtain ⟨ρ', hρ'⟩ := exists_rename_of_canonical_eq heq.symm
    obtain ⟨ρ'', hinj, hrename⟩ := exists_rename_of_bind hρ hρ'
    rw [← hrename]
    exact variant_rename hinj
  · intro ⟨ρ, hinj, hrename⟩
    rw [← hrename, canonical_rename hinj.injOn]

/-- The numbering of a type by an injective function, which numbers its variables in the order they
first occur in. -/
theorem exists_numbering (t : Ty) :
    ∃ ρ : Nat → Nat, Function.Injective ρ ∧ t.canonical = t.rename ρ ∧
      ∀ v ∈ t.vars, ∀ w ∈ t.vars, ρ v < ρ w ↔ t.leaves.idxOf v < t.leaves.idxOf w := by
  obtain ⟨ρ, hinj, hagree⟩ := VarSet.exists_injective t.injOn_number
  refine ⟨ρ, hinj, t.canonical_eq_rename.trans (rename_congr hagree).symm, ?_⟩
  intro v hv w hw
  rw [hagree v hv, hagree w hw, number_lt_iff]

/-- Two types have one canonical form exactly when they are the same up to names, and two results
that are types agree exactly then. The canonical form is the type under an injective renaming; its
variables are the numbers below the number of variables, in the order of first occurrence from left
to right; and it is its own canonical form. -/
theorem canonical_decides (t u : Ty) :
    (t.canonical = u.canonical ↔ t.Variant u) ∧
      (∃ ρ : Nat → Nat, Function.Injective ρ ∧ t.canonical = t.rename ρ ∧
        ∀ v ∈ t.vars, ∀ w ∈ t.vars, ρ v < ρ w ↔ t.leaves.idxOf v < t.leaves.idxOf w) ∧
      (∀ w, w ∈ t.canonical.vars ↔ w < t.vars.size) ∧ t.canonical.canonical = t.canonical ∧
      (Agreement.agrees ⟨.ok t, .ok u⟩ = true ↔ t.Variant u) := by
  have hagrees : Agreement.agrees ⟨.ok t, .ok u⟩ = true ↔ t.canonical = u.canonical := by
    simp [Agreement.agrees]
  exact ⟨canonical_eq_iff, t.exists_numbering, fun _ => mem_vars_canonical, t.canonical_canonical,
    hagrees.trans canonical_eq_iff⟩

/-- A type whose variables change places when they are numbered. -/
def crossing : Ty := fn (var 1) (fn (var 0) (var 1))

theorem canonical_decides_crossing :
    (∃ ρ : Nat → Nat, Function.Injective ρ ∧ crossing.canonical = crossing.rename ρ ∧ ρ 1 < ρ 0) ∧
      crossing.Variant (fn (var 0) (fn (var 7) (var 0))) ∧
        ¬crossing.Variant (fn (var 0) (fn (var 7) (var 7))) := by
  obtain ⟨hiff, ⟨ρ, hinj, hrename, horder⟩, -⟩ :=
    canonical_decides crossing (fn (var 0) (fn (var 7) (var 0)))
  obtain ⟨hiff', -⟩ := canonical_decides crossing (fn (var 0) (fn (var 7) (var 7)))
  have hfirst : ρ 1 < ρ 0 := (horder 1 (by decide) 0 (by decide)).mpr (by decide)
  exact ⟨⟨ρ, hinj, hrename, hfirst⟩, hiff.mp (by decide),
    fun hvariant => absurd (hiff'.mpr hvariant) (by decide)⟩

end HindleyMilner.Ty
