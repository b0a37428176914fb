import HindleyMilner.Proofs.Substitution
import Mathlib.Data.Set.Function

/-!
# Canonical numbering and renaming

Numbering the variables on the way through a type is renaming each variable to its place in the
order of first occurrence (`canonical_eq_rename`). The invariant of the walk is that the numbers
given so far list the variables seen so far in this order.

A renaming that keeps the variables of a type apart does not change its canonical form: the
variables occur in the same order under other names. A replacement that can be undone is
such a renaming (`exists_rename_of_undone`), so types that are instances of each other have
one canonical form.
-/

namespace HindleyMilner.Ty

variable {ρ : Nat → Nat}

/-! ### Occurrences -/

/-- The variables of a type from left to right, with repetitions. -/
def leaves : Ty → List Nat
  | int => []
  | bool => []
  | var v => [v]
  | fn a b => a.leaves ++ b.leaves

/-- The variables of a type in order of first occurrence. -/
def occurrenceOrder (t : Ty) : List Nat := t.leaves.eraseDups

theorem mem_leaves {t : Ty} {v : Nat} : v ∈ t.leaves ↔ v ∈ t.vars := by
  induction t with
  | int => simp [leaves]
  | bool => simp [leaves]
  | var w => simp [leaves]
  | fn a b iha ihb => rw [leaves, List.mem_append, iha, ihb, vars_fn, VarSet.mem_union]

theorem leaves_rename (ρ : Nat → Nat) (t : Ty) : (t.rename ρ).leaves = t.leaves.map ρ := by
  induction t with
  | fn a b iha ihb => rw [rename_fn, leaves, iha, ihb, leaves, List.map_append]
  | _ => rfl

/-- Induction along `List.eraseDups`: erasing the copies of the head leaves a shorter list, which
is not the tail. -/
theorem eraseDups_induction {motive : List Nat → Prop} (nil : motive [])
    (cons : ∀ v rest, motive (rest.filter fun w => !w == v) → motive (v :: rest)) : ∀ l, motive l
  | [] => nil
  | v :: rest => cons v rest (eraseDups_induction nil cons _)
termination_by l => l.length
decreasing_by exact Nat.lt_succ_of_le (List.length_filter_le _ rest)

private theorem eraseDups_map {l : List Nat} (hinj : Set.InjOn ρ {v | v ∈ l}) :
    (l.map ρ).eraseDups = l.eraseDups.map ρ := by
  induction l using eraseDups_induction with
  | nil => rfl
  | cons v rest ih =>
    have hfilter :
        (rest.map ρ).filter (fun w => !w == ρ v) = (rest.filter fun w => !w == v).map ρ := by
      rw [List.filter_map]
      refine congrArg (List.map ρ) (List.filter_congr fun w hw => ?_)
      have hiff : ρ w = ρ v ↔ w = v := hinj.eq_iff (List.mem_cons_of_mem v hw) List.mem_cons_self
      simp [hiff]
    have hsub : Set.InjOn ρ {w | w ∈ rest.filter fun w => !w == v} :=
      hinj.mono fun w hw => List.mem_cons_of_mem v (List.mem_filter.mp hw).1
    rw [List.map_cons, List.eraseDups_cons, hfilter, ih hsub, List.eraseDups_cons, List.map_cons]

private theorem idxOf_map {l : List Nat} {v : Nat} (hinj : Set.InjOn ρ {w | w = v ∨ w ∈ l}) :
    (l.map ρ).idxOf (ρ v) = l.idxOf v := by
  induction l with
  | nil => rfl
  | cons w rest ih =>
    have hiff : ρ w = ρ v ↔ w = v := hinj.eq_iff (.inr List.mem_cons_self) (.inl rfl)
    have hrest := ih (hinj.mono fun u hu => hu.imp_right (List.mem_cons_of_mem w))
    rw [List.map_cons, List.idxOf_cons, List.idxOf_cons, hrest]
    by_cases heq : w = v
    · rw [heq, beq_self_eq_true, beq_self_eq_true]
    · rw [beq_false_of_ne heq, beq_false_of_ne fun h => heq (hiff.mp h)]

/-! ### The walk through a type -/

/-- The numbers are those of the variables seen so far, in order of first occurrence. -/
private def Numbers (seen : List Nat) (numbers : OrderedMap Nat Nat) : Prop :=
  numbers.entries = seen.eraseDups.zipIdx

private theorem Numbers.size_eq {seen : List Nat} {numbers : OrderedMap Nat Nat}
    (h : Numbers seen numbers) :
    numbers.size = seen.eraseDups.length := by
  rw [OrderedMap.size, h, List.length_zipIdx]

private theorem Numbers.get?_eq {seen : List Nat} {numbers : OrderedMap Nat Nat}
    (h : Numbers seen numbers) (v : Nat) :
    numbers.get? v = if v ∈ seen then some (seen.eraseDups.idxOf v) else none := by
  by_cases hv : v ∈ seen
  · have hlt : seen.eraseDups.idxOf v < seen.eraseDups.length :=
      List.idxOf_lt_length_of_mem (List.mem_eraseDups.mpr hv)
    rw [if_pos hv, OrderedMap.get?_eq_some_iff, h, List.mem_zipIdx_iff_getElem?,
      List.getElem?_eq_getElem hlt, List.getElem_idxOf]
  · rw [if_neg hv, OrderedMap.get?_eq_none_iff, ← OrderedMap.mem_keys, OrderedMap.keys, h,
      List.zipIdx_map_fst]
    exact fun hmem => hv (List.mem_eraseDups.mp hmem)

private theorem idxOf_eraseDups_append {l more : List Nat} {v : Nat} (hv : v ∈ l) :
    (l ++ more).eraseDups.idxOf v = l.eraseDups.idxOf v := by
  rw [List.eraseDups_append, List.idxOf_append, if_pos (List.mem_eraseDups.mpr hv)]

private theorem eraseDups_concat (l : List Nat) (v : Nat) :
    (l ++ [v]).eraseDups = if v ∈ l then l.eraseDups else l.eraseDups ++ [v] := by
  rw [List.eraseDups_append]
  by_cases hv : v ∈ l
  · simp [List.removeAll, hv]
  · simp [List.removeAll, hv, List.eraseDups_cons]

private theorem renumber_eq (t : Ty) {seen : List Nat} {numbers : OrderedMap Nat Nat}
    (h : Numbers seen numbers) :
    (t.renumber numbers).1 = t.rename (fun v => (seen ++ t.leaves).eraseDups.idxOf v) ∧
      Numbers (seen ++ t.leaves) (t.renumber numbers).2 := by
  induction t generalizing seen numbers with
  | int => exact ⟨rfl, by rwa [leaves, List.append_nil]⟩
  | bool => exact ⟨rfl, by rwa [leaves, List.append_nil]⟩
  | var v =>
    have hget := h.get?_eq v
    by_cases hv : v ∈ seen
    · rw [if_pos hv] at hget
      simp only [renumber, hget, leaves, rename, bind, idxOf_eraseDups_append hv, true_and]
      rw [Numbers, eraseDups_concat, if_pos hv]
      exact h
    · rw [if_neg hv] at hget
      have hnew : v ∉ numbers := OrderedMap.get?_eq_none_iff.mp hget
      have horder : (seen ++ [v]).eraseDups = seen.eraseDups ++ [v] := by
        rw [eraseDups_concat, if_neg hv]
      have hnumber : (seen ++ [v]).eraseDups.idxOf v = numbers.size := by
        rw [horder, List.idxOf_append, if_neg fun hmem => hv (List.mem_eraseDups.mp hmem),
          h.size_eq]
        simp
      simp only [renumber, hget, leaves, rename, bind, hnumber, true_and]
      rw [Numbers, OrderedMap.entries_insert_of_not_mem hnew, h, horder, List.zipIdx_append,
        h.size_eq]
      simp
  | fn a b iha ihb =>
    obtain ⟨hdom, hnumbers⟩ := iha h
    obtain ⟨hcod, hnumbers'⟩ := ihb hnumbers
    rw [List.append_assoc] at hcod hnumbers'
    refine ⟨?_, hnumbers'⟩
    have hfirst : (a.renumber numbers).1 =
        a.rename fun v => (seen ++ (a.leaves ++ b.leaves)).eraseDups.idxOf v := by
      rw [hdom]
      apply rename_congr
      intro v hv
      rw [← List.append_assoc,
        idxOf_eraseDups_append (List.mem_append_right seen (mem_leaves.mpr hv))]
    exact congrArg₂ fn hfirst hcod

/-- The number of a variable: how many variables occur before it does. -/
def number (t : Ty) (v : Nat) : Nat := t.occurrenceOrder.idxOf v

theorem canonical_eq_rename (t : Ty) : t.canonical = t.rename t.number := by
  have hnone : Numbers [] ∅ := rfl
  exact (t.renumber_eq hnone).1

/-! ### Renaming -/

/-- The canonical form does not depend on the names of the variables. -/
theorem canonical_rename {t : Ty} (hinj : Set.InjOn ρ {v | v ∈ t.vars}) :
    (t.rename ρ).canonical = t.canonical := by
  have hleaves : Set.InjOn ρ {v | v ∈ t.leaves} := hinj.mono fun v hv => mem_leaves.mp hv
  have horder : (t.rename ρ).occurrenceOrder = t.occurrenceOrder.map ρ := by
    rw [occurrenceOrder, leaves_rename, eraseDups_map hleaves, occurrenceOrder]
  have hrenamed :
      (t.rename ρ).canonical = t.rename fun v => (t.rename ρ).occurrenceOrder.idxOf (ρ v) := by
    rw [canonical_eq_rename]
    exact rename_bind ρ _ t
  rw [hrenamed, horder, canonical_eq_rename]
  refine rename_congr fun v hv => idxOf_map (hinj.mono ?_)
  rintro w (rfl | hw)
  · exact hv
  · exact mem_leaves.mp (List.mem_eraseDups.mp hw)

/-- What another replacement undoes on `V` is a renaming there, and it tells the
members of `V` apart. -/
theorem exists_rename_of_undone {V : Set Nat} {f g : Nat → Ty}
    (hundo : ∀ v ∈ V, (f v).bind g = .var v) :
    ∃ ρ : Nat → Nat, Set.InjOn ρ V ∧ ∀ v ∈ V, f v = .var (ρ v) := by
  have hvar : ∀ v ∈ V, ∃ w, f v = .var w := by
    intro v hv
    have hv' := hundo v hv
    cases hfv : f v with
    | var w => exact ⟨w, rfl⟩
    | _ => simp [hfv, bind] at hv'
  choose! ρ hρ using hvar
  refine ⟨ρ, ?_, hρ⟩
  intro v hv w hw heq
  have hsame : f v = f w := by rw [hρ v hv, hρ w hw, heq]
  have hback : var v = var w := by rw [← hundo v hv, ← hundo w hw, hsame]
  exact var.inj hback

/-- Types that are instances of each other are renamings of each other. -/
theorem exists_rename_of_bind {t u : Ty} {f g : Nat → Ty} (hu : t.bind f = u) (ht : u.bind g = t) :
    ∃ ρ : Nat → Nat, Set.InjOn ρ {v | v ∈ t.vars} ∧ t.rename ρ = u := by
  have hundo : ∀ v ∈ {v | v ∈ t.vars}, (f v).bind g = .var v := by
    apply bind_eq_bind_iff.mp
    rw [← bind_bind, hu, ht, bind_var]
  obtain ⟨ρ, hinj, hρ⟩ := exists_rename_of_undone hundo
  refine ⟨ρ, hinj, ?_⟩
  rw [← hu]
  exact (bind_congr hρ).symm

theorem canonical_eq_of_bind {t u : Ty} {f g : Nat → Ty} (hu : t.bind f = u) (ht : u.bind g = t) :
    t.canonical = u.canonical := by
  obtain ⟨ρ, hinj, hrename⟩ := exists_rename_of_bind hu ht
  rw [← hrename, canonical_rename hinj]

end HindleyMilner.Ty
