import HindleyMilner.Subst

/-!
# Replacing and renaming variables

What the theory knows about substitutions beyond their definition: which variables they move, how a
renaming passes through them, and that a function on finitely many variables is a substitution. A
substitution is solved when none of the variables it moves comes back in the types it puts in; such
a substitution changes nothing when it is applied a second time.
-/

namespace HindleyMilner

namespace Ty

theorem bind_eq_self {f : Nat → Ty} {t : Ty} (hfix : ∀ v ∈ t.vars, f v = .var v) :
    t.bind f = t := by
  rw [bind_congr hfix, bind_var]

theorem subst_eq_self {s : Subst} {t : Ty} (hfix : ∀ v ∈ t.vars, s.image v = .var v) :
    t.subst s = t :=
  bind_eq_self hfix

theorem bind_eq_bind_iff {f g : Nat → Ty} {t : Ty} :
    t.bind f = t.bind g ↔ ∀ v ∈ t.vars, f v = g v := by
  refine ⟨fun heq => ?_, bind_congr⟩
  induction t with
  | int => simp
  | bool => simp
  | var v => simpa [bind] using heq
  | fn a b iha ihb =>
    obtain ⟨ha, hb⟩ := fn.inj heq
    intro v hv
    rw [vars_fn, VarSet.mem_union] at hv
    exact hv.elim (iha ha v) (ihb hb v)

/-- What a variable is replaced by is at most as large as what it was replaced in. -/
theorem size_le_size_bind {f : Nat → Ty} {t : Ty} {v : Nat} (hv : v ∈ t.vars) :
    (f v).size ≤ (t.bind f).size := by
  induction t with
  | int => simp at hv
  | bool => simp at hv
  | var w =>
    rw [vars_var, VarSet.mem_singleton] at hv
    exact hv ▸ Nat.le_refl _
  | fn a b iha ihb =>
    rw [vars_fn, VarSet.mem_union] at hv
    rw [bind, size]
    rcases hv with hv | hv
    · have := iha hv
      omega
    · have := ihb hv
      omega

/-! ### Renaming -/

@[simp] theorem rename_var (f : Nat → Nat) (v : Nat) : (var v).rename f = var (f v) := rfl

@[simp] theorem rename_fn (f : Nat → Nat) (a b : Ty) :
    (fn a b).rename f = fn (a.rename f) (b.rename f) :=
  rfl

theorem rename_congr {f g : Nat → Nat} {t : Ty} (hagree : ∀ v ∈ t.vars, f v = g v) :
    t.rename f = t.rename g :=
  bind_congr fun v hv => congrArg var (hagree v hv)

theorem rename_bind (f : Nat → Nat) (g : Nat → Ty) (t : Ty) :
    (t.rename f).bind g = t.bind fun v => g (f v) :=
  bind_bind _ g t

theorem bind_rename (f : Nat → Ty) (g : Nat → Nat) (t : Ty) :
    (t.bind f).rename g = t.bind fun v => (f v).rename g :=
  bind_bind f _ t

theorem mem_vars_rename {f : Nat → Nat} {t : Ty} {w : Nat} :
    w ∈ (t.rename f).vars ↔ ∃ v ∈ t.vars, w = f v := by
  rw [rename, mem_vars_bind]
  simp only [vars_var, VarSet.mem_singleton]

end Ty

namespace Subst

/-! ### The variables a substitution moves -/

theorem image_of_not_mem {s : Subst} {v : Nat} (hv : v ∉ s) : s.image v = .var v := by
  rw [image, OrderedMap.get?_eq_none_iff.mpr hv, Option.getD_none]

theorem mem_entries_image {s : Subst} {v : Nat} (hv : v ∈ s) : (v, s.image v) ∈ s.entries := by
  cases hget : s.get? v with
  | none => exact absurd hv (OrderedMap.get?_eq_none_iff.mp hget)
  | some t =>
    rw [image, hget, Option.getD_some]
    exact OrderedMap.get?_eq_some_iff.mp hget

theorem image_of_mem_entries {s : Subst} {entry : Nat × Ty} (hentry : entry ∈ s.entries) :
    entry.1 ∈ s ∧ s.image entry.1 = entry.2 := by
  have hget : s.get? entry.1 = some entry.2 := OrderedMap.get?_eq_some_iff.mpr hentry
  refine ⟨List.mem_map.mpr ⟨entry, hentry, rfl⟩, ?_⟩
  rw [image, hget, Option.getD_some]

theorem mem_singleton {v w : Nat} {t : Ty} : w ∈ singleton v t ↔ w = v := by
  change w ∈ [v] ↔ w = v
  exact List.mem_singleton

theorem not_mem_empty (v : Nat) : v ∉ (∅ : Subst) := List.not_mem_nil

theorem mem_comp {s r : Subst} {v : Nat} : v ∈ s.comp r ↔ v ∈ r ∨ v ∈ s := by
  have hnone : (s.comp r).get? v = none ↔ r.get? v = none ∧ s.get? v = none := by
    rw [comp, OrderedMap.get?_orElse, OrderedMap.get?_mapValues, Option.or_eq_none_iff,
      Option.map_eq_none_iff]
  rw [OrderedMap.get?_eq_none_iff, OrderedMap.get?_eq_none_iff,
    OrderedMap.get?_eq_none_iff] at hnone
  rw [← Decidable.not_iff_not, hnone, not_or]

theorem image_without (s : Subst) (vs : VarSet) (v : Nat) :
    (s.without vs).image v = if v ∈ vs then .var v else s.image v := by
  rw [image, without, OrderedMap.get?_filterKeys]
  by_cases hv : v ∈ vs
  · simp [hv]
  · simp [hv, image]

/-- No variable that the substitution moves occurs in a type that it puts in. -/
def Solved (s : Subst) : Prop := ∀ v ∈ s, ∀ w ∈ (s.image v).vars, w ∉ s

theorem Solved.not_mem_of_mem_subst {s : Subst} (hs : s.Solved) {t : Ty} {w : Nat}
    (hw : w ∈ (t.subst s).vars) : w ∉ s := by
  obtain ⟨v, -, hwv⟩ := Ty.mem_vars_subst.mp hw
  by_cases hv : v ∈ s
  · exact hs v hv w hwv
  · rw [image_of_not_mem hv, Ty.vars_var, VarSet.mem_singleton] at hwv
    exact hwv ▸ hv

/-- A variable of a type under a substitution was there before and not moved, or it was put in for
one that was moved. -/
theorem mem_vars_subst_cases {s : Subst} {t : Ty} {w : Nat} (hw : w ∈ (t.subst s).vars) :
    (w ∈ t.vars ∧ w ∉ s) ∨ ∃ v ∈ t.vars, v ∈ s ∧ w ∈ (s.image v).vars := by
  obtain ⟨v, hv, hwv⟩ := Ty.mem_vars_subst.mp hw
  by_cases hmem : v ∈ s
  · exact .inr ⟨v, hv, hmem, hwv⟩
  · rw [image_of_not_mem hmem, Ty.vars_var, VarSet.mem_singleton] at hwv
    exact .inl ⟨hwv ▸ hv, hwv ▸ hmem⟩

/-! ### Substitutions from functions -/

/-- The substitution that does to the listed variables what `f` says. -/
def tabulate (vs : List Nat) (f : Nat → Ty) : Subst := OrderedMap.ofList (vs.map fun v => (v, f v))

private theorem get?_foldl_insert (f : Nat → Ty) (vs : List Nat) (m : Subst) (v : Nat) :
    ((vs.map fun w => (w, f w)).foldl (fun m entry => m.insert entry.1 entry.2) m).get? v =
      if v ∈ vs then some (f v) else m.get? v := by
  induction vs generalizing m with
  | nil => rfl
  | cons w rest ih =>
    rw [List.map_cons, List.foldl_cons, ih, OrderedMap.get?_insert]
    by_cases hrest : v ∈ rest
    · simp [hrest]
    · by_cases hw : w = v
      · subst hw
        simp
      · have hw' : v ≠ w := fun heq => hw heq.symm
        simp [hrest, hw, hw']

private theorem get?_tabulate (vs : List Nat) (f : Nat → Ty) (v : Nat) :
    (tabulate vs f).get? v = if v ∈ vs then some (f v) else none := by
  rw [tabulate, OrderedMap.ofList, get?_foldl_insert, OrderedMap.get?_empty]

theorem image_tabulate (vs : List Nat) (f : Nat → Ty) (v : Nat) :
    (tabulate vs f).image v = if v ∈ vs then f v else .var v := by
  rw [image, get?_tabulate]
  split <;> rfl

theorem mem_tabulate {vs : List Nat} {f : Nat → Ty} {v : Nat} : v ∈ tabulate vs f ↔ v ∈ vs := by
  rw [← Decidable.not_iff_not, ← OrderedMap.get?_eq_none_iff, get?_tabulate]
  split <;> simp_all

end Subst

end HindleyMilner
