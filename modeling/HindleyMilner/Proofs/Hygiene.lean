import HindleyMilner.Proofs.Composition

/-!
# Hygienic contexts

Binders are names, so a substitution may put a binder into the scope of a scheme that quantifies it.
In a hygienic context every binder occurs in its scheme and none is free in the context. A
substitution that brings in only free variables of such a context, or variables that the context
does not mention at all, captures nothing (`Clear`), so that it can be applied in parts, and leaves
the context hygienic (`Hygienic.subst`).
-/

namespace HindleyMilner

namespace Scheme

variable {σ : Scheme} {s r : Subst}

theorem mono_subst (s : Subst) (t : Ty) : (mono t).subst s = mono (t.subst s) := by
  have hbody : ((mono t).subst s).body = t.subst s := by
    rw [body_subst]
    exact Ty.bind_congr fun v _ => if_neg (VarSet.not_mem_empty v)
  rw [mono, ← hbody]
  rfl

theorem mem_free_mono {t : Ty} {v : Nat} : v ∈ (mono t).free ↔ v ∈ t.vars := by
  rw [mem_free, mono, and_iff_left (VarSet.not_mem_empty v)]

/-- No type put in for a free variable of the scheme mentions a binder. -/
def Clear (s : Subst) (σ : Scheme) : Prop := ∀ v ∈ σ.free, ∀ w ∈ (s.image v).vars, w ∉ σ.binders

theorem Clear.mem_free_subst (hclear : Clear s σ) {v w : Nat} (hv : v ∈ σ.free)
    (hw : w ∈ (s.image v).vars) : w ∈ (σ.subst s).free :=
  Scheme.mem_free_subst.mpr ⟨hclear v hv w hw, v, hv, hw⟩

theorem Clear.subst_comp (hclear : Clear r σ) (s : Subst) :
    σ.subst (s.comp r) = (σ.subst r).subst s :=
  subst_comp_iff.mpr fun v hv b hb hbinder => absurd hbinder (hclear v hv b hb)

theorem subst_eq_self (hfix : ∀ v ∈ σ.free, s.image v = .var v) : σ.subst s = σ := by
  have hbody : (σ.subst s).body = σ.body := by
    rw [body_subst]
    refine Ty.bind_eq_self fun v hv => ?_
    by_cases hbinder : v ∈ σ.binders
    · rw [if_pos hbinder]
    · rw [if_neg hbinder, hfix v (mem_free.mpr ⟨hv, hbinder⟩)]
  exact congrArg (Scheme.mk σ.binders) hbody

end Scheme

namespace Context

variable {Γ : Context} {s r : Subst}

/-! ### Variables of a context, by name -/

theorem mem_free_iff {v : Nat} : v ∈ Γ.free ↔ ∃ x σ, Γ.get? x = some σ ∧ v ∈ σ.free := by
  rw [mem_free]
  constructor
  · rintro ⟨⟨x, σ⟩, hentry, hv⟩
    exact ⟨x, σ, OrderedMap.get?_eq_some_iff.mpr hentry, hv⟩
  · rintro ⟨x, σ, hget, hv⟩
    exact ⟨(x, σ), OrderedMap.get?_eq_some_iff.mp hget, hv⟩

theorem mem_bodyVars_iff {v : Nat} :
    v ∈ Γ.bodyVars ↔ ∃ x σ, Γ.get? x = some σ ∧ v ∈ σ.body.vars := by
  rw [mem_bodyVars]
  constructor
  · rintro ⟨⟨x, σ⟩, hentry, hv⟩
    exact ⟨x, σ, OrderedMap.get?_eq_some_iff.mpr hentry, hv⟩
  · rintro ⟨x, σ, hget, hv⟩
    exact ⟨(x, σ), OrderedMap.get?_eq_some_iff.mp hget, hv⟩

theorem mem_bodyVars_of_mem_free {v : Nat} (hv : v ∈ Γ.free) : v ∈ Γ.bodyVars := by
  obtain ⟨x, σ, hget, hfree⟩ := mem_free_iff.mp hv
  exact mem_bodyVars_iff.mpr ⟨x, σ, hget, (Scheme.mem_free.mp hfree).1⟩

theorem mem_free_generalize {t : Ty} {v : Nat} :
    v ∈ (Γ.generalize t).free ↔ v ∈ t.vars ∧ v ∈ Γ.free := by
  rw [Scheme.mem_free, generalize, VarSet.mem_sdiff]
  constructor
  · rintro ⟨hv, hnot⟩
    exact ⟨hv, Decidable.not_not.mp fun hfree => hnot ⟨hv, hfree⟩⟩
  · rintro ⟨hv, hfree⟩
    exact ⟨hv, fun hnot => hnot.2 hfree⟩

theorem get?_insert_cases {x y : String} {σ τ : Scheme}
    (hget : OrderedMap.get? (Γ.insert x σ) y = some τ) :
    (x = y ∧ τ = σ) ∨ (x ≠ y ∧ Γ.get? y = some τ) := by
  rw [OrderedMap.get?_insert] at hget
  split at hget
  · rename_i heq
    exact .inl ⟨heq, (Option.some.inj hget).symm⟩
  · rename_i hne
    exact .inr ⟨hne, hget⟩

theorem mem_free_insert {x : String} {σ : Scheme} {v : Nat} (hv : v ∈ free (Γ.insert x σ)) :
    v ∈ σ.free ∨ v ∈ Γ.free := by
  obtain ⟨y, τ, hget, hfree⟩ := mem_free_iff.mp hv
  rcases get?_insert_cases hget with ⟨-, rfl⟩ | ⟨-, hget⟩
  · exact .inl hfree
  · exact .inr (mem_free_iff.mpr ⟨y, τ, hget, hfree⟩)

theorem forall_mem_free_insert {x : String} {σ : Scheme} {P : Nat → Prop} (hσ : ∀ v ∈ σ.free, P v)
    (hΓ : ∀ v ∈ Γ.free, P v) :
    ∀ v ∈ free (Γ.insert x σ), P v := fun v hv => (mem_free_insert hv).elim (hσ v) (hΓ v)

theorem mem_bodyVars_insert {x : String} {σ : Scheme} {v : Nat} (hv : v ∈ bodyVars (Γ.insert x σ)) :
    v ∈ σ.body.vars ∨ v ∈ Γ.bodyVars := by
  obtain ⟨y, τ, hget, hbody⟩ := mem_bodyVars_iff.mp hv
  rcases get?_insert_cases hget with ⟨-, rfl⟩ | ⟨-, hget⟩
  · exact .inl hbody
  · exact .inr (mem_bodyVars_iff.mpr ⟨y, τ, hget, hbody⟩)

theorem get?_subst_eq_some {x : String} {σ : Scheme} (hget : (Γ.subst s).get? x = some σ) :
    ∃ σ₀, Γ.get? x = some σ₀ ∧ σ = σ₀.subst s := by
  rw [get?_subst] at hget
  obtain ⟨σ₀, hσ₀, rfl⟩ := Option.map_eq_some_iff.mp hget
  exact ⟨σ₀, hσ₀, rfl⟩

theorem subst_insert (s : Subst) (Γ : Context) (x : String) (σ : Scheme) :
    subst s (Γ.insert x σ) = (Γ.subst s).insert x (σ.subst s) :=
  OrderedMap.mapValues_insert (Scheme.subst s) x σ Γ

theorem exists_of_mem_free_subst {w : Nat} (hw : w ∈ (Γ.subst s).free) :
    ∃ v ∈ Γ.free, w ∈ (s.image v).vars := by
  obtain ⟨x, σ, hget, hfree⟩ := mem_free_iff.mp hw
  obtain ⟨σ₀, hσ₀, rfl⟩ := get?_subst_eq_some hget
  obtain ⟨-, v, hv, hwv⟩ := Scheme.mem_free_subst.mp hfree
  exact ⟨v, mem_free_iff.mpr ⟨x, σ₀, hσ₀, hv⟩, hwv⟩

theorem subst_eq_self (hfix : ∀ v ∈ Γ.free, s.image v = .var v) : Γ.subst s = Γ := by
  apply OrderedMap.mapValues_eq_self
  intro entry hentry
  exact Scheme.subst_eq_self fun v hv => hfix v (mem_free.mpr ⟨entry, hentry, hv⟩)

/-! ### Substitution without capture -/

/-- The substitution captures nothing in any scheme of the context. -/
def Clear (s : Subst) (Γ : Context) : Prop := ∀ x σ, Γ.get? x = some σ → Scheme.Clear s σ

theorem Clear.mem_free_subst (hclear : Clear s Γ) {v w : Nat} (hv : v ∈ Γ.free)
    (hw : w ∈ (s.image v).vars) : w ∈ (Γ.subst s).free := by
  obtain ⟨x, σ, hget, hfree⟩ := mem_free_iff.mp hv
  refine mem_free_iff.mpr ⟨x, σ.subst s, ?_, (hclear x σ hget).mem_free_subst hfree hw⟩
  rw [get?_subst, hget, Option.map_some]

theorem Clear.subst_comp (hclear : Clear r Γ) (s : Subst) :
    Γ.subst (s.comp r) = (Γ.subst r).subst s := by
  apply subst_comp_iff.mpr
  intro entry hentry
  exact (hclear entry.1 entry.2 (OrderedMap.get?_eq_some_iff.mpr hentry)).subst_comp s

/-- Generalizing commutes with a substitution that leaves alone what is generalized and
brings none of it in. -/
theorem Clear.generalize_subst (hclear : Clear s Γ) {t : Ty}
    (hfix : ∀ v ∈ (Γ.generalize t).binders, s.image v = .var v ∧ v ∉ (Γ.subst s).free) :
    (Γ.subst s).generalize (t.subst s) = (Γ.generalize t).subst s := by
  have hbinders : (t.subst s).vars \ (Γ.subst s).free = (Γ.generalize t).binders := by
    apply VarSet.ext
    intro w
    rw [VarSet.mem_sdiff, Ty.mem_vars_subst]
    constructor
    · rintro ⟨⟨v, hv, hwv⟩, hnot⟩
      by_cases hfree : v ∈ Γ.free
      · exact absurd (hclear.mem_free_subst hfree hwv) hnot
      · have hbinder : v ∈ (Γ.generalize t).binders := VarSet.mem_sdiff.mpr ⟨hv, hfree⟩
        rw [(hfix v hbinder).1, Ty.vars_var, VarSet.mem_singleton] at hwv
        exact hwv ▸ hbinder
    · intro hbinder
      obtain ⟨himage, hnot⟩ := hfix w hbinder
      refine ⟨⟨w, (VarSet.mem_sdiff.mp hbinder).1, ?_⟩, hnot⟩
      rw [himage, Ty.vars_var, VarSet.mem_singleton]
  have hbody : ((Γ.generalize t).subst s).body = t.subst s := by
    rw [Scheme.body_subst]
    refine Ty.bind_congr fun v _ => ?_
    by_cases hbinder : v ∈ (Γ.generalize t).binders
    · rw [if_pos hbinder, (hfix v hbinder).1]
    · rw [if_neg hbinder]
  calc
    _ = Scheme.mk ((t.subst s).vars \ (Γ.subst s).free) (t.subst s) := rfl
    _ = Scheme.mk (Γ.generalize t).binders ((Γ.generalize t).subst s).body := by
      rw [hbinders, hbody]
    _ = (Γ.generalize t).subst s := rfl

/-! ### Hygiene -/

/-- Every binder occurs in the body of its scheme, and none is free in the context. -/
def Hygienic (Γ : Context) : Prop :=
  ∀ entry ∈ Γ.entries, ∀ b ∈ entry.2.binders.toList, b ∈ entry.2.body.vars ∧ b ∉ Γ.free

instance (Γ : Context) : Decidable Γ.Hygienic :=
  inferInstanceAs
    (Decidable (∀ entry ∈ Γ.entries, ∀ b ∈ entry.2.binders.toList,
      b ∈ entry.2.body.vars ∧ b ∉ Γ.free))

theorem hygienic_iff :
    Γ.Hygienic ↔ ∀ x σ, Γ.get? x = some σ → ∀ b ∈ σ.binders, b ∈ σ.body.vars ∧ b ∉ Γ.free := by
  constructor
  · intro h x σ hget b hb
    exact h (x, σ) (OrderedMap.get?_eq_some_iff.mp hget) b hb
  · intro h entry hentry b hb
    exact h entry.1 entry.2 (OrderedMap.get?_eq_some_iff.mpr hentry) b hb

/-- A substitution leaves a context hygienic if all that it frees anew binds nothing there. -/
theorem Hygienic.subst_of_free (hΓ : Γ.Hygienic)
    (hfree : ∀ w ∈ (Γ.subst s).free, w ∈ Γ.free ∨ ∀ x σ, Γ.get? x = some σ → w ∉ σ.binders) :
    (Γ.subst s).Hygienic := by
  rw [hygienic_iff]
  intro x σ hget b hb
  obtain ⟨σ₀, hσ₀, rfl⟩ := get?_subst_eq_some hget
  rw [Scheme.binders_subst] at hb
  obtain ⟨hbody, hnot⟩ := hygienic_iff.mp hΓ x σ₀ hσ₀ b hb
  constructor
  · rw [Scheme.body_subst, Ty.mem_vars_bind]
    refine ⟨b, hbody, ?_⟩
    rw [if_pos hb, Ty.vars_var, VarSet.mem_singleton]
  · intro hin
    rcases hfree b hin with hold | hbinds
    · exact hnot hold
    · exact hbinds x σ₀ hσ₀ hb

/-- A substitution that puts in only free variables of the context and variables above its bodies
leaves it hygienic. -/
theorem Hygienic.subst (hΓ : Γ.Hygienic) {n : Nat} (hbound : ∀ v ∈ Γ.bodyVars, v < n)
    (hrange : ∀ v ∈ Γ.free, ∀ w ∈ (s.image v).vars, w ∈ Γ.free ∨ n ≤ w) : (Γ.subst s).Hygienic := by
  apply hΓ.subst_of_free
  intro w hw
  obtain ⟨v, hv, hwv⟩ := exists_of_mem_free_subst hw
  refine (hrange v hv w hwv).imp_right fun hle x σ hget hbinder => ?_
  have := hbound w (mem_bodyVars_iff.mpr ⟨x, σ, hget, (hygienic_iff.mp hΓ x σ hget w hbinder).1⟩)
  omega

theorem Hygienic.insert (hΓ : Γ.Hygienic) {x : String} {σ : Scheme}
    (hown : ∀ b ∈ σ.binders, b ∈ σ.body.vars ∧ b ∉ Γ.free)
    (hothers : ∀ y τ, Γ.get? y = some τ → ∀ b ∈ τ.binders, b ∉ σ.free) :
    Hygienic (Γ.insert x σ) := by
  rw [hygienic_iff]
  intro y τ hget b hb
  rcases get?_insert_cases hget with ⟨-, rfl⟩ | ⟨-, hget⟩
  · refine ⟨(hown b hb).1, fun hfree => ?_⟩
    rcases mem_free_insert hfree with hin | hin
    · exact (Scheme.mem_free.mp hin).2 hb
    · exact (hown b hb).2 hin
  · obtain ⟨hbody, hnot⟩ := hygienic_iff.mp hΓ y τ hget b hb
    refine ⟨hbody, fun hfree => ?_⟩
    rcases mem_free_insert hfree with hin | hin
    · exact hothers y τ hget b hb hin
    · exact hnot hin

/-! ### Contexts compared name by name -/

/-- The contexts have the same names, with related schemes. A name that is bound again hides its old
scheme on both sides. -/
def Related (R : Scheme → Scheme → Prop) (Γ Δ : Context) : Prop :=
  ∀ x, Option.Rel R (Γ.get? x) (Δ.get? x)

namespace Related

variable {R R' : Scheme → Scheme → Prop} {Δ : Context}

theorem exists_right (h : Related R Γ Δ) {x : String} {σ : Scheme} (hget : Γ.get? x = some σ) :
    ∃ δ, Δ.get? x = some δ ∧ R σ δ := by
  have hx := h x
  rw [hget] at hx
  cases hδ : Δ.get? x with
  | none =>
    rw [hδ] at hx
    nomatch hx
  | some δ =>
    rw [hδ] at hx
    cases hx with
    | some hR => exact ⟨δ, rfl, hR⟩

theorem exists_left (h : Related R Γ Δ) {x : String} {δ : Scheme} (hget : Δ.get? x = some δ) :
    ∃ σ, Γ.get? x = some σ ∧ R σ δ := by
  have hx := h x
  rw [hget] at hx
  cases hσ : Γ.get? x with
  | none =>
    rw [hσ] at hx
    nomatch hx
  | some σ =>
    rw [hσ] at hx
    cases hx with
    | some hR => exact ⟨σ, rfl, hR⟩

theorem get?_eq_none (h : Related R Γ Δ) {x : String} (hget : Γ.get? x = none) :
    Δ.get? x = none := by
  cases hδ : Δ.get? x with
  | none => rfl
  | some δ =>
    obtain ⟨σ, hσ, -⟩ := h.exists_left hδ
    rw [hget] at hσ
    cases hσ

theorem insert (h : Related R Γ Δ) (x : String) {σ δ : Scheme} (hR : R σ δ) :
    Related R (Γ.insert x σ) (Δ.insert x δ) := by
  intro y
  rw [OrderedMap.get?_insert, OrderedMap.get?_insert]
  by_cases hxy : x = y
  · rw [if_pos hxy, if_pos hxy]
    exact .some hR
  · rw [if_neg hxy, if_neg hxy]
    exact h y

theorem imp (h : Related R Γ Δ) (himp : ∀ x σ δ, Γ.get? x = some σ → R σ δ → R' σ δ) :
    Related R' Γ Δ := by
  intro x
  cases hσ : Γ.get? x with
  | none =>
    rw [h.get?_eq_none hσ]
    exact .none
  | some σ =>
    obtain ⟨δ, hδ, hR⟩ := h.exists_right hσ
    rw [hδ]
    exact .some (himp x σ δ hσ hR)

theorem subst (h : Related R Γ Δ) (himp : ∀ x σ δ, Γ.get? x = some σ → R σ δ → R' (σ.subst s) δ) :
    Related R' (Γ.subst s) Δ := by
  intro x
  rw [get?_subst]
  cases hσ : Γ.get? x with
  | none =>
    rw [h.get?_eq_none hσ]
    exact .none
  | some σ =>
    obtain ⟨δ, hδ, hR⟩ := h.exists_right hσ
    rw [hδ]
    exact .some (himp x σ δ hσ hR)

end Related

end Context

end HindleyMilner
