import HindleyMilner.Unification
import HindleyMilner.Proofs.Substitution
import Mathlib.Data.Set.Function

/-!
# What a most general unifier is

The rules by which the unifier of two types is found, and what follows from them by induction on
the rules: the substitution makes the two types equal, it moves and brings in only variables of the
two types and is solved, every other way of making the types equal factors through it, and there is
one whenever there is such a way. The names of the variables play no part: renaming both types
renames the answer.

An error never changes under renaming except for the types it shows, so the kind of an error is a
property of the two types up to names.
-/

namespace HindleyMilner

namespace Ty

/-- The outermost constructor of a type that is not a variable. -/
inductive Head where
  | int
  | bool
  | fn
  deriving DecidableEq, Repr

def head? : Ty → Option Head
  | int => some .int
  | bool => some .bool
  | var _ => none
  | fn _ _ => some .fn

/-- Neither type is a variable, and their outermost constructors differ. -/
def Clash (a b : Ty) : Prop :=
  ∃ left right, a.head? = some left ∧ b.head? = some right ∧ left ≠ right

theorem head?_bind {t : Ty} {head : Head} (f : Nat → Ty) (hhead : t.head? = some head) :
    (t.bind f).head? = some head := by
  cases t with
  | var v => simp [head?] at hhead
  | _ => exact hhead

theorem Clash.bind {a b : Ty} (h : Clash a b) (f : Nat → Ty) : Clash (a.bind f) (b.bind f) := by
  obtain ⟨left, right, hleft, hright, hne⟩ := h
  exact ⟨left, right, head?_bind f hleft, head?_bind f hright, hne⟩

theorem Clash.ne {a b : Ty} (h : Clash a b) : a ≠ b := by
  rintro rfl
  obtain ⟨left, right, hleft, hright, hne⟩ := h
  exact hne (Option.some.inj (hleft.symm.trans hright))

/-! ### The cases of the unifier -/

private theorem bindVar_val (v : Nat) (t : Ty) (within : VarSet) (hv : v ∈ within)
    (ht : ∀ w ∈ t.vars, w ∈ within) :
    (Subst.bindVar v t within hv ht).map Subtype.val =
      if t = .var v then .ok ∅
      else if v ∈ t.vars then .error (.infinite v t)
      else .ok (.singleton v t) := by
  rw [Subst.bindVar]
  split
  · rfl
  · split <;> rfl

theorem mgu_var_left (v : Nat) (t : Ty) :
    (var v).mgu t =
      if t = .var v then .ok ∅
      else if v ∈ t.vars then .error (.infinite v t)
      else .ok (.singleton v t) := by
  rw [mgu, solve]
  exact bindVar_val v t _ _ _

theorem mgu_var_right {t : Ty} {head : Head} (hhead : t.head? = some head) (v : Nat) :
    t.mgu (var v) = if v ∈ t.vars then .error (.infinite v t) else .ok (.singleton v t) := by
  have hne : t ≠ var v := by
    rintro rfl
    simp [head?] at hhead
  have hsolve : t.mgu (var v) =
      if t = .var v then .ok ∅
      else if v ∈ t.vars then .error (.infinite v t)
      else .ok (.singleton v t) := by
    cases t with
    | var w => simp [head?] at hhead
    | _ =>
      rw [mgu, solve]
      · exact bindVar_val v _ _ _ _
      · simp
  rw [hsolve, if_neg hne]

theorem mgu_int : int.mgu int = .ok ∅ := by
  rw [mgu, solve]
  rfl

theorem mgu_bool : bool.mgu bool = .ok ∅ := by
  rw [mgu, solve]
  rfl

theorem mgu_fn (a₁ a₂ b₁ b₂ : Ty) :
    (fn a₁ a₂).mgu (fn b₁ b₂) =
      match a₁.mgu b₁ with
      | .error e => .error e
      | .ok s => ((a₂.subst s).mgu (b₂.subst s)).map fun r => r.comp s := by
  rw [mgu, solve, mgu]
  cases a₁.solve b₁ with
  | error e => rfl
  | ok first =>
    obtain ⟨s, hs⟩ := first
    dsimp only [Except.map]
    rw [mgu]
    cases (a₂.subst s).solve (b₂.subst s) <;> rfl

theorem mgu_of_clash {a b : Ty} (h : Clash a b) : a.mgu b = .error (.mismatch a b) := by
  obtain ⟨left, right, hleft, hright, hne⟩ := h
  cases a <;> cases b <;> simp_all [head?, mgu, solve, Except.map]

/-- The ways in which unification ends. -/
inductive Unifies : Ty → Ty → Except TypeError Subst → Prop
  | int : Unifies int int (.ok ∅)
  | bool : Unifies bool bool (.ok ∅)
  | same (v : Nat) : Unifies (var v) (var v) (.ok ∅)
  | left {v : Nat} {t : Ty} (hoccurs : v ∉ t.vars) : Unifies (var v) t (.ok (.singleton v t))
  | right {v : Nat} {t : Ty} {head : Head} (hhead : t.head? = some head) (hoccurs : v ∉ t.vars) :
    Unifies t (var v) (.ok (.singleton v t))
  | infiniteLeft {v : Nat} {a b : Ty} (hoccurs : v ∈ (fn a b).vars) :
      Unifies (var v) (fn a b) (.error (.infinite v (fn a b)))
  | infiniteRight {v : Nat} {a b : Ty} (hoccurs : v ∈ (fn a b).vars) :
      Unifies (fn a b) (var v) (.error (.infinite v (fn a b)))
  | clash {a b : Ty} (hclash : Clash a b) : Unifies a b (.error (.mismatch a b))
  | domains {a₁ a₂ b₁ b₂ : Ty} {e : TypeError} (hdom : Unifies a₁ b₁ (.error e)) :
      Unifies (fn a₁ a₂) (fn b₁ b₂) (.error e)
  | codomains {a₁ a₂ b₁ b₂ : Ty} {s : Subst} {e : TypeError} (hdom : Unifies a₁ b₁ (.ok s))
    (hcod : Unifies (a₂.subst s) (b₂.subst s) (.error e)) : Unifies (fn a₁ a₂) (fn b₁ b₂) (.error e)
  | fn {a₁ a₂ b₁ b₂ : Ty} {s r : Subst} (hdom : Unifies a₁ b₁ (.ok s))
      (hcod : Unifies (a₂.subst s) (b₂.subst s) (.ok r)) :
    Unifies (fn a₁ a₂) (fn b₁ b₂) (.ok (r.comp s))

private theorem unifies_var_left (v : Nat) (t : Ty) : Unifies (var v) t ((var v).mgu t) := by
  rw [mgu_var_left]
  split
  · rename_i heq
    rw [heq]
    exact .same v
  · rename_i hne
    split
    · rename_i hoccurs
      cases t with
      | int => simp at hoccurs
      | bool => simp at hoccurs
      | var w =>
        rw [vars_var, VarSet.mem_singleton] at hoccurs
        exact absurd (congrArg var hoccurs.symm) hne
      | fn a b => exact .infiniteLeft hoccurs
    · rename_i hoccurs
      exact .left hoccurs

private theorem unifies_var_right {t : Ty} {head : Head} (hhead : t.head? = some head) (v : Nat) :
    Unifies t (var v) (t.mgu (var v)) := by
  rw [mgu_var_right hhead]
  split
  · rename_i hoccurs
    cases t with
    | int => simp at hoccurs
    | bool => simp at hoccurs
    | var w => simp [head?] at hhead
    | fn a b => exact .infiniteRight hoccurs
  · rename_i hoccurs
    exact .right hhead hoccurs

private theorem unifies_fn {a₁ a₂ b₁ b₂ : Ty} (hdom : Unifies a₁ b₁ (a₁.mgu b₁))
    (hcod : ∀ s, a₁.mgu b₁ = .ok s →
      Unifies (a₂.subst s) (b₂.subst s) ((a₂.subst s).mgu (b₂.subst s))) :
    Unifies (fn a₁ a₂) (fn b₁ b₂) ((fn a₁ a₂).mgu (fn b₁ b₂)) := by
  rw [mgu_fn]
  cases hfirst : a₁.mgu b₁ with
  | error e => exact .domains (hfirst ▸ hdom)
  | ok s =>
    have hrest := hcod s hfirst
    dsimp only
    cases hsecond : (a₂.subst s).mgu (b₂.subst s) with
    | error e => exact .codomains (hfirst ▸ hdom) (hsecond ▸ hrest)
    | ok r => exact .fn (hfirst ▸ hdom) (hsecond ▸ hrest)

theorem unifies_mgu (a b : Ty) : Unifies a b (a.mgu b) := by
  induction a, b using solve.induct with
  | case1 =>
    rw [mgu_int]
    exact .int
  | case2 =>
    rw [mgu_bool]
    exact .bool
  | case3 v t => exact unifies_var_left v t
  | case4 t v hvar =>
    cases t with
    | var w => exact absurd rfl (hvar w)
    | _ => exact unifies_var_right rfl v
  | case5 a₁ a₂ b₁ b₂ e hfirst ihdom =>
    refine unifies_fn ihdom fun s hs => ?_
    simp [mgu, hfirst, Except.map] at hs
  | case6 a₁ a₂ b₁ b₂ s hs hfirst e hsecond ihdom ihcod =>
    refine unifies_fn ihdom fun s' hs' => ?_
    have heq : s = s' := by simpa [mgu, hfirst, Except.map] using hs'
    exact heq ▸ ihcod
  | case7 a₁ a₂ b₁ b₂ s hs hfirst r hr hsecond ihdom ihcod =>
    refine unifies_fn ihdom fun s' hs' => ?_
    have heq : s = s' := by simpa [mgu, hfirst, Except.map] using hs'
    exact heq ▸ ihcod
  | case8 a b hint hbool hleft hright hfn =>
    have hclash : Clash a b := by
      cases a <;> cases b <;> grind [Clash, head?]
    rw [mgu_of_clash hclash]
    exact .clash hclash

private theorem ne_var_of_not_mem_vars {v : Nat} {t : Ty} (hoccurs : v ∉ t.vars) : t ≠ .var v := by
  rintro rfl
  simp at hoccurs

theorem Unifies.eq_mgu {a b : Ty} {r : Except TypeError Subst} (h : Unifies a b r) :
    r = a.mgu b := by
  induction h with
  | int => rw [mgu_int]
  | bool => rw [mgu_bool]
  | same v => rw [mgu_var_left, if_pos rfl]
  | left hoccurs => rw [mgu_var_left, if_neg (ne_var_of_not_mem_vars hoccurs), if_neg hoccurs]
  | right hhead hoccurs => rw [mgu_var_right hhead, if_neg hoccurs]
  | infiniteLeft hoccurs => rw [mgu_var_left, if_neg (by simp), if_pos hoccurs]
  | infiniteRight hoccurs => rw [mgu_var_right rfl, if_pos hoccurs]
  | clash hclash => rw [mgu_of_clash hclash]
  | domains hdom ihdom => rw [mgu_fn, ← ihdom]
  | codomains hdom hcod ihdom ihcod =>
    rw [mgu_fn, ← ihdom]
    dsimp only
    rw [← ihcod]
    rfl
  | fn hdom hcod ihdom ihcod =>
    rw [mgu_fn, ← ihdom]
    dsimp only
    rw [← ihcod]
    rfl

/-- The outcome of unification is the only one that the rules allow. -/
theorem unifies_iff {a b : Ty} {r : Except TypeError Subst} : Unifies a b r ↔ r = a.mgu b := by
  constructor
  · intro h
    exact h.eq_mgu
  · intro heq
    exact heq ▸ unifies_mgu a b

end Ty

/-! ### Making the types equal -/

namespace Subst

private theorem subst_singleton_of_not_mem {v : Nat} {t u : Ty} (hv : v ∉ u.vars) :
    u.subst (singleton v t) = u := by
  refine Ty.subst_eq_self fun w hw => ?_
  rw [image_singleton, if_neg]
  rintro rfl
  exact hv hw

private theorem image_singleton_self (v : Nat) (t : Ty) : (singleton v t).image v = t := by
  rw [image_singleton, if_pos rfl]

end Subst

namespace Ty.Unifies

theorem subst_eq {a b : Ty} {r : Except TypeError Subst} (h : Unifies a b r) {s : Subst}
    (hok : r = .ok s) : a.subst s = b.subst s := by
  induction h generalizing s with
  | int => rfl
  | bool => rfl
  | same v => rfl
  | left hoccurs =>
    cases hok
    rw [subst_var, Subst.image_singleton_self, Subst.subst_singleton_of_not_mem hoccurs]
  | right hhead hoccurs =>
    cases hok
    rw [subst_var, Subst.image_singleton_self, Subst.subst_singleton_of_not_mem hoccurs]
  | infiniteLeft hoccurs => cases hok
  | infiniteRight hoccurs => cases hok
  | clash hclash => cases hok
  | domains hdom ihdom => cases hok
  | codomains hdom hcod ihdom ihcod => cases hok
  | fn hdom hcod ihdom ihcod =>
    cases hok
    rw [subst_comp, subst_comp, subst_fn, subst_fn, subst_fn, subst_fn, ihdom rfl, ihcod rfl]

end Ty.Unifies

/-! ### The variables of the unifier -/

namespace Subst

/-- The substitution moves and brings in only variables of `V`, and is solved. -/
structure Within (s : Subst) (V : Set Nat) : Prop where
  keys : ∀ v ∈ s, v ∈ V
  range : ∀ v ∈ s, ∀ w ∈ (s.image v).vars, w ∈ V
  solved : s.Solved

theorem Within.mono {s : Subst} {V W : Set Nat} (hs : s.Within W) (hsub : ∀ v ∈ W, v ∈ V) :
    s.Within V :=
  ⟨fun v hv => hsub v (hs.keys v hv), fun v hv w hw => hsub w (hs.range v hv w hw), hs.solved⟩

theorem within_empty (V : Set Nat) : (∅ : Subst).Within V :=
  ⟨fun v hv => absurd hv (not_mem_empty v), fun v hv => absurd hv (not_mem_empty v),
    fun v hv => absurd hv (not_mem_empty v)⟩

private theorem within_singleton {v : Nat} {t : Ty} {V : Set Nat} (hv : v ∈ V)
    (ht : ∀ w ∈ t.vars, w ∈ V) (hoccurs : v ∉ t.vars) :
    (singleton v t).Within V := by
  refine ⟨fun w hw => ?_, fun w hw => ?_, fun w hw x hx hmem => ?_⟩
  · rw [mem_singleton] at hw
    exact hw ▸ hv
  · rw [mem_singleton] at hw
    rw [hw, image_singleton_self]
    exact ht
  · rw [mem_singleton] at hw hmem
    rw [hw, image_singleton_self] at hx
    exact hoccurs (hmem ▸ hx)

theorem Within.mem_vars_subst {s : Subst} {V : Set Nat} (hs : s.Within V) {t : Ty} {w : Nat}
    (hw : w ∈ (t.subst s).vars) :
    w ∈ t.vars ∨ w ∈ V := by
  rcases mem_vars_subst_cases hw with ⟨hin, -⟩ | ⟨v, -, hv, hwv⟩
  · exact .inl hin
  · exact .inr (hs.range v hv w hwv)

theorem Within.mem_vars_image {s : Subst} {V : Set Nat} (hs : s.Within V) {v w : Nat}
    (hw : w ∈ (s.image v).vars) : w = v ∨ w ∈ V := by
  rcases hs.mem_vars_subst (t := .var v) hw with hin | hin
  · exact .inl (VarSet.mem_singleton.mp hin)
  · exact .inr hin

/-- A second substitution whose variables the first one does not move extends the first
to a solved one. -/
theorem Within.comp {s r : Subst} {V W : Set Nat} (hs : s.Within V) (hr : r.Within W)
    (hsub : ∀ w ∈ W, w ∈ V) (hapart : ∀ w ∈ W, w ∉ s) : (r.comp s).Within V := by
  have hcases : ∀ v ∈ r.comp s, ∀ w ∈ ((r.comp s).image v).vars, (w ∈ V ∧ w ∉ s) ∧ w ∉ r := by
    intro v hv w hw
    rw [image_comp] at hw
    refine ⟨?_, hr.solved.not_mem_of_mem_subst hw⟩
    rcases mem_vars_subst_cases hw with ⟨hin, hnot⟩ | ⟨x, -, hx, hwx⟩
    · by_cases hmem : v ∈ s
      · exact ⟨hs.range v hmem w hin, hs.solved v hmem w hin⟩
      · rw [image_of_not_mem hmem, Ty.vars_var, VarSet.mem_singleton] at hin
        subst hin
        exact absurd ((mem_comp.mp hv).resolve_left hmem) hnot
    · have hin := hr.range x hx w hwx
      exact ⟨hsub w hin, hapart w hin⟩
  refine ⟨fun v hv => ?_, fun v hv w hw => (hcases v hv w hw).1.1, fun v hv w hw hmem => ?_⟩
  · rcases mem_comp.mp hv with hv | hv
    · exact hs.keys v hv
    · exact hsub v (hr.keys v hv)
  · obtain ⟨⟨-, hnots⟩, hnotr⟩ := hcases v hv w hw
    exact (mem_comp.mp hmem).elim hnots hnotr

end Subst

namespace Ty.Unifies

theorem within {a b : Ty} {r : Except TypeError Subst} (h : Unifies a b r) {s : Subst}
    (hok : r = .ok s) :
    s.Within {v | v ∈ a.pairVars b} := by
  induction h generalizing s with
  | int =>
    cases hok
    exact Subst.within_empty _
  | bool =>
    cases hok
    exact Subst.within_empty _
  | same v =>
    cases hok
    exact Subst.within_empty _
  | left hoccurs =>
    cases hok
    exact Subst.within_singleton (by simp [pairVars]) (fun w hw => by simp [pairVars, hw]) hoccurs
  | right hhead hoccurs =>
    cases hok
    exact Subst.within_singleton (by simp [pairVars]) (fun w hw => by simp [pairVars, hw]) hoccurs
  | infiniteLeft hoccurs => cases hok
  | infiniteRight hoccurs => cases hok
  | clash hclash => cases hok
  | domains hdom ihdom => cases hok
  | codomains hdom hcod ihdom ihcod => cases hok
  | @fn a₁ a₂ b₁ b₂ s r hdom hcod ihdom ihcod =>
    cases hok
    have hs : s.Within {v | v ∈ a₁.pairVars b₁} := ihdom rfl
    have hlarge : s.Within {v | v ∈ (Ty.fn a₁ a₂).pairVars (Ty.fn b₁ b₂)} :=
      hs.mono fun v hv => mem_pairVars_of_domains hv
    refine hlarge.comp (ihcod rfl)
      (fun w hw => mem_pairVars_of_codomains (fun _ _ => hs.mem_vars_subst) hw) fun w hw => ?_
    rcases VarSet.mem_union.mp hw with hw | hw
    · exact hs.solved.not_mem_of_mem_subst hw
    · exact hs.solved.not_mem_of_mem_subst hw

end Ty.Unifies

/-- The variables of the types that an error names. -/
def TypeError.vars : TypeError → VarSet
  | unbound _ => ∅
  | mismatch left right => left.vars ∪ right.vars
  | infinite v t => {v} ∪ t.vars

theorem Ty.Unifies.mem_pairVars_of_error {a b : Ty} {r : Except TypeError Subst} (h : Unifies a b r)
    {e : TypeError} (herror : r = .error e) {w : Nat} (hw : w ∈ e.vars) : w ∈ a.pairVars b := by
  induction h with
  | int | bool | same | left | right | fn => cases herror
  | infiniteLeft hoccurs | infiniteRight hoccurs =>
    cases herror
    simp only [TypeError.vars, VarSet.mem_union, VarSet.mem_singleton] at hw
    simp only [pairVars, Ty.vars_var, VarSet.mem_union, VarSet.mem_singleton]
    tauto
  | clash hclash =>
    cases herror
    exact hw
  | domains hdom ihdom => exact mem_pairVars_of_domains (ihdom herror)
  | codomains hdom hcod ihdom ihcod =>
    exact mem_pairVars_of_codomains (fun _ _ => (hdom.within rfl).mem_vars_subst) (ihcod herror)

/-! ### Generality -/

namespace Subst

/-- Replacing by `f` undoes nothing that the substitution does: `f` factors through it. -/
def Absorbed (s : Subst) (f : Nat → Ty) : Prop := ∀ v, (s.image v).bind f = f v

theorem Absorbed.bind_subst {s : Subst} {f : Nat → Ty} (hs : s.Absorbed f) (t : Ty) :
    (t.subst s).bind f = t.bind f := by
  rw [Ty.subst, Ty.bind_bind]
  exact Ty.bind_congr fun v _ => hs v

private theorem absorbed_empty (f : Nat → Ty) : (∅ : Subst).Absorbed f := fun _ => rfl

private theorem absorbed_singleton {v : Nat} {t : Ty} {f : Nat → Ty} (heq : f v = t.bind f) :
    (singleton v t).Absorbed f := by
  intro w
  rw [image_singleton]
  split
  · rename_i hw
    exact hw ▸ heq.symm
  · rfl

end Subst

namespace Ty.Unifies

/-- No replacement makes a variable equal to a function that contains it. -/
private theorem bind_ne_of_occurs {f : Nat → Ty} {v : Nat} {a b : Ty}
    (hoccurs : v ∈ (Ty.fn a b).vars) : f v ≠ (Ty.fn a b).bind f := by
  intro heq
  have hsize : (f v).size = (a.bind f).size + (b.bind f).size + 1 := congrArg size heq
  rw [vars_fn, VarSet.mem_union] at hoccurs
  rcases hoccurs with hin | hin
  · have := size_le_size_bind (f := f) hin
    omega
  · have := size_le_size_bind (f := f) hin
    omega

/-- Types that can be made equal have a unifier, and whatever makes them equal
factors through it. -/
theorem exists_absorbed {a b : Ty} {r : Except TypeError Subst} (h : Unifies a b r) {f : Nat → Ty}
    (heq : a.bind f = b.bind f) :
    ∃ s, r = .ok s ∧ s.Absorbed f := by
  induction h with
  | int => exact ⟨∅, rfl, Subst.absorbed_empty f⟩
  | bool => exact ⟨∅, rfl, Subst.absorbed_empty f⟩
  | same v => exact ⟨∅, rfl, Subst.absorbed_empty f⟩
  | left hoccurs => exact ⟨_, rfl, Subst.absorbed_singleton heq⟩
  | right hhead hoccurs => exact ⟨_, rfl, Subst.absorbed_singleton heq.symm⟩
  | infiniteLeft hoccurs => exact absurd heq (bind_ne_of_occurs hoccurs)
  | infiniteRight hoccurs => exact absurd heq.symm (bind_ne_of_occurs hoccurs)
  | clash hclash => exact absurd heq (hclash.bind f).ne
  | domains hdom ihdom =>
    obtain ⟨s, hs, -⟩ := ihdom (Ty.fn.inj heq).1
    cases hs
  | codomains hdom hcod ihdom ihcod =>
    obtain ⟨s, hs, habsorbed⟩ := ihdom (Ty.fn.inj heq).1
    cases hs
    obtain ⟨r, hr, -⟩ :=
      ihcod (by rw [habsorbed.bind_subst, habsorbed.bind_subst, (Ty.fn.inj heq).2])
    cases hr
  | fn hdom hcod ihdom ihcod =>
    obtain ⟨s, hs, habsorbed⟩ := ihdom (Ty.fn.inj heq).1
    cases hs
    obtain ⟨r, hr, habsorbed'⟩ :=
      ihcod (by rw [habsorbed.bind_subst, habsorbed.bind_subst, (Ty.fn.inj heq).2])
    cases hr
    refine ⟨_, rfl, fun v => ?_⟩
    rw [Subst.image_comp, habsorbed'.bind_subst]
    exact habsorbed v

end Ty.Unifies

/-- What is asked of a most general unifier of `a` and `b`. -/
structure Subst.MostGeneral (s : Subst) (a b : Ty) : Prop where
  unifies : a.subst s = b.subst s
  solved : ∀ entry ∈ s.entries, ∀ w ∈ entry.2.vars, w ∉ s
  keys : ∀ entry ∈ s.entries, entry.1 ∈ a.vars ∨ entry.1 ∈ b.vars
  range : ∀ entry ∈ s.entries, ∀ w ∈ entry.2.vars, w ∈ a.vars ∨ w ∈ b.vars
  general : ∀ θ : Subst, a.subst θ = b.subst θ → ∀ t : Ty, (t.subst s).subst θ = t.subst θ

theorem Ty.Unifies.mostGeneral {a b : Ty} {s : Subst} (h : Unifies a b (.ok s)) :
    s.MostGeneral a b := by
  have hwithin := h.within rfl
  have hentry : ∀ entry ∈ s.entries, entry.1 ∈ s ∧ s.image entry.1 = entry.2 :=
    fun _ hmem => Subst.image_of_mem_entries hmem
  constructor
  · exact h.subst_eq rfl
  · intro entry hmem w hw
    obtain ⟨hkey, himage⟩ := hentry entry hmem
    exact hwithin.solved entry.1 hkey w (himage ▸ hw)
  · intro entry hmem
    have hpair : entry.1 ∈ a.pairVars b := hwithin.keys entry.1 (hentry entry hmem).1
    simpa [pairVars] using hpair
  · intro entry hmem w hw
    obtain ⟨hkey, himage⟩ := hentry entry hmem
    have hpair : w ∈ a.pairVars b := hwithin.range entry.1 hkey w (himage ▸ hw)
    simpa [pairVars] using hpair
  · intro θ heq t
    obtain ⟨s', hs', habsorbed⟩ := h.exists_absorbed heq
    cases hs'
    exact habsorbed.bind_subst t

/-- The unifier that is found is solved, is made of the variables of the two types, and is most
general; and where none is found there is none. -/
theorem Ty.mgu_mostGeneral (a b : Ty) :
    (∀ s, a.mgu b = .ok s → s.MostGeneral a b) ∧ ∀ e, a.mgu b = .error e →
      ∀ θ : Subst, a.subst θ ≠ b.subst θ := by
  have hunifies := unifies_mgu a b
  constructor
  · intro s hok
    rw [hok] at hunifies
    exact hunifies.mostGeneral
  · intro e herror θ heq
    obtain ⟨s, hok, -⟩ := hunifies.exists_absorbed heq
    rw [herror] at hok
    cases hok

/-- The domains demand that `0` be a function; only then do the codomains meet, and they demand
something of its parts, which may be too much. -/
theorem Ty.mgu_mostGeneral_nested :
    ((Ty.fn (.var 0) (.var 0)).mgu (.fn (.fn (.var 1) (.var 2)) (.fn (.var 1) .int)) =
        .ok (Subst.comp (.singleton 2 .int) (.singleton 0 (.fn (.var 1) (.var 2)))) ∧
      (Subst.comp (.singleton 2 .int) (.singleton 0 (.fn (.var 1) (.var 2)))).MostGeneral
        (.fn (.var 0) (.var 0))
        (.fn (.fn (.var 1) (.var 2)) (.fn (.var 1) .int))) ∧
      (Ty.fn (.var 0) (.var 0)).mgu (.fn (.fn (.var 1) (.var 2)) (.var 1)) =
        .error (.infinite 1 (.fn (.var 1) (.var 2))) ∧
      ∀ θ : Subst, (Ty.fn (.var 0) (.var 0)).subst θ ≠
        (Ty.fn (.fn (.var 1) (.var 2)) (.var 1)).subst θ := by
  have hdom : (Ty.var 0).mgu (.fn (.var 1) (.var 2)) =
      .ok (.singleton 0 (.fn (.var 1) (.var 2))) := by
    rw [mgu_var_left, if_neg (by decide), if_neg (by decide)]
  have hcod : (Ty.fn (.var 1) (.var 2)).mgu (.fn (.var 1) .int) = .ok (.singleton 2 .int) := by
    rw [mgu_fn, mgu_var_left, if_pos rfl]
    dsimp only
    rw [subst_empty, subst_empty, mgu_var_left, if_neg (by decide), if_neg (by decide)]
    rfl
  have hok : (Ty.fn (.var 0) (.var 0)).mgu (.fn (.fn (.var 1) (.var 2)) (.fn (.var 1) .int)) =
      .ok (Subst.comp (.singleton 2 .int) (.singleton 0 (.fn (.var 1) (.var 2)))) := by
    rw [mgu_fn, hdom]
    change ((Ty.fn (.var 1) (.var 2)).mgu (.fn (.var 1) .int)).map _ = _
    rw [hcod]
    rfl
  have herror : (Ty.fn (.var 0) (.var 0)).mgu (.fn (.fn (.var 1) (.var 2)) (.var 1)) =
      .error (.infinite 1 (.fn (.var 1) (.var 2))) := by
    rw [mgu_fn, hdom]
    change ((Ty.fn (.var 1) (.var 2)).mgu (.var 1)).map _ = _
    rw [mgu_var_right rfl, if_pos (by decide)]
    rfl
  exact ⟨⟨hok, (mgu_mostGeneral _ _).1 _ hok⟩, herror, (mgu_mostGeneral _ _).2 _ herror⟩

/-! ### Renaming -/

namespace Ty

/-- Outcomes of unification that differ by renaming the variables of `V`. An error
keeps its kind. -/
def RenamedOutcome (ρ : Nat → Nat) (V : Set Nat) :
    Except TypeError Subst → Except TypeError Subst → Prop
  | .ok s, .ok s' => ∀ v ∈ V, s'.image (ρ v) = (s.image v).rename ρ
  | .error e, .error e' => e'.kind = e.kind
  | _, _ => False

section

variable {ρ : Nat → Nat} {V : Set Nat}

private theorem mem_vars_rename_of_injOn (hinj : Set.InjOn ρ V) {t : Ty} {v : Nat} (hv : v ∈ V)
    (ht : ∀ w ∈ t.vars, w ∈ V) :
    ρ v ∈ (t.rename ρ).vars ↔ v ∈ t.vars := by
  rw [mem_vars_rename]
  constructor
  · rintro ⟨w, hw, heq⟩
    exact hinj hv (ht w hw) heq ▸ hw
  · intro hin
    exact ⟨v, hin, rfl⟩

/-- Renaming commutes with a substitution when it commutes with the images of the variables. -/
theorem subst_rename {s s' : Subst} {t : Ty}
    (himage : ∀ v ∈ V, s'.image (ρ v) = (s.image v).rename ρ) (ht : ∀ v ∈ t.vars, v ∈ V) :
    (t.rename ρ).subst s' = (t.subst s).rename ρ := by
  rw [subst, subst, rename_bind, bind_rename]
  exact bind_congr fun v hv => himage v (ht v hv)

private theorem renamedOutcome_singleton (hinj : Set.InjOn ρ V) {v : Nat} (t : Ty) (hv : v ∈ V) :
    RenamedOutcome ρ V (.ok (.singleton v t)) (.ok (.singleton (ρ v) (t.rename ρ))) := by
  intro w hw
  rw [Subst.image_singleton, Subst.image_singleton]
  by_cases heq : v = w
  · rw [if_pos heq, if_pos (congrArg ρ heq)]
  · rw [if_neg heq, if_neg fun h => heq (hinj hv hw h)]
    rfl

/-- Functions whose domains have a unifier: the outcome is that of the codomains, composed with
the first unifier. -/
private theorem renamedOutcome_fn {a₁ a₂ b₁ b₂ : Ty} {s : Subst} {r : Except TypeError Subst}
    (hV : ∀ v ∈ (fn a₁ a₂).pairVars (fn b₁ b₂), v ∈ V) (hs : s.Within V)
    (hdom : RenamedOutcome ρ V (.ok s) ((a₁.rename ρ).mgu (b₁.rename ρ)))
    (hcod : RenamedOutcome ρ V r (((a₂.subst s).rename ρ).mgu ((b₂.subst s).rename ρ))) :
    RenamedOutcome ρ V (r.map fun r => r.comp s)
      (((fn a₁ a₂).rename ρ).mgu ((fn b₁ b₂).rename ρ)) := by
  rw [rename_fn, rename_fn, mgu_fn]
  cases hfirst : (a₁.rename ρ).mgu (b₁.rename ρ) with
  | error e' =>
    rw [hfirst] at hdom
    exact hdom.elim
  | ok s' =>
    rw [hfirst] at hdom
    have hleft := subst_rename (t := a₂) hdom fun v hv => hV v (by simp [pairVars, hv])
    have hright := subst_rename (t := b₂) hdom fun v hv => hV v (by simp [pairVars, hv])
    dsimp only
    rw [hleft, hright]
    cases hsecond : ((a₂.subst s).rename ρ).mgu ((b₂.subst s).rename ρ) with
    | error e' =>
      rw [hsecond] at hcod
      cases r with
      | error e => exact hcod
      | ok r => exact hcod.elim
    | ok r' =>
      rw [hsecond] at hcod
      cases r with
      | error e => exact hcod.elim
      | ok r =>
        intro v hv
        rw [Subst.image_comp, Subst.image_comp, hdom v hv]
        exact subst_rename hcod fun w hw => (hs.mem_vars_image hw).elim (fun heq => heq ▸ hv) id

/-- Renaming two types renames the outcome of their unification. -/
theorem Unifies.renamedOutcome (hinj : Set.InjOn ρ V) {a b : Ty} {r : Except TypeError Subst}
    (h : Unifies a b r) (hV : ∀ v ∈ a.pairVars b, v ∈ V) :
    RenamedOutcome ρ V r ((a.rename ρ).mgu (b.rename ρ)) := by
  induction h with
  | int =>
    rw [show Ty.int.rename ρ = .int from rfl, mgu_int]
    exact fun v _ => rfl
  | bool =>
    rw [show Ty.bool.rename ρ = .bool from rfl, mgu_bool]
    exact fun v _ => rfl
  | same v =>
    rw [rename_var, mgu_var_left, if_pos rfl]
    exact fun v _ => rfl
  | @left v t hoccurs =>
    have hv : v ∈ V := hV v (by simp [pairVars])
    have hnot : ρ v ∉ (t.rename ρ).vars := by
      rwa [mem_vars_rename_of_injOn hinj hv fun w hw => hV w (by simp [pairVars, hw])]
    rw [rename_var, mgu_var_left, if_neg (ne_var_of_not_mem_vars hnot), if_neg hnot]
    exact renamedOutcome_singleton hinj t hv
  | @right v t head hhead hoccurs =>
    have hv : v ∈ V := hV v (by simp [pairVars])
    have hnot : ρ v ∉ (t.rename ρ).vars := by
      rwa [mem_vars_rename_of_injOn hinj hv fun w hw => hV w (by simp [pairVars, hw])]
    have hhead' : (t.rename ρ).head? = some head := head?_bind _ hhead
    rw [rename_var, mgu_var_right hhead', if_neg hnot]
    exact renamedOutcome_singleton hinj t hv
  | @infiniteLeft v a b hoccurs =>
    have hin : ρ v ∈ ((Ty.fn a b).rename ρ).vars := mem_vars_rename.mpr ⟨v, hoccurs, rfl⟩
    rw [rename_var, mgu_var_left, if_neg (by simp), if_pos hin]
    rfl
  | @infiniteRight v a b hoccurs =>
    have hin : ρ v ∈ ((Ty.fn a b).rename ρ).vars := mem_vars_rename.mpr ⟨v, hoccurs, rfl⟩
    rw [rename_var, mgu_var_right rfl, if_pos hin]
    rfl
  | @clash a b hclash =>
    have hclash' : Clash (a.rename ρ) (b.rename ρ) := hclash.bind _
    rw [mgu_of_clash hclash']
    rfl
  | @domains a₁ a₂ b₁ b₂ e hdom ihdom =>
    have hfirst := ihdom fun v hv => hV v (mem_pairVars_of_domains hv)
    rw [rename_fn, rename_fn, mgu_fn]
    cases hmgu : (a₁.rename ρ).mgu (b₁.rename ρ) with
    | ok s' =>
      rw [hmgu] at hfirst
      exact hfirst.elim
    | error e' =>
      rw [hmgu] at hfirst
      exact hfirst
  | @codomains a₁ a₂ b₁ b₂ s e hdom hcod ihdom ihcod =>
    have hs := hdom.within rfl
    have hfirst := ihdom fun v hv => hV v (mem_pairVars_of_domains hv)
    have hsecond :=
      ihcod fun v hv => hV v (mem_pairVars_of_codomains (fun _ _ => hs.mem_vars_subst) hv)
    exact renamedOutcome_fn hV (hs.mono fun v hv => hV v (mem_pairVars_of_domains hv)) hfirst
      hsecond
  | @fn a₁ a₂ b₁ b₂ s r hdom hcod ihdom ihcod =>
    have hs := hdom.within rfl
    have hfirst := ihdom fun v hv => hV v (mem_pairVars_of_domains hv)
    have hsecond :=
      ihcod fun v hv => hV v (mem_pairVars_of_codomains (fun _ _ => hs.mem_vars_subst) hv)
    exact renamedOutcome_fn hV (hs.mono fun v hv => hV v (mem_pairVars_of_domains hv)) hfirst
      hsecond

theorem mgu_self (t : Ty) : t.mgu t = .ok ∅ := by
  induction t with
  | int => exact mgu_int
  | bool => exact mgu_bool
  | var v => rw [mgu_var_left, if_pos rfl]
  | fn a b iha ihb =>
    rw [mgu_fn, iha]
    dsimp only
    rw [subst_empty, ihb]
    rfl

end

end Ty

end HindleyMilner
