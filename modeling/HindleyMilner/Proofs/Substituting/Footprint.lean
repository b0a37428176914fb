import HindleyMilner.Proofs.Hygiene
import HindleyMilner.Proofs.Runs
import HindleyMilner.Proofs.Unification

/-!
# The variables of a substituting run

Everything that algorithm W returns is made of variables that are free in the context and variables
drawn in the run. The substitution is solved, and its own variables are gone from the type as well;
by the definition of a solved substitution they are then gone from the context under it. None of
this needs the context to be hygienic, only that the supply is above its free variables.

Because what a subterm moves is gone from the context in which the next subterm is typed, the
substitutions of a run compose without getting in each other's way, which is how the
induction goes through.
-/

namespace HindleyMilner.Context

variable {Γ : Context}

/-- The free variables of the context, and the indices from `n` up to `n'`. -/
def reach (Γ : Context) (n n' : Nat) : Set Nat := {v | v ∈ Γ.free ∨ n ≤ v ∧ v < n'}

/-- A generalized type brings no variable into reach. -/
theorem reach_insert_generalize {name : String} {t : Ty} {n n' w : Nat}
    (hw : w ∈ reach (Γ.insert name (Γ.generalize t)) n n') : w ∈ Γ.reach n n' := by
  rcases hw with hin | hdrawn
  · exact .inl ((mem_free_insert hin).elim (fun hown => (mem_free_generalize.mp hown).2) id)
  · exact .inr hdrawn

theorem reach_insert_fresh {param : String} {n n' w : Nat} (hle : n + 1 ≤ n')
    (hw : w ∈ reach (Γ.insert param (.mono (.var n))) (n + 1) n') :
    w ∈ Γ.reach n n' := by
  rcases hw with hin | ⟨hge, hlt⟩
  · rcases mem_free_insert hin with hown | hin
    · rw [Scheme.mem_free_mono, Ty.vars_var, VarSet.mem_singleton] at hown
      exact .inr ⟨by omega, by omega⟩
    · exact .inl hin
  · exact .inr ⟨by omega, hlt⟩

theorem reach_widen {m m' : Nat} (hle : m' ≤ m) {k k' : Nat} (hle' : k ≤ k') {w : Nat}
    (hw : w ∈ Γ.reach m k) : w ∈ Γ.reach m' k' := by
  rcases hw with hin | ⟨hge, hlt⟩
  · exact .inl hin
  · exact .inr ⟨by omega, by omega⟩

/-- Where the variables of a result come from that is typed in `Γ` while the supply goes
from `n` to `n'`. -/
structure Footprint (Γ : Context) (n : Nat) (S : Subst) (t : Ty) (n' : Nat) : Prop where
  le : n ≤ n'
  within : S.Within (Γ.reach n n')
  reached : ∀ w ∈ t.vars, w ∈ Γ.reach n n'
  solved : ∀ w ∈ t.vars, w ∉ S

namespace Footprint

variable {n n' : Nat} {S : Subst} {t : Ty}

/-- What is free in the context under the substitution was free before or drawn in the run,
and is not moved. -/
theorem mem_free_subst (h : Footprint Γ n S t n') {w : Nat} (hw : w ∈ (Γ.subst S).free) :
    w ∈ Γ.reach n n' ∧ w ∉ S := by
  obtain ⟨v, hv, hwv⟩ := exists_of_mem_free_subst hw
  refine ⟨?_, h.within.solved.not_mem_of_mem_subst (t := .var v) hwv⟩
  rcases h.within.mem_vars_image hwv with heq | hin
  · exact heq ▸ .inl hv
  · exact hin

theorem free_lt (h : Footprint Γ n S t n') (hfree : ∀ v ∈ Γ.free, v < n) :
    ∀ w ∈ (Γ.subst S).free, w < n' := by
  intro w hw
  rcases (h.mem_free_subst hw).1 with hin | ⟨-, hlt⟩
  · exact Nat.lt_of_lt_of_le (hfree w hin) h.le
  · exact hlt

theorem reach_subst (h : Footprint Γ n S t n') {n'' : Nat} (hle : n' ≤ n'') {w : Nat}
    (hw : w ∈ (Γ.subst S).reach n' n'') : w ∈ Γ.reach n n'' := by
  rcases hw with hfree | ⟨hge, hlt⟩
  · rcases (h.mem_free_subst hfree).1 with hin | ⟨hge, hlt⟩
    · exact .inl hin
    · exact .inr ⟨hge, by omega⟩
  · have := h.le
    exact .inr ⟨by omega, hlt⟩

theorem not_mem_of_reach (h : Footprint Γ n S t n') (hfree : ∀ v ∈ Γ.free, v < n) {n'' w : Nat}
    (hw : w ∈ (Γ.subst S).reach n' n'') : w ∉ S := by
  intro hmem
  rcases hw with hin | ⟨hge, -⟩
  · exact (h.mem_free_subst hin).2 hmem
  · rcases h.within.keys w hmem with hin | ⟨-, hlt⟩
    · have := hfree w hin
      have := h.le
      omega
    · omega

theorem type_lt (h : Footprint Γ n S t n') (hfree : ∀ v ∈ Γ.free, v < n) :
    ∀ w ∈ t.vars, w < n' := by
  intro w hw
  rcases h.reached w hw with hin | ⟨-, hlt⟩
  · exact Nat.lt_of_lt_of_le (hfree w hin) h.le
  · exact hlt

/-- Old variables are replaced by types over old variables and variables drawn in the run. -/
theorem image_lt (h : Footprint Γ n S t n') (hfree : ∀ v ∈ Γ.free, v < n) {v : Nat} (hv : v < n) :
    ∀ w ∈ (S.image v).vars, w < n' := by
  intro w hw
  have := h.le
  rcases h.within.mem_vars_image hw with heq | hin | ⟨-, hlt⟩
  · omega
  · have := hfree w hin
    omega
  · exact hlt

/-! ### One lemma for each construct -/

theorem literal (Γ : Context) (n : Nat) {t : Ty} (hclosed : ∀ v, v ∉ t.vars) :
    Footprint Γ n ∅ t n :=
  ⟨Nat.le_refl n, Subst.within_empty _, fun w hw => absurd hw (hclosed w),
    fun w hw => absurd hw (hclosed w)⟩

theorem opened {name : String} {σ : Scheme} (hget : Γ.get? name = some σ) (n : Nat) :
    Footprint Γ n ∅ (σ.opened n) (n + σ.binders.size) := by
  refine ⟨Nat.le_add_right _ _, Subst.within_empty _, fun w hw => ?_,
    fun w _ => Subst.not_mem_empty w⟩
  obtain ⟨v, hv, rfl⟩ := Ty.mem_vars_rename.mp hw
  by_cases hbinder : v ∈ σ.binders
  · have hlt := List.idxOf_lt_length_of_mem hbinder
    rw [if_pos hbinder]
    exact .inr ⟨Nat.le_add_right _ _, Nat.add_lt_add_left hlt n⟩
  · rw [if_neg hbinder]
    exact .inl (mem_free_iff.mpr ⟨name, σ, hget, Scheme.mem_free.mpr ⟨hv, hbinder⟩⟩)

section Application

variable {n₁ n₂ : Nat} {s₁ s₂ u : Subst} {t₁ t₂ : Ty}

theorem comp (hfree : ∀ v ∈ Γ.free, v < n) (h₁ : Footprint Γ n s₁ t₁ n₁)
    (h₂ : s₂.Within ((Γ.subst s₁).reach n₁ n₂)) (hle : n₁ ≤ n₂) :
    (s₂.comp s₁).Within (Γ.reach n n₂) :=
  (h₁.within.mono fun _ hw => reach_widen (Nat.le_refl n) hle hw).comp h₂
    (fun _ hw => h₁.reach_subst hle hw) fun _ hw => h₁.not_mem_of_reach hfree hw

theorem result_not_mem (hfree : ∀ v ∈ Γ.free, v < n) (h₁ : Footprint Γ (n + 1) s₁ t₁ n₁)
    (h₂ : Footprint (Γ.subst s₁) n₁ s₂ t₂ n₂) :
    n ∉ s₂.comp s₁ := by
  intro hmem
  rcases (comp (fun v hv => Nat.lt_succ_of_lt (hfree v hv)) h₁ h₂.within h₂.le).keys n
    hmem with hin | ⟨hge, -⟩
  · exact Nat.lt_irrefl n (hfree n hin)
  · omega

/-- What is unified in the end is within reach, and the subterms have not moved it. -/
theorem mem_pairVars (hfree : ∀ v ∈ Γ.free, v < n) (h₁ : Footprint Γ (n + 1) s₁ t₁ n₁)
    (h₂ : Footprint (Γ.subst s₁) n₁ s₂ t₂ n₂) {w : Nat}
    (hw : w ∈ (t₁.subst s₂).pairVars (.fn t₂ (.var n))) : w ∈ Γ.reach n n₂ ∧ w ∉ s₂.comp s₁ := by
  have hfree₁ : ∀ v ∈ Γ.free, v < n + 1 := fun v hv => Nat.lt_succ_of_lt (hfree v hv)
  have hreach : ∀ w ∈ (Γ.subst s₁).reach n₁ n₂, w ∈ Γ.reach n n₂ :=
    fun w hw => reach_widen (Nat.le_succ n) (Nat.le_refl n₂) (h₁.reach_subst h₂.le hw)
  rw [Ty.pairVars, Ty.vars_fn, VarSet.mem_union, VarSet.mem_union, Ty.vars_var,
    VarSet.mem_singleton] at hw
  rcases hw with hw | hw | rfl
  · have hnot₂ := h₂.within.solved.not_mem_of_mem_subst hw
    rcases h₂.within.mem_vars_subst hw with hin | hin
    · exact ⟨reach_widen (Nat.le_succ n) h₂.le (h₁.reached w hin),
        fun hmem => (Subst.mem_comp.mp hmem).elim (h₁.solved w hin) hnot₂⟩
    · exact ⟨hreach w hin,
        fun hmem => (Subst.mem_comp.mp hmem).elim (h₁.not_mem_of_reach hfree₁ hin) hnot₂⟩
  · have hin := h₂.reached w hw
    exact ⟨hreach w hin,
      fun hmem => (Subst.mem_comp.mp hmem).elim (h₁.not_mem_of_reach hfree₁ hin) (h₂.solved w hw)⟩
  · exact ⟨.inr ⟨Nat.le_refl _, Nat.le_trans h₁.le h₂.le⟩, result_not_mem hfree h₁ h₂⟩

theorem unifier_within (hfree : ∀ v ∈ Γ.free, v < n) (h₁ : Footprint Γ (n + 1) s₁ t₁ n₁)
    (h₂ : Footprint (Γ.subst s₁) n₁ s₂ t₂ n₂) (hu : (t₁.subst s₂).mgu (.fn t₂ (.var n)) = .ok u) :
    u.Within (Γ.reach n n₂) :=
  ((Ty.unifies_mgu _ _).within hu).mono fun _ hw => (mem_pairVars hfree h₁ h₂ hw).1

theorem app (hfree : ∀ v ∈ Γ.free, v < n) (h₁ : Footprint Γ (n + 1) s₁ t₁ n₁)
    (h₂ : Footprint (Γ.subst s₁) n₁ s₂ t₂ n₂) (hu : (t₁.subst s₂).mgu (.fn t₂ (.var n)) = .ok u) :
    Footprint Γ n (u.comp (s₂.comp s₁)) ((Ty.var n).subst u) n₂ := by
  have hle : n + 1 ≤ n₂ := Nat.le_trans h₁.le h₂.le
  have hcomp : (s₂.comp s₁).Within (Γ.reach n n₂) :=
    (comp (fun v hv => Nat.lt_succ_of_lt (hfree v hv)) h₁ h₂.within h₂.le).mono fun w hw =>
      reach_widen (Nat.le_succ n) (Nat.le_refl n₂) hw
  have hunifier := (Ty.unifies_mgu _ _).within hu
  have hwithin : (u.comp (s₂.comp s₁)).Within (Γ.reach n n₂) :=
    hcomp.comp hunifier (fun w hw => (mem_pairVars hfree h₁ h₂ hw).1) fun w hw =>
      (mem_pairVars hfree h₁ h₂ hw).2
  refine ⟨by omega, hwithin, fun w hw => ?_, fun w hw hmem => ?_⟩
  · rcases hunifier.mem_vars_image hw with rfl | hin
    · exact .inr ⟨Nat.le_refl _, by omega⟩
    · exact (mem_pairVars hfree h₁ h₂ hin).1
  · rcases Subst.mem_comp.mp hmem with hin | hin
    · rcases hunifier.mem_vars_image hw with rfl | hrange
      · exact result_not_mem hfree h₁ h₂ hin
      · exact (mem_pairVars hfree h₁ h₂ hrange).2 hin
    · exact hunifier.solved.not_mem_of_mem_subst (t := .var n) hw hin

end Application

theorem abs {param : String} (h : Footprint (Γ.insert param (.mono (.var n))) (n + 1) S t n') :
    Footprint Γ n S (.fn ((Ty.var n).subst S) t) n' := by
  have hle := h.le
  have hreach : ∀ w ∈ reach (Γ.insert param (.mono (.var n))) (n + 1) n', w ∈ Γ.reach n n' :=
    fun w hw => reach_insert_fresh hle hw
  refine ⟨by omega, h.within.mono hreach, fun w hw => ?_, fun w hw => ?_⟩
  · rcases VarSet.mem_union.mp hw with hw | hw
    · rcases h.within.mem_vars_image hw with heq | hin
      · exact .inr ⟨by omega, by omega⟩
      · exact hreach w hin
    · exact hreach w (h.reached w hw)
  · rcases VarSet.mem_union.mp hw with hw | hw
    · exact h.within.solved.not_mem_of_mem_subst (t := .var n) hw
    · exact h.solved w hw

/-- Substituting does nothing to the scheme of a type that is already under the substitution. -/
theorem generalize_subst_self (h : Footprint Γ n S t n') (Δ : Context) :
    (Δ.generalize t).subst S = Δ.generalize t := by
  refine Scheme.subst_eq_self fun v hv => Subst.image_of_not_mem ?_
  exact h.solved v (mem_free_generalize.mp hv).1

theorem letIn {name : String} {n₁ n₂ : Nat} {s₁ s₂ : Subst} {t₁ t₂ : Ty}
    (hfree : ∀ v ∈ Γ.free, v < n) (h₁ : Footprint Γ n s₁ t₁ n₁)
    (h₂ : Footprint ((Γ.subst s₁).insert name ((Γ.subst s₁).generalize t₁)) n₁ s₂ t₂ n₂) :
    Footprint Γ n (s₂.comp s₁) t₂ n₂ := by
  have hwithin : (s₂.comp s₁).Within (Γ.reach n n₂) :=
    comp hfree h₁ (h₂.within.mono fun _ hw => reach_insert_generalize hw) h₂.le
  refine ⟨Nat.le_trans h₁.le h₂.le, hwithin,
    fun w hw => h₁.reach_subst h₂.le (reach_insert_generalize (h₂.reached w hw)),
    fun w hw hmem => ?_⟩
  rcases Subst.mem_comp.mp hmem with hin | hin
  · exact h₁.not_mem_of_reach hfree (reach_insert_generalize (h₂.reached w hw)) hin
  · exact h₂.solved w hw hin

end Footprint

/-! ### The whole run -/

/-- The run has stopped at a type error, which names nothing that was out of its reach. -/
def Stopped (Γ : Context) (mode : Supply.Mode) (n : Nat) (forest : Forest) (e : TypeError)
    (s : Session) : Prop :=
  ∃ n', s.Stands mode n' forest ∧ n ≤ n' ∧ ∀ w ∈ e.vars, w ∈ Γ.reach n n'

theorem Stopped.widen {Δ : Context} {mode : Supply.Mode} {n m : Nat} {forest : Forest}
    {e : TypeError} {s : Session} (h : Δ.Stopped mode m forest e s) (hle : n ≤ m)
    (hreach : ∀ n', m ≤ n' → ∀ w ∈ Δ.reach m n', w ∈ Γ.reach n n') :
    Γ.Stopped mode n forest e s := by
  obtain ⟨n', hs, hm, hvars⟩ := h
  exact ⟨n', hs, Nat.le_trans hle hm, fun w hw => hreach n' hm w (hvars w hw)⟩

theorem typeBySubst_footprint (term : Term) {Γ : Context} {s : Session} {mode : Supply.Mode}
    {n : Nat} {forest : Forest} (hmode : mode ≠ .shared) (hs : s.Stands mode n forest)
    (hfree : ∀ v ∈ Γ.free, v < n) :
    Infer.Meets (fun r s' => ∃ n', s'.Stands mode n' forest ∧ Footprint Γ n r.1 r.2 n')
      (Γ.Stopped mode n forest) (Γ.typeBySubst term s) := by
  induction term generalizing Γ s n with
  | int value =>
    exact Infer.meets_concludeW hs fun s' hs' =>
      ⟨n, hs', .literal Γ n fun v => VarSet.not_mem_empty v⟩
  | bool value =>
    exact Infer.meets_concludeW hs fun s' hs' =>
      ⟨n, hs', .literal Γ n fun v => VarSet.not_mem_empty v⟩
  | var name =>
    refine (Infer.meets_lookup hmode hs fun _ =>
      ⟨n, hs, Nat.le_refl n, fun w hw => absurd hw (VarSet.not_mem_empty w)⟩).bind ?_
    rintro t s₁ ⟨σ, hget, rfl, hs₁⟩
    exact Infer.meets_concludeW hs₁ fun s' hs' => ⟨_, hs', .opened hget n⟩
  | app func arg ihfunc iharg =>
    have hfree₁ : ∀ v ∈ Γ.free, v < n + 1 := fun v hv => Nat.lt_succ_of_lt (hfree v hv)
    refine (Infer.meets_fresh hmode hs).bind ?_
    rintro result s₀ ⟨rfl, hs₀⟩
    refine ((ihfunc hs₀ hfree₁).imp_error fun e s₁ hstop => ?_).bind ?_
    · exact hstop.widen (Nat.le_succ n) fun n' _ w hw =>
        reach_widen (Nat.le_succ n) (Nat.le_refl n') hw
    rintro ⟨S₁, t₁⟩ s₁ ⟨n₁, hs₁, h₁⟩
    refine ((iharg hs₁ (h₁.free_lt hfree₁)).imp_error fun e s₂ hstop => ?_).bind ?_
    · exact hstop.widen (Nat.le_of_succ_le h₁.le) fun n' hle w hw =>
        reach_widen (Nat.le_succ n) (Nat.le_refl n') (h₁.reach_subst hle hw)
    rintro ⟨S₂, t₂⟩ s₂ ⟨n₂, hs₂, h₂⟩
    refine (Infer.meets_mgu hs₂ fun e herror => ?_).bind ?_
    · refine ⟨n₂, hs₂, Nat.le_of_succ_le (Nat.le_trans h₁.le h₂.le), fun w hw => ?_⟩
      exact (Footprint.mem_pairVars hfree h₁ h₂
        ((Ty.unifies_mgu _ _).mem_pairVars_of_error herror hw)).1
    rintro u s₃ ⟨hu, hs₃⟩
    exact Infer.meets_concludeW hs₃ fun s' hs' => ⟨n₂, hs', .app hfree h₁ h₂ hu⟩
  | abs param body ih =>
    refine (Infer.meets_fresh hmode hs).bind ?_
    rintro t s₀ ⟨rfl, hs₀⟩
    have hparam : ∀ v ∈ (Scheme.mono (.var n)).free, v < n + 1 := by
      intro v hv
      rw [Scheme.mem_free_mono, Ty.vars_var, VarSet.mem_singleton] at hv
      omega
    refine ((ih hs₀
      (forall_mem_free_insert hparam fun v hv => Nat.lt_succ_of_lt (hfree v hv))).imp_error
      fun e s₁ hstop => ?_).bind ?_
    · exact hstop.widen (Nat.le_succ n) fun n' hle w hw => reach_insert_fresh hle hw
    rintro ⟨S, t'⟩ s₁ ⟨n₁, hs₁, h⟩
    exact Infer.meets_concludeW hs₁ fun s' hs' => ⟨n₁, hs', h.abs⟩
  | letIn name init body ihinit ihbody =>
    refine (ihinit hs hfree).bind ?_
    rintro ⟨S₁, t₁⟩ s₁ ⟨n₁, hs₁, h₁⟩
    refine (Infer.meets_report _ hs₁).bind fun _ s₂ hs₂ => ?_
    dsimp only
    rw [subst_insert, h₁.generalize_subst_self]
    have hscheme : ∀ v ∈ ((Γ.subst S₁).generalize t₁).free, v < n₁ :=
      fun v hv => h₁.free_lt hfree v (mem_free_generalize.mp hv).2
    refine ((ihbody hs₂ (forall_mem_free_insert hscheme (h₁.free_lt hfree))).imp_error
      fun e s₃ hstop => ?_).bind ?_
    · exact hstop.widen h₁.le fun n' hle w hw => h₁.reach_subst hle (reach_insert_generalize hw)
    rintro ⟨S₂, t₂⟩ s₃ ⟨n₂, hs₃, h₂⟩
    exact Infer.meets_concludeW hs₃ fun s' hs' => ⟨n₂, hs', .letIn hfree h₁ h₂⟩

end HindleyMilner.Context
