import HindleyMilner.Subst
import HindleyMilner.TypeError

/-!
# Most general unifiers

`Ty.mgu a b` is the substitution that makes `a` and `b` equal and demands nothing else, or the
reason why no substitution does. Two functions are unified domain first; their codomains are unified
under what the domains demand. That second step may see far larger types than the input had, so
termination rests on variables and not on size: a unifier is empty, or it eliminates a variable of
the two types and brings in none from elsewhere (`Subst.Progress`). The solver returns each
substitution together with this fact, and `mgu` forgets it.
-/

namespace HindleyMilner

/-- The variables of two types that are to be made equal. -/
def Ty.pairVars (a b : Ty) : VarSet := a.vars ∪ b.vars

namespace Subst

/-- Some variable of `within` is gone from every type under `s`, and `s` brings in only
variables of `within`. -/
def Eliminates (s : Subst) (within : VarSet) : Prop :=
  ∃ v ∈ within, ∀ t : Ty, ∀ w ∈ (t.subst s).vars, w ≠ v ∧ (w ∈ t.vars ∨ w ∈ within)

/-- The substitution does nothing, or it eliminates a variable of `within`. -/
def Progress (s : Subst) (within : VarSet) : Prop := s = ∅ ∨ s.Eliminates within

theorem Eliminates.mono {s : Subst} {small large : VarSet} (hs : s.Eliminates small)
    (hsub : ∀ w ∈ small, w ∈ large) :
    s.Eliminates large := by
  obtain ⟨v, hv, helim⟩ := hs
  exact ⟨v, hsub v hv, fun t w hw => ⟨(helim t w hw).1, (helim t w hw).2.imp_right (hsub w)⟩⟩

private theorem eliminates_singleton {v : Nat} {t : Ty} {within : VarSet} (hv : v ∈ within)
    (ht : ∀ w ∈ t.vars, w ∈ within) (hoccurs : v ∉ t.vars) : (singleton v t).Eliminates within := by
  refine ⟨v, hv, fun u w hw => ?_⟩
  obtain ⟨x, hx, hwx⟩ := Ty.mem_vars_subst.mp hw
  rw [image_singleton] at hwx
  split at hwx
  · exact ⟨fun heq => hoccurs (heq ▸ hwx), .inr (ht w hwx)⟩
  · rename_i hne
    cases VarSet.mem_singleton.mp hwx
    exact ⟨fun heq => hne heq.symm, .inl hx⟩

theorem Progress.mem_vars_subst {s : Subst} {within : VarSet} (hs : s.Progress within) {t : Ty}
    {w : Nat} (hw : w ∈ (t.subst s).vars) : w ∈ t.vars ∨ w ∈ within := by
  rcases hs with rfl | ⟨_, -, helim⟩
  · rw [Ty.subst_empty] at hw
    exact .inl hw
  · exact (helim t w hw).2

end Subst

/-! ### Unifying functions component by component -/

section Components

variable {a₁ a₂ b₁ b₂ : Ty} {s r : Subst}

theorem Ty.mem_pairVars_of_domains {w : Nat} (hw : w ∈ a₁.pairVars b₁) :
    w ∈ (Ty.fn a₁ a₂).pairVars (Ty.fn b₁ b₂) := by
  simp only [Ty.pairVars, Ty.vars_fn, VarSet.mem_union] at hw ⊢
  exact hw.imp .inl .inl

theorem Ty.mem_pairVars_of_codomains
    (hs : ∀ t : Ty, ∀ w ∈ (t.subst s).vars, w ∈ t.vars ∨ w ∈ a₁.pairVars b₁) {w : Nat}
    (hw : w ∈ (a₂.subst s).pairVars (b₂.subst s)) : w ∈ (Ty.fn a₁ a₂).pairVars (Ty.fn b₁ b₂) := by
  rcases VarSet.mem_union.mp hw with hw | hw <;> rcases hs _ w hw with hin | hin
  · simp [Ty.pairVars, hin]
  · exact mem_pairVars_of_domains hin
  · simp [Ty.pairVars, hin]
  · exact mem_pairVars_of_domains hin

theorem Ty.domains_decrease :
    Prod.Lex (· < ·) (· < ·) ((a₁.pairVars b₁).size, a₁.size)
      (((Ty.fn a₁ a₂).pairVars (Ty.fn b₁ b₂)).size, (Ty.fn a₁ a₂).size) := by
  have hle : (a₁.pairVars b₁).size ≤ ((Ty.fn a₁ a₂).pairVars (Ty.fn b₁ b₂)).size :=
    VarSet.size_le_size fun w hw => mem_pairVars_of_domains hw
  rcases Nat.lt_or_eq_of_le hle with hlt | heq
  · exact .left _ _ hlt
  · rw [heq]
    refine .right _ ?_
    simp only [Ty.size]
    omega

/-- A variable that the unifier of the domains eliminates is missing from the codomains under it,
and nothing takes its place. -/
theorem Subst.Eliminates.codomains_lt (hs : s.Eliminates (a₁.pairVars b₁)) :
    ((a₂.subst s).pairVars (b₂.subst s)).size < ((Ty.fn a₁ a₂).pairVars (Ty.fn b₁ b₂)).size := by
  obtain ⟨v, hv, helim⟩ := hs
  apply VarSet.size_lt_size (v := v)
  · intro w hw
    exact Ty.mem_pairVars_of_codomains (fun t w hw => (helim t w hw).2) hw
  · exact Ty.mem_pairVars_of_domains hv
  · intro hmem
    rcases VarSet.mem_union.mp hmem with hmem | hmem
    · exact (helim _ v hmem).1 rfl
    · exact (helim _ v hmem).1 rfl

/-- Unifying the codomains after the domains is smaller work: fewer variables, or the same types
less the domains. -/
theorem Ty.codomains_decrease (hs : s.Progress (a₁.pairVars b₁)) :
    Prod.Lex (· < ·) (· < ·) (((a₂.subst s).pairVars (b₂.subst s)).size, (a₂.subst s).size)
      (((Ty.fn a₁ a₂).pairVars (Ty.fn b₁ b₂)).size, (Ty.fn a₁ a₂).size) := by
  rcases hs with rfl | helim
  · have hle : ((a₂.subst ∅).pairVars (b₂.subst ∅)).size ≤
        ((Ty.fn a₁ a₂).pairVars (Ty.fn b₁ b₂)).size :=
      VarSet.size_le_size fun w hw =>
        mem_pairVars_of_codomains (fun _ _ => Subst.Progress.mem_vars_subst (.inl rfl)) hw
    rw [Ty.subst_empty, Ty.subst_empty] at hle ⊢
    rcases Nat.lt_or_eq_of_le hle with hlt | heq
    · exact .left _ _ hlt
    · rw [heq]
      refine .right _ ?_
      simp only [Ty.size]
      omega
  · exact .left _ _ helim.codomains_lt

/-- Progress on the domains and then on the codomains is progress on the functions. -/
theorem Subst.Progress.comp (hs : s.Progress (a₁.pairVars b₁))
    (hr : r.Progress ((a₂.subst s).pairVars (b₂.subst s))) :
    (r.comp s).Progress ((Ty.fn a₁ a₂).pairVars (Ty.fn b₁ b₂)) := by
  have hcodomains :
      ∀ w ∈ (a₂.subst s).pairVars (b₂.subst s), w ∈ (Ty.fn a₁ a₂).pairVars (Ty.fn b₁ b₂) :=
    fun w hw => Ty.mem_pairVars_of_codomains (fun _ _ => hs.mem_vars_subst) hw
  rcases hs with rfl | ⟨v, hv, helim⟩
  · rcases hr with rfl | hr
    · exact .inl rfl
    · obtain ⟨v, hv, helim⟩ := hr.mono hcodomains
      refine .inr ⟨v, hv, fun t w hw => helim t w ?_⟩
      rwa [Ty.subst_comp, Ty.subst_empty] at hw
  · refine .inr ⟨v, Ty.mem_pairVars_of_domains hv, fun t w hw => ?_⟩
    rw [Ty.subst_comp] at hw
    rcases hr.mem_vars_subst hw with hin | hin
    · exact ⟨(helim t w hin).1, (helim t w hin).2.imp_right Ty.mem_pairVars_of_domains⟩
    · refine ⟨fun heq => ?_, .inr (hcodomains w hin)⟩
      rcases VarSet.mem_union.mp hin with hin | hin
      · exact (helim _ w hin).1 heq
      · exact (helim _ w hin).1 heq

end Components

/-! ### The solver -/

/-- Unifies a variable with a type: nothing to do for the variable itself, impossible when it occurs
deeper, a binding otherwise. -/
def Subst.bindVar (v : Nat) (t : Ty) (within : VarSet) (hv : v ∈ within)
    (ht : ∀ w ∈ t.vars, w ∈ within) :
    Except TypeError { s : Subst // s.Progress within } :=
  if t = .var v then .ok ⟨∅, .inl rfl⟩
  else if hoccurs : v ∈ t.vars then .error (.infinite v t)
  else .ok ⟨.singleton v t, .inr (eliminates_singleton hv ht hoccurs)⟩

/-- Solves the equation of two types. A variable on the left is bound before one on the
right is looked at. -/
def Ty.solve (a b : Ty) : Except TypeError { s : Subst // s.Progress (a.pairVars b) } :=
  match a, b with
  | .int, .int => .ok ⟨∅, .inl rfl⟩
  | .bool, .bool => .ok ⟨∅, .inl rfl⟩
  | .var v, t => Subst.bindVar v t _ (by simp [pairVars]) (by simp +contextual [pairVars])
  | t, .var v => Subst.bindVar v t _ (by simp [pairVars]) (by simp +contextual [pairVars])
  | .fn a₁ a₂, .fn b₁ b₂ =>
    match solve a₁ b₁ with
    | .error e => .error e
    | .ok ⟨s, hs⟩ =>
      match solve (a₂.subst s) (b₂.subst s) with
      | .error e => .error e
      | .ok ⟨r, hr⟩ => .ok ⟨r.comp s, hs.comp hr⟩
  | a, b => .error (.mismatch a b)
termination_by ((a.pairVars b).size, a.size)
decreasing_by
  · exact domains_decrease
  · exact codomains_decrease hs

def Ty.mgu (a b : Ty) : Except TypeError Subst := (a.solve b).map Subtype.val

end HindleyMilner
