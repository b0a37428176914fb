import HindleyMilner.Context
import HindleyMilner.Proofs.Substitution

/-!
# Composition of substitutions

`s.comp r` does at once what `r` and then `s` do. On types this holds whatever the two move and
bring in: entries may collide, and the types of either may mention the variables that it moves.

A scheme hides its binders from a substitution. What `r` brings in under a binder is therefore out
of reach of `s` afterwards, while the composition has moved it already. So the law for a scheme
holds exactly if `s` leaves alone every binder that `r` brings in for a free variable
(`Scheme.subst_comp_iff`). If no binder is in the range of `r` it holds for every `s`, even for one
that moves binders or brings them in.
-/

namespace HindleyMilner

namespace Subst

variable {s : Subst} {v w : Nat}

/-- The variables of the types that the substitution puts in. -/
def range (s : Subst) : VarSet := .unionOf (fun entry => entry.2.vars) s.entries

theorem mem_range_or_eq (hw : w ∈ (s.image v).vars) : w ∈ s.range ∨ w = v := by
  by_cases hv : v ∈ s
  · exact .inl (VarSet.mem_unionOf.mpr ⟨_, mem_entries_image hv, hw⟩)
  · simp only [image_of_not_mem hv, Ty.vars_var, VarSet.mem_singleton] at hw
    exact .inr hw

/-- Hiding variables from a substitution makes no difference to the types in which it leaves them
alone, and to no others. -/
theorem subst_eq_subst_without_iff {vs : VarSet} {t : Ty} :
    t.subst s = t.subst (s.without vs) ↔ ∀ b ∈ t.vars, b ∈ vs → s.image b = .var b := by
  rw [Ty.subst, Ty.subst, Ty.bind_eq_bind_iff]
  apply forall₂_congr
  intro b _
  by_cases hb : b ∈ vs <;> simp [image_without, hb]

end Subst

/-! ### Under the binders of a scheme -/

namespace Scheme

variable {σ : Scheme} {s r : Subst} {w : Nat}

theorem body_subst (s : Subst) (σ : Scheme) :
    (σ.subst s).body = σ.body.bind fun v => if v ∈ σ.binders then .var v else s.image v :=
  Ty.bind_congr fun v _ => Subst.image_without s σ.binders v

/-- What comes in for a free variable is free, unless it is captured. -/
theorem mem_free_subst :
    w ∈ (σ.subst s).free ↔ w ∉ σ.binders ∧ ∃ v ∈ σ.free, w ∈ (s.image v).vars := by
  rw [mem_free, body_subst, binders_subst, Ty.mem_vars_bind, and_comm]
  apply and_congr_right
  intro hw
  constructor
  · intro hsome
    obtain ⟨v, hv, hin⟩ := hsome
    by_cases hbinder : v ∈ σ.binders
    · simp only [hbinder, if_true, Ty.vars_var, VarSet.mem_singleton] at hin
      exact absurd (hin ▸ hbinder) hw
    · rw [if_neg hbinder] at hin
      exact ⟨v, mem_free.mpr ⟨hv, hbinder⟩, hin⟩
  · intro hsome
    obtain ⟨v, hv, hin⟩ := hsome
    obtain ⟨hmem, hnot⟩ := mem_free.mp hv
    exact ⟨v, hmem, by rwa [if_neg hnot]⟩

private theorem body_subst_comp (s r : Subst) (σ : Scheme) :
    (σ.subst (s.comp r)).body =
      σ.body.bind fun v => if v ∈ σ.binders then .var v else (r.image v).subst s := by
  rw [body_subst]
  simp only [Subst.image_comp]

private theorem body_subst_subst (s r : Subst) (σ : Scheme) :
    ((σ.subst r).subst s).body = σ.body.bind fun v =>
      if v ∈ σ.binders then .var v else (r.image v).subst (s.without σ.binders) := by
  show (σ.subst r).body.subst (s.without σ.binders) = _
  rw [body_subst, Ty.subst, Ty.bind_bind]
  apply Ty.bind_congr
  intro v _
  by_cases hv : v ∈ σ.binders
  · simp [hv, Ty.bind, Subst.image_without]
  · simp [hv, Ty.subst]

theorem subst_comp_iff :
    σ.subst (s.comp r) = (σ.subst r).subst s ↔ ∀ v ∈ σ.free, ∀ b ∈ (r.image v).vars, b ∈ σ.binders →
      s.image b = .var b := by
  have hbody : σ.subst (s.comp r) = (σ.subst r).subst s ↔
      (σ.subst (s.comp r)).body = ((σ.subst r).subst s).body :=
    ⟨congrArg body, congrArg (Scheme.mk σ.binders)⟩
  rw [hbody, body_subst_comp, body_subst_subst, Ty.bind_eq_bind_iff]
  constructor
  · intro heq v hv
    obtain ⟨hmem, hnot⟩ := mem_free.mp hv
    have himage := heq v hmem
    rw [if_neg hnot, if_neg hnot] at himage
    exact Subst.subst_eq_subst_without_iff.mp himage
  · intro hleft v hmem
    by_cases hv : v ∈ σ.binders
    · rw [if_pos hv, if_pos hv]
    · rw [if_neg hv, if_neg hv]
      exact Subst.subst_eq_subst_without_iff.mpr (hleft v (mem_free.mpr ⟨hmem, hv⟩))

private theorem subst_comp_of_range (hrange : ∀ b ∈ σ.binders, b ∉ r.range) (s : Subst) :
    σ.subst (s.comp r) = (σ.subst r).subst s := by
  rw [subst_comp_iff]
  intro v hv b hb hbinder
  cases Subst.mem_range_or_eq hb with
  | inl hin => exact absurd hin (hrange b hbinder)
  | inr heq => exact absurd (heq ▸ hbinder) (mem_free.mp hv).2

end Scheme

/-! ### In a context -/

namespace Context

variable {Γ : Context} {s r : Subst}

theorem subst_comp_iff :
    Γ.subst (s.comp r) = (Γ.subst r).subst s ↔
      ∀ entry ∈ Γ.entries, entry.2.subst (s.comp r) = (entry.2.subst r).subst s := by
  have hentries : ((Γ.subst r).subst s).entries =
      Γ.entries.map fun entry => (entry.1, (entry.2.subst r).subst s) := by
    show (Γ.entries.map _).map _ = _
    rw [List.map_map]
    rfl
  rw [OrderedMap.ext_iff, hentries]
  show Γ.entries.map (fun entry => (entry.1, entry.2.subst (s.comp r))) = _ ↔ _
  rw [List.map_inj_left]
  simp

theorem keys_subst (s : Subst) (Γ : Context) : (Γ.subst s).keys = Γ.keys := by
  show (Γ.entries.map _).map Prod.fst = Γ.entries.map Prod.fst
  rw [List.map_map]
  rfl

end Context

/-- Substituting a composition is substituting in turn: in every type, in every scheme none of whose
binders is in the range of the substitution that comes first, and in every context of such schemes.
The names of the context stay in their order and each scheme keeps its binders; what comes in for a
free variable is free, unless it is captured. -/
theorem Subst.comp_inTurn (s r : Subst) :
    (∀ t : Ty, t.subst (s.comp r) = (t.subst r).subst s) ∧
      (∀ σ : Scheme, (∀ b ∈ σ.binders, b ∉ r.range) → σ.subst (s.comp r) = (σ.subst r).subst s) ∧
      ∀ Γ : Context, (∀ entry ∈ Γ.entries, ∀ b ∈ entry.2.binders, b ∉ r.range) →
        Γ.subst (s.comp r) = (Γ.subst r).subst s ∧
          ((Γ.subst r).subst s).keys = Γ.keys ∧
          ∀ x σ, Γ.get? x = some σ → ∃ τ, ((Γ.subst r).subst s).get? x = some τ ∧
            τ.binders = σ.binders ∧
            τ.body = (σ.body.bind fun v => if v ∈ σ.binders then .var v else (r.image v).subst s) ∧
            ∀ w, w ∈ τ.free ↔ w ∉ σ.binders ∧ ∃ v ∈ σ.free, w ∈ ((r.image v).subst s).vars := by
  refine ⟨Ty.subst_comp s r, fun σ hrange => Scheme.subst_comp_of_range hrange s,
    fun Γ hrange => ?_⟩
  have hlaw : Γ.subst (s.comp r) = (Γ.subst r).subst s :=
    Context.subst_comp_iff.mpr fun entry hentry =>
      Scheme.subst_comp_of_range (hrange entry hentry) s
  refine ⟨hlaw, by simp only [Context.keys_subst], fun x σ hget => ?_⟩
  rw [← hlaw]
  refine ⟨σ.subst (s.comp r), by simp [hget], rfl, Scheme.body_subst_comp s r σ, fun w => ?_⟩
  simp only [Scheme.mem_free_subst, Subst.image_comp]

/-- Puts `1` in for `0` and `0` back in for `1`. -/
def Subst.circular : Subst := .ofList [(0, .var 1), (1, .fn (.var 0) (.var 0))]

/-- Moves what `circular` moves, moves `3`, and brings `3` in. -/
def Subst.intruding : Subst := .ofList [(0, .fn (.var 1) (.var 3)), (1, .bool), (3, .var 0)]

/-- Quantifies `3` in the scheme of `f`. -/
def Context.guarded : Context :=
  .ofList [("f", ⟨VarSet.ofList [3], .fn (.var 3) (.var 1)⟩), ("x", .mono (.var 0))]

theorem Subst.comp_inTurn_circular :
    (∀ entry ∈ Context.guarded.entries, ∀ b ∈ entry.2.binders.toList, b ∉ circular.range) ∧
      Context.guarded.subst (intruding.comp circular) =
        (Context.guarded.subst circular).subst intruding ∧
      ((Context.guarded.subst circular).subst intruding).entries =
        [("f",
          ⟨VarSet.ofList [3], .fn (.var 3) (.fn (.fn (.var 1) (.var 3)) (.fn (.var 1) (.var 3)))⟩),
          ("x", .mono .bool)] := by
  have hrange :
      ∀ entry ∈ Context.guarded.entries, ∀ b ∈ entry.2.binders.toList, b ∉ circular.range := by
    decide
  exact ⟨hrange, ((comp_inTurn intruding circular).2.2 Context.guarded hrange).1, by decide⟩

-- A binder in the range of the first one is captured before the second one comes.
example :
    (⟨VarSet.ofList [0], .var 1⟩ : Scheme).subst
      ((Subst.singleton 0 .int).comp (.singleton 1 (.var 0))) = ⟨VarSet.ofList [0], .int⟩ ∧
    ((⟨VarSet.ofList [0], .var 1⟩ : Scheme).subst (.singleton 1 (.var 0))).subst
      (.singleton 0 .int) = ⟨VarSet.ofList [0], .var 0⟩ := by
  decide

end HindleyMilner
