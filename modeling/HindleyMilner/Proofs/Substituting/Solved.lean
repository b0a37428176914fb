import HindleyMilner.Proofs.Reservation
import Mathlib

/-!
# Solved answers

The substitution that algorithm W returns has done all its work: none of the variables it moves is
left anywhere, neither in the types it puts in, nor in the type of the term, nor free in the context
under it. So applying it once more changes nothing. Its variables, and those of the type, come from
the context or from the run.

The footprint of a run holds all of this for any context, hygienic or not, because capture can only
take free variables away. What is added here is the way from there to equations, and to whole runs,
on supplies of any kind, which reserve before they draw.

All of Mathlib is imported for the sample run at the end, as in `Substituting.Soundness`.
-/

namespace HindleyMilner

namespace Subst

/-- A solved substitution composed with itself is the same substitution, entry by entry. -/
theorem Solved.comp_self {s : Subst} (hs : s.Solved) : s.comp s = s := by
  have hvalues : s.mapValues (Ty.subst s) = s := by
    apply OrderedMap.mapValues_eq_self
    intro entry hentry
    obtain ⟨hkey, himage⟩ := image_of_mem_entries hentry
    apply Ty.subst_eq_self
    intro w hw
    exact image_of_not_mem (hs entry.1 hkey w (himage ▸ hw))
  rw [comp, hvalues]
  exact OrderedMap.orElse_eq_left fun _ hkey => hkey

end Subst

namespace Context

variable {Γ : Context} {term : Term} {s s' : Session} {n n' : Nat} {S : Subst} {t : Ty}

/-- What an answer in the context `Γ` is like whose run has drawn the variables `drawn`. -/
structure Settled (Γ : Context) (drawn : Nat → Prop) (S : Subst) (t : Ty) : Prop where
  /-- No variable that is moved is left in what is put in. -/
  range_apart : ∀ entry ∈ S.entries, ∀ w ∈ entry.2.vars, w ∉ S
  type_apart : ∀ w ∈ t.vars, w ∉ S
  context_apart : ∀ w ∈ (Γ.subst S).free, w ∉ S
  /-- What is moved is free in the context or was drawn. -/
  keys_known : ∀ v ∈ S, v ∈ Γ.free ∨ drawn v
  range_known : ∀ entry ∈ S.entries, ∀ w ∈ entry.2.vars, w ∈ Γ.free ∨ drawn w
  type_known : ∀ w ∈ t.vars, w ∈ Γ.free ∨ drawn w
  /-- A second application changes nothing. -/
  type_fixed : t.subst S = t
  context_fixed : (Γ.subst S).subst S = Γ.subst S
  comp_self : S.comp S = S

theorem Footprint.settled (h : Footprint Γ n S t n') : Γ.Settled (fun v => n ≤ v ∧ v < n') S t where
  range_apart := by
    intro entry hmem w hw
    obtain ⟨hkey, himage⟩ := Subst.image_of_mem_entries hmem
    exact h.within.solved entry.1 hkey w (himage ▸ hw)
  type_apart := h.solved
  context_apart := fun w hw => (h.mem_free_subst hw).2
  keys_known := h.within.keys
  range_known := by
    intro entry hmem w hw
    obtain ⟨hkey, himage⟩ := Subst.image_of_mem_entries hmem
    exact h.within.range entry.1 hkey w (himage ▸ hw)
  type_known := h.reached
  type_fixed := Ty.subst_eq_self fun w hw => Subst.image_of_not_mem (h.solved w hw)
  context_fixed := subst_eq_self fun w hw => Subst.image_of_not_mem (h.mem_free_subst hw).2
  comp_self := h.within.solved.comp_self

theorem Settled.mono {drawn drawn' : Nat → Prop} (h : Γ.Settled drawn S t)
    (hsub : ∀ v, drawn v → drawn' v) : Γ.Settled drawn' S t :=
  { h with
    keys_known := fun v hv => (h.keys_known v hv).imp_right (hsub v)
    range_known := fun entry hentry w hw => (h.range_known entry hentry w hw).imp_right (hsub w)
    type_known := fun w hw => (h.type_known w hw).imp_right (hsub w) }

/-- The footprint of a run that starts by reserving what the context mentions. -/
theorem inferW_footprint (Γ : Context) (term : Term) (hmode : s.supply.mode ≠ .shared) :
    Infer.Meets (fun r s' => ∃ reserved, Γ.reserve s.supply = some ((), reserved) ∧
      Footprint Γ reserved.next r.1 r.2 s'.supply.next) (fun _ _ => True)
      (Γ.inferW term s) := by
  apply (Infer.meets_draw Γ.reserve s).bind
  intro _ s₁ h₁
  obtain ⟨reserved, hreserve, rfl⟩ := h₁
  obtain ⟨hsame, -, hbound⟩ := reserve_eq_some hreserve
  have hs₁ : Session.Stands { s with supply := reserved } reserved.mode reserved.next s.forest :=
    ⟨rfl, rfl⟩
  have hfree : ∀ v ∈ Γ.free, v < reserved.next := fun v hv => hbound v (mem_bodyVars_of_mem_free hv)
  apply (typeBySubst_footprint term (hsame ▸ hmode) hs₁ hfree).imp
  · intro r s₂ h₂
    obtain ⟨n', hs₂, hfootprint⟩ := h₂
    exact ⟨reserved, hreserve, by rwa [hs₂.supply]⟩
  · exact fun _ _ _ => trivial

/-- In any context, hygienic or not, what algorithm W answers is solved, and is made of free
variables of the context and of variables drawn in the run. -/
theorem inferW_settled (hrange : Infer.InRange (Γ.inferW term) s)
    (hrun : Γ.inferW term s = (.ok (S, t), s')) : Γ.Settled (Γ.Drawn .w term s) S t := by
  -- The run is the same on a strict supply, and so is the reservation it starts with.
  obtain ⟨hresult, hnext, -⟩ := (Γ.drawsOnly_inferW term).run_strict hrange
  have hstrict : (Γ.inferW term s.strict).1 = .ok (S, t) := by rw [← hresult, hrun]
  obtain ⟨reserved, hreserve, hfootprint⟩ :=
    (Γ.inferW_footprint term s.supply.mode.strict_ne_shared).of_ok hstrict
  rw [← hnext] at hfootprint
  apply hfootprint.settled.mono
  intro v hv
  exact ⟨_, (Draw.DrawsOnly.reserveContext Γ).eq_some_of_strict hreserve, hv.1, hv.2⟩

/-- Generalizes the result of `y` and applies it to itself. -/
def idleTerm : Term := .letIn "u" (.app (.var "y") (.int 1)) (.app (.var "u") (.var "u"))

/-- What is put in for the free variable of `y` contains its binder, so that it is captured and the
self-application passes. -/
def idleSubst : Subst := OrderedMap.ofList [(0, .fn .int (.var 1)), (4, .fn (.var 5) (.var 3))]

theorem inferW_settled_idle :
    ¬ idle.Hygienic ∧
      (idle.inferW idleTerm { supply := ⟨.shared, 0⟩ }).1 = .ok (idleSubst, .var 3) ∧
      idle.Settled (idle.Drawn .w idleTerm { supply := ⟨.shared, 0⟩ }) idleSubst (.var 3) := by
  have hrun : (idle.inferW idleTerm { supply := ⟨.shared, 0⟩ }).1 = .ok (idleSubst, .var 3) := by
    cbv
  have hstrict : (idle.inferW idleTerm { supply := ⟨.owned, 0⟩ }).1 = .ok (idleSubst, .var 3) := by
    cbv
  have hrange : Infer.InRange (idle.inferW idleTerm) { supply := ⟨.shared, 0⟩ } := by
    show (idle.inferW idleTerm { supply := ⟨.owned, 0⟩ }).1 ≠ _
    rw [hstrict]
    simp
  exact ⟨by decide, hrun, inferW_settled hrange (Prod.ext hrun rfl)⟩

end Context

end HindleyMilner
