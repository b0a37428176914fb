import HindleyMilner.Proofs.Forest.Course
import HindleyMilner.Proofs.Termination

/-!
# The operations of a forest end

The operations of a forest by rules that set no bound: a walk goes up for as long as there is a
parent, a resolution starts again at every component, and a unification goes on with the components
of representatives, which may be far larger than the types it was called with. In a forest with a
cycle the rules lead nowhere. In every forest that requests lead to they lead to exactly one end,
which is what the bounded operations answer; so no bound is ever what stops an operation.

Walks and resolutions are finite because no type stands on itself. For unification, each forest on
the way is well-formed again, so that the walks and resolutions that it makes there are finite too.
-/

namespace HindleyMilner.Forest

variable {f : Forest} {a b t r : Ty}

/-- The walk from `t` up the parents ends at `r`. -/
inductive Climbs (f : Forest) : Ty → Ty → Prop
  | root {t : Ty} (hroot : f.parent? t = none) : Climbs f t t
  | up {t u r : Ty} (hparent : f.parent? t = some u) (hrest : Climbs f u r) : Climbs f t r

/-- Resolving `t` ends with `r`. -/
inductive Resolves (f : Forest) : Ty → Ty → Prop
  | leaf {t r : Ty} (hwalk : f.Climbs t r) (hleaf : r.isFn = false) : Resolves f t r
  | fn {t a b dom cod : Ty} (hwalk : f.Climbs t (.fn a b)) (hdom : Resolves f a dom)
      (hcod : Resolves f b cod) : Resolves f t (.fn dom cod)

/-- Hanging `v` below `target` ends with a forest or with an error. -/
inductive Links (f : Forest) (v : Nat) (target : Ty) : Except TypeError Forest → Prop
  | var (hvar : target.isVar = true) : Links f v target (.ok (f.setParent v target))
  | clear {r : Ty} (hterm : target.isVar = false) (hresolves : f.Resolves target r)
      (hoccurs : v ∉ r.vars) :
    Links f v target (.ok (f.setParent v target))
  | infinite {r : Ty} (hterm : target.isVar = false) (hresolves : f.Resolves target r)
      (hoccurs : v ∈ r.vars) :
    Links f v target (.error (.infinite v r))

/-- Unifying `a` and `b` ends with the attempt, and so does everything on the way. -/
inductive Concludes : Forest → Ty → Ty → Attempt → Prop
  | same {f : Forest} {a b r : Ty} (ha : (f.enter a b).Climbs a r) (hb : (f.enter a b).Climbs b r) :
      Concludes f a b (.done (f.enter a b))
  | left {f : Forest} {a b target : Ty} {v : Nat} {result : Except TypeError Forest}
      (ha : (f.enter a b).Climbs a (.var v))
    (hb : (f.enter a b).Climbs b target) (hne : .var v ≠ target) (hlink :
      (f.enter a b).Links v target result) :
    Concludes f a b (.ofLink (.var v) target (f.enter a b) result)
  | right {f : Forest} {a b target : Ty} {v : Nat} {head : Ty.Head}
      {result : Except TypeError Forest} (ha : (f.enter a b).Climbs a target)
    (hhead : target.head? = some head) (hb : (f.enter a b).Climbs b (.var v)) (hlink :
      (f.enter a b).Links v target result) :
    Concludes f a b (.ofLink target (.var v) (f.enter a b) result)
  | clash {f : Forest} {a b left right : Ty} (ha : (f.enter a b).Climbs a left)
      (hb : (f.enter a b).Climbs b right)
    (hclash : left.Clash right) :
      Concludes f a b ⟨.error (.mismatch left right), f.enter a b, [(left, right)]⟩
  | domains {f : Forest} {a b a₁ a₂ b₁ b₂ : Ty} {first : Attempt} {e : TypeError}
      (ha : (f.enter a b).Climbs a (.fn a₁ a₂))
    (hb : (f.enter a b).Climbs b (.fn b₁ b₂)) (hne : Ty.fn a₁ a₂ ≠ .fn b₁ b₂) (hfirst :
      Concludes (f.enter a b) a₁ b₁ first)
    (herror : first.outcome = .error e) : Concludes f a b (.ofFirst (.fn a₁ a₂) (.fn b₁ b₂) first)
  | components {f : Forest} {a b a₁ a₂ b₁ b₂ : Ty} {first second : Attempt}
      (ha : (f.enter a b).Climbs a (.fn a₁ a₂))
    (hb : (f.enter a b).Climbs b (.fn b₁ b₂)) (hne : Ty.fn a₁ a₂ ≠ .fn b₁ b₂) (hfirst :
      Concludes (f.enter a b) a₁ b₁ first)
    (hok : first.outcome = .ok ()) (hsecond : Concludes first.forest a₂ b₂ second) :
    Concludes f a b (.ofComponents (.fn a₁ a₂) (.fn b₁ b₂) first second)

/-! ### Walks and resolutions -/

theorem Resolves.of_parent {u : Ty} (hparent : f.parent? t = some u) (h : f.Resolves u r) :
    f.Resolves t r := by
  cases h with
  | leaf hwalk hleaf => exact .leaf (.up hparent hwalk) hleaf
  | fn hwalk hdom hcod => exact .fn (.up hparent hwalk) hdom hcod

namespace WellFormed

private theorem climbs_rep (hf : f.WellFormed) (t : Ty) : f.Climbs t (f.rep t) := by
  induction t using hf.induction with
  | h t ih =>
    cases hparent : f.parent? t with
    | none =>
      rw [rep_of_root hparent]
      exact .root hparent
    | some u =>
      rw [hf.rep_of_parent hparent]
      exact .up hparent (ih u (.parent hparent))

theorem climbs_iff (hf : f.WellFormed) : f.Climbs t r ↔ r = f.rep t := by
  constructor
  · intro hwalk
    induction hwalk with
    | root hroot => rw [rep_of_root hroot]
    | up hparent _ ih => rw [hf.rep_of_parent hparent, ih]
  · intro heq
    exact heq ▸ hf.climbs_rep t

private theorem resolves_resolve (hf : f.WellFormed) (t : Ty) : f.Resolves t (f.resolve t) := by
  induction t using hf.induction with
  | h t ih =>
    cases hparent : f.parent? t with
    | some u =>
      rw [hf.resolve_of_parent hparent]
      exact .of_parent hparent (ih u (.parent hparent))
    | none =>
      rw [hf.resolve_eq_of_rep, rep_of_root hparent]
      cases t with
      | fn a b => exact .fn (.root hparent) (ih a (.dom a b)) (ih b (.cod a b))
      | _ => exact .leaf (.root hparent) rfl

theorem resolves_iff (hf : f.WellFormed) : f.Resolves t r ↔ r = f.resolve t := by
  constructor
  · intro h
    induction h with
    | @leaf t r hwalk hleaf =>
      rw [hf.climbs_iff] at hwalk
      rw [hf.resolve_eq_of_rep, ← hwalk]
      cases r with
      | fn a b => cases hleaf
      | _ => rfl
    | fn hwalk hdom hcod ihdom ihcod =>
      rw [hf.climbs_iff] at hwalk
      rw [hf.resolve_eq_of_rep, ← hwalk, ihdom, ihcod]
  · intro heq
    exact heq ▸ hf.resolves_resolve t

theorem links_iff (hf : f.WellFormed) {v : Nat} {target : Ty} {result : Except TypeError Forest} :
    f.Links v target result ↔ result = f.link v target := by
  constructor
  · intro h
    cases h with
    | var hvar => rw [link, if_pos hvar]
    | clear hterm hresolves hoccurs =>
      rw [hf.resolves_iff] at hresolves
      simp [link, hterm, ← hresolves, hoccurs]
    | infinite hterm hresolves hoccurs =>
      rw [hf.resolves_iff] at hresolves
      simp [link, hterm, ← hresolves, hoccurs]
  · intro heq
    subst heq
    have hresolves := hf.resolves_resolve target
    cases hvar : target.isVar with
    | true => simpa [link, hvar] using Links.var hvar
    | false =>
      by_cases hoccurs : v ∈ (f.resolve target).vars
      · simpa [link, hvar, hoccurs] using Links.infinite hvar hresolves hoccurs
      · simpa [link, hvar, hoccurs] using Links.clear hvar hresolves hoccurs

end WellFormed

/-! ### Unifications -/

theorem Concludes.unifies {attempt : Attempt} (h : f.Concludes a b attempt) (hf : f.WellFormed) :
    f.Unifies a b attempt := by
  induction h with
  | @same f a b r ha hb =>
    rw [(hf.enter a b).climbs_iff] at ha hb
    exact .same (ha.symm.trans hb)
  | @left f a b target v result ha hb hne hlink =>
    have hg := hf.enter a b
    rw [hg.climbs_iff] at ha hb
    rw [hg.links_iff] at hlink
    exact hlink ▸ .left ha.symm hb.symm hne
  | @right f a b target v head result ha hhead hb hlink =>
    have hg := hf.enter a b
    rw [hg.climbs_iff] at ha hb
    rw [hg.links_iff] at hlink
    exact hlink ▸ .right ha.symm hhead hb.symm
  | @clash f a b left right ha hb hclash =>
    rw [(hf.enter a b).climbs_iff] at ha hb
    exact .clash ha.symm hb.symm hclash
  | @domains f a b a₁ a₂ b₁ b₂ first e ha hb hne hfirst herror ih =>
    have hg := hf.enter a b
    rw [hg.climbs_iff] at ha hb
    exact .domains ha.symm hb.symm hne (ih hg) herror
  | @components f a b a₁ a₂ b₁ b₂ first second ha hb hne hfirst hok hsecond ihfirst ihsecond =>
    have hg := hf.enter a b
    rw [hg.climbs_iff] at ha hb
    have hcourse := ihfirst hg
    exact .components ha.symm hb.symm hne hcourse hok (ihsecond (hcourse.wellFormed hg))

theorem Unifies.concludes {attempt : Attempt} (h : f.Unifies a b attempt) (hf : f.WellFormed) :
    f.Concludes a b attempt := by
  induction h with
  | @same f a b hsame =>
    have hg := hf.enter a b
    exact .same (hg.climbs_rep a) (hsame ▸ hg.climbs_rep b)
  | @left f a b target v ha hb hne =>
    have hg := hf.enter a b
    exact .left (ha ▸ hg.climbs_rep a) (hb ▸ hg.climbs_rep b) hne (hg.links_iff.mpr rfl)
  | @right f a b target v head ha hhead hb =>
    have hg := hf.enter a b
    exact .right (ha ▸ hg.climbs_rep a) hhead (hb ▸ hg.climbs_rep b) (hg.links_iff.mpr rfl)
  | @clash f a b left right ha hb hclash =>
    have hg := hf.enter a b
    exact .clash (ha ▸ hg.climbs_rep a) (hb ▸ hg.climbs_rep b) hclash
  | @domains f a b a₁ a₂ b₁ b₂ first e ha hb hne hfirst herror ih =>
    have hg := hf.enter a b
    exact .domains (ha ▸ hg.climbs_rep a) (hb ▸ hg.climbs_rep b) hne (ih hg) herror
  | @components f a b a₁ a₂ b₁ b₂ first second ha hb hne hfirst hok hsecond ihfirst ihsecond =>
    have hg := hf.enter a b
    exact .components (ha ▸ hg.climbs_rep a) (hb ▸ hg.climbs_rep b) hne (ihfirst hg) hok
      (ihsecond (hfirst.wellFormed hg))

theorem WellFormed.concludes_iff (hf : f.WellFormed) {attempt : Attempt} :
    f.Concludes a b attempt ↔ attempt = f.unify a b := by
  constructor
  · intro h
    exact hf.unifies_iff.mp (h.unifies hf)
  · intro heq
    exact (hf.unifies_iff.mpr heq).concludes hf

/-! ### Calls -/

/-- The first unification has to be made on the way to the second: on the components of two
different functions that represent the types. -/
inductive Call : Forest × Ty × Ty → Forest × Ty × Ty → Prop
  | first {f : Forest} {a b a₁ a₂ b₁ b₂ : Ty} (ha : (f.enter a b).Climbs a (.fn a₁ a₂))
      (hb : (f.enter a b).Climbs b (.fn b₁ b₂))
    (hne : Ty.fn a₁ a₂ ≠ .fn b₁ b₂) : Call (f.enter a b, a₁, b₁) (f, a, b)
  | second {f : Forest} {a b a₁ a₂ b₁ b₂ : Ty} {attempt : Attempt}
      (ha : (f.enter a b).Climbs a (.fn a₁ a₂))
    (hb : (f.enter a b).Climbs b (.fn b₁ b₂)) (hne : Ty.fn a₁ a₂ ≠ .fn b₁ b₂) (hfirst :
      (f.enter a b).Concludes a₁ b₁ attempt)
    (hok : attempt.outcome = .ok ()) : Call (attempt.forest, a₂, b₂) (f, a, b)

private theorem WellFormed.resolve_of_climbs_fn (hf : f.WellFormed) {c d : Ty}
    (h : (f.enter a b).Climbs t (.fn c d)) :
    f.resolve t = .fn ((f.enter a b).resolve c) ((f.enter a b).resolve d) := by
  have hg := hf.enter a b
  rw [hg.climbs_iff] at h
  rw [← hf.resolve_enter a b, hg.resolve_eq_of_rep, ← h]

/-- With everything resolved, a call in a forest is a call that unifying the
resolved types makes. -/
theorem Call.resolved {callee caller : Forest × Ty × Ty} (h : Call callee caller)
    (hf : caller.1.WellFormed) :
    callee.1.WellFormed ∧
      Ty.Call (callee.1.resolve callee.2.1, callee.1.resolve callee.2.2)
        (caller.1.resolve caller.2.1, caller.1.resolve caller.2.2) := by
  cases h with
  | @first f a b a₁ a₂ b₁ b₂ ha hb hne =>
    refine ⟨hf.enter a b, ?_⟩
    rw [hf.resolve_of_climbs_fn ha, hf.resolve_of_climbs_fn hb]
    exact .domains _ _ _ _
  | @second f a b a₁ a₂ b₁ b₂ attempt ha hb hne hfirst hok =>
    have hg := hf.enter a b
    rw [hg.concludes_iff] at hfirst
    subst hfirst
    have hrefines := hg.unify_refines a₁ b₁
    obtain ⟨s, hs, hresolve⟩ := hrefines.follows.exists_of_ok hok
    refine ⟨hrefines.wellFormed, ?_⟩
    rw [hf.resolve_of_climbs_fn ha, hf.resolve_of_climbs_fn hb]
    dsimp only
    rw [hresolve a₂, hresolve b₂]
    exact .codomains _ _ (Ty.unifies_iff.mpr hs.symm)

private theorem WellFormed.acc_call (hf : f.WellFormed) (a b : Ty) : Acc Call (f, a, b) := by
  induction hpair :
    (f.resolve a, f.resolve b) using Ty.call_wellFounded.induction generalizing f a b with
  | h pair ih =>
    subst hpair
    constructor
    intro callee hcall
    obtain ⟨hg, hresolved⟩ := hcall.resolved hf
    exact ih _ hresolved hg _ _ rfl

/-- In every forest that requests have led to, failed unifications included, every operation ends,
and with what it is said to answer: the walk up the parents, with and without registering the type
first; resolution; and unification, of which also no chain of calls is infinite. -/
theorem Reachable.operations_end (h : f.Reachable) :
    (∀ t r, f.Climbs t r ↔ r = f.rep t) ∧ (∀ t r, (f.find t).2.Climbs t r ↔ r = (f.find t).1) ∧
      (∀ t r, f.Resolves t r ↔ r = f.resolve t) ∧ (∀ a b, Acc Call (f, a, b)) ∧
      ∀ a b attempt, f.Concludes a b attempt ↔ attempt = f.unify a b := by
  have hf := h.wellFormed
  exact ⟨fun t r => hf.climbs_iff, fun t r => (hf.register t).climbs_iff,
    fun t r => hf.resolves_iff, hf.acc_call,
    fun a b attempt => hf.concludes_iff⟩

/-- Two variables below functions that share a component; then a unification that puts `Bool` in for
another component before it fails. -/
def crossed : Forest :=
  (((∅ : Forest).unify (.var 0) (.fn (.var 1) (.var 2))).forest.unify (.var 3)
    (.fn (.var 2) (.var 4))).forest.unify
    (.fn (.var 4) .int) (.fn .bool .bool) |>.forest

/-- The two variables are unified through the functions that represent them. -/
theorem operations_end_crossed :
    crossed.Reachable ∧ crossed.Climbs (.var 3) (.fn (.var 2) (.var 4)) ∧
      crossed.Resolves (.var 3) (.fn (.var 2) .bool) ∧
      ∃ attempt, crossed.Concludes (.var 0) (.var 3) attempt ∧ attempt.compared.length = 3 ∧
        attempt.forest.resolve (.var 0) = .fn .bool .bool := by
  have hreachable : crossed.Reachable := .unify (.unify (.unify .empty _ _) _ _) _ _
  obtain ⟨hclimbs, -, hresolves, -, hconcludes⟩ := hreachable.operations_end
  refine ⟨hreachable, ?_, ?_, crossed.unify (.var 0) (.var 3), ?_, rfl, rfl⟩
  · rw [hclimbs]
    rfl
  · rw [hresolves]
    rfl
  · rw [hconcludes]

end HindleyMilner.Forest
