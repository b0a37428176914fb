import HindleyMilner.Proofs.Forest.Overlay
import HindleyMilner.Proofs.Substituting.Footprint

/-!
# Forests that are used again

Algorithm J may be given a forest that earlier requests have left behind, failed ones among them. In
a context without free variables this makes no difference, provided that the supply is above every
variable of the forest: the run gives the answer it would give with an empty forest, draws the same
variables and reports the same events, and what was in the forest before is resolved as before.

Both runs are followed in parallel. They do the same at every step, since all types they handle are
over variables that were drawn in the run, and to those the old part of the forest is invisible
(`Forest.Overlay`).
-/

namespace HindleyMilner

variable {old : Forest} {n : Nat} {s s' : Session} {α β : Type}

/-- The sessions are the same but for their forests: that of the second is that of the first
laid over `old`. -/
structure Session.Parallel (old : Forest) (n : Nat) (s s' : Session) : Prop where
  supply : s'.supply = s.supply
  events : s'.events = s.events
  mode : s.supply.mode ≠ .shared
  le : n ≤ s.supply.next
  overlay : Forest.Overlay old s.forest s'.forest n

namespace Infer

/-- Both runs have ended in the same way, in parallel sessions, and a result satisfies `P`. -/
structure Parallel (old : Forest) (n : Nat) (P : α → Prop) (r r' : Except Failure α × Session) :
    Prop where
  outcome : r'.1 = r.1
  sessions : Session.Parallel old n r.2 r'.2
  result : ∀ a, r.1 = .ok a → P a

theorem Parallel.error {P : α → Prop} {e : Failure} (h : Session.Parallel old n s s') :
    Parallel old n P (.error e, s) (.error e, s') :=
  ⟨rfl, h, by simp⟩

theorem Parallel.bind {P : α → Prop} {Q : β → Prop} {x x' : Infer α} {f f' : α → Infer β}
    (h : Parallel old n P (x s) (x' s'))
    (hnext : ∀ a s₁ s₁', P a → Session.Parallel old n s₁ s₁' →
    Parallel old n Q (f a s₁) (f' a s₁')) :
    Parallel old n Q ((x >>= f) s) ((x' >>= f') s') := by
  obtain ⟨houtcome, hsessions, hresult⟩ := h
  rw [bind_apply, bind_apply]
  generalize x s = r at houtcome hsessions hresult ⊢
  generalize x' s' = r' at houtcome hsessions ⊢
  obtain ⟨answer, s₁⟩ := r
  obtain ⟨answer', s₁'⟩ := r'
  obtain rfl : answer = answer' := houtcome.symm
  cases answer with
  | error e => exact .error hsessions
  | ok a => exact hnext a s₁ s₁' (hresult a rfl) hsessions

/-! ### The operations -/

theorem parallel_report (event : Log.Event) (h : Session.Parallel old n s s') :
    Parallel old n (fun _ => True) (report event s) (report event s') :=
  ⟨rfl, ⟨h.supply, congrArg (Array.push · event) h.events, h.mode, h.le, h.overlay⟩,
    fun _ _ => trivial⟩

theorem parallel_conclude {form : Term.Form} {t : Ty} {P : Ty → Prop}
    (h : Session.Parallel old n s s') (ht : P t) :
    Parallel old n P (Context.concludeJ form t s) (Context.concludeJ form t s') := by
  apply (parallel_report _ h).bind
  intro _ s₁ s₁' _ h₁
  exact ⟨rfl, h₁, fun a ha => Except.ok.inj ha ▸ ht⟩

theorem parallel_draw {P : α → Prop} {d : Draw α} (h : Session.Parallel old n s s')
    (hd : ∀ a supply, d s.supply = some (a, supply) → supply.mode = s.supply.mode ∧
      s.supply.next ≤ supply.next ∧ P a) :
    Parallel old n P (draw d s) (draw d s') := by
  rw [draw_apply, draw_apply, h.supply]
  cases hdraw : d s.supply with
  | none => exact .error h
  | some drawn =>
    obtain ⟨hmode, hle, ha⟩ := hd _ _ hdraw
    have hsessions :
        Session.Parallel old n { s with supply := drawn.2 } { s' with supply := drawn.2 } :=
      ⟨rfl, h.events, by rw [hmode]; exact h.mode, Nat.le_trans h.le hle, h.overlay⟩
    exact ⟨rfl, hsessions, fun a heq => Except.ok.inj heq ▸ ha⟩

theorem parallel_reserve (Γ : Context) (h : Session.Parallel old n s s') :
    Parallel old n (fun _ => True) (draw Γ.reserve s) (draw Γ.reserve s') := by
  apply parallel_draw h
  intro _ supply hreserve
  obtain ⟨hmode, hle, -⟩ := Context.reserve_eq_some hreserve
  exact ⟨hmode, hle, trivial⟩

theorem parallel_fresh (h : Session.Parallel old n s s') :
    Parallel old n (fun t => t.Over {v | n ≤ v}) (fresh s) (fresh s') := by
  have hdraw : Parallel old n (fun v => n ≤ v) (draw Draw.fresh s) (draw Draw.fresh s') := by
    apply parallel_draw h
    intro v supply hfresh
    obtain ⟨rfl, rfl⟩ := Supply.fresh_eq_some h.mode hfresh
    exact ⟨rfl, Nat.le_succ _, h.le⟩
  rw [fresh, map_eq_pure_bind]
  apply hdraw.bind
  intro v s₁ s₁' hv h₁
  exact ⟨rfl, h₁, fun t ht => Except.ok.inj ht ▸ Ty.over_var.mpr hv⟩

theorem parallel_lookup {Γ : Context} (hΓ : ∀ v ∈ Γ.free, n ≤ v) (name : String)
    (h : Session.Parallel old n s s') :
    Parallel old n (fun t => t.Over {v | n ≤ v}) (lookup Γ name s) (lookup Γ name s') := by
  rw [lookup]
  cases hget : Γ.get? name with
  | none => exact .error h
  | some σ =>
    apply parallel_draw h
    intro t supply hdraw
    obtain ⟨rfl, rfl⟩ := Scheme.instantiate_eq_some h.mode hdraw
    refine ⟨rfl, Nat.le_add_right _ _, fun v hv => ?_⟩
    rcases (Context.Footprint.opened hget s.supply.next).reached v hv with hfree | ⟨hdrawn, -⟩
    · exact hΓ v hfree
    · exact Nat.le_trans h.le hdrawn

theorem parallel_find {t : Ty} (ht : t.Over {v | n ≤ v}) (h : Session.Parallel old n s s') :
    Parallel old n (fun t => t.Over {v | n ≤ v}) (find t s) (find t s') := by
  have hoverlay := h.overlay.register ht
  refine ⟨?_, ⟨h.supply, h.events, h.mode, h.le, hoverlay⟩, fun r hr => ?_⟩
  · exact congrArg Except.ok (hoverlay.rep_eq ht)
  · exact Except.ok.inj hr ▸ hoverlay.above.rep ht

theorem parallel_unify {a b : Ty} (ha : a.Over {v | n ≤ v}) (hb : b.Over {v | n ≤ v})
    (h : Session.Parallel old n s s') :
    Parallel old n (fun _ => True) (unify a b s) (unify a b s') := by
  obtain ⟨houtcome, hcompared, hoverlay⟩ := h.overlay.unify ha hb
  rw [unify, bind_apply, bind_apply, get_apply, get_apply]
  dsimp only
  rw [houtcome, hcompared]
  apply Parallel.bind (P := fun _ => True)
  · exact ⟨rfl, ⟨h.supply, congrArg (· ++ _) h.events, h.mode, h.le, hoverlay⟩, fun _ _ => trivial⟩
  · intro _ s₁ s₁' _ h₁
    cases (s.forest.unify a b).outcome with
    | ok _ => exact ⟨rfl, h₁, fun _ _ => trivial⟩
    | error e => exact .error h₁

end Infer

/-! ### Both runs -/

namespace Context

open Infer (Parallel)

/-- The old part of the forest has no say in what is quantified. -/
theorem generalizeIn_overlay {Γ : Context} {f g : Forest} {t : Ty} (h : Forest.Overlay old g f n)
    (hΓ : ∀ v ∈ Γ.free, n ≤ v) (ht : t.Over {v | n ≤ v}) :
    Γ.generalizeIn f t = Γ.generalizeIn g t := by
  have hknown : Γ.known f = Γ.known g := by
    ext w
    rw [mem_known, mem_known]
    refine exists_congr fun v => and_congr_right fun hv => ?_
    rw [h.resolve_eq (Ty.over_var.mpr (hΓ v hv))]
  rw [generalizeIn, generalizeIn, hknown, h.resolve_eq ht]

theorem typeByLinks_parallel (term : Term) {Γ : Context} {s s' : Session} (hΓ : ∀ v ∈ Γ.free, n ≤ v)
    (h : Session.Parallel old n s s') :
    Parallel old n (fun t => t.Over {v | n ≤ v}) (Γ.typeByLinks term s)
      (Γ.typeByLinks term s') := by
  induction term generalizing Γ s s' with
  | int value => exact Infer.parallel_conclude h Ty.over_int
  | bool value => exact Infer.parallel_conclude h Ty.over_bool
  | var name =>
    apply (Infer.parallel_lookup hΓ name h).bind
    intro t s₁ s₁' ht h₁
    exact Infer.parallel_conclude h₁ ht
  | app func arg ihfunc iharg =>
    apply (ihfunc hΓ h).bind
    intro t₁ s₁ s₁' ht₁ h₁
    apply (iharg hΓ h₁).bind
    intro t₂ s₂ s₂' ht₂ h₂
    apply (Infer.parallel_fresh h₂).bind
    intro result s₃ s₃' hresult h₃
    apply (Infer.parallel_unify ht₁ (Ty.over_fn.mpr ⟨ht₂, hresult⟩) h₃).bind
    intro _ s₄ s₄' _ h₄
    apply (Infer.parallel_find hresult h₄).bind
    intro t s₅ s₅' ht h₅
    exact Infer.parallel_conclude h₅ ht
  | abs param body ih =>
    apply (Infer.parallel_fresh h).bind
    intro t s₁ s₁' ht h₁
    have hparam : ∀ v ∈ (Scheme.mono t).free, n ≤ v := fun v hv => ht v (Scheme.mem_free_mono.mp hv)
    apply (ih (forall_mem_free_insert hparam hΓ) h₁).bind
    intro t' s₂ s₂' ht' h₂
    apply (Infer.parallel_find ht h₂).bind
    intro dom s₃ s₃' hdom h₃
    apply (Infer.parallel_find ht' h₃).bind
    intro cod s₄ s₄' hcod h₄
    exact Infer.parallel_conclude h₄ (Ty.over_fn.mpr ⟨hdom, hcod⟩)
  | letIn name init body ihinit ihbody =>
    apply (ihinit hΓ h).bind
    intro t₁ s₁ s₁' ht₁ h₁
    rw [Infer.bind_apply, Infer.bind_apply, Infer.get_apply, Infer.get_apply]
    dsimp only
    rw [generalizeIn_overlay h₁.overlay hΓ ht₁]
    apply (Infer.parallel_report _ h₁).bind
    intro _ s₂ s₂' _ h₂
    have hscheme : ∀ v ∈ (Γ.generalizeIn s₁.forest t₁).free, n ≤ v :=
      fun v hv => h₁.overlay.above.resolve ht₁ v (Scheme.mem_free.mp hv).1
    apply (ihbody (forall_mem_free_insert hscheme hΓ) h₂).bind
    intro t₂ s₃ s₃' ht₂ h₃
    exact Infer.parallel_conclude h₃ ht₂

theorem inferJ_parallel (Γ : Context) (term : Term) (hΓ : Γ.free = ∅)
    (h : Session.Parallel old n s s') :
    Parallel old n (fun t => t.Over {v | n ≤ v}) (Γ.inferJ term s) (Γ.inferJ term s') := by
  apply (Infer.parallel_reserve Γ h).bind
  intro _ s₁ s₁' _ h₁
  apply typeByLinks_parallel term _ h₁
  rw [hΓ]
  exact fun v hv => absurd hv (VarSet.not_mem_empty v)

/-- In a context without free variables, what earlier requests have left in the forest does not
interfere with algorithm J, nor the other way round, if the supply is above all of it. -/
theorem inferJ_stale (Γ : Context) (term : Term) {s : Session} (hΓ : Γ.free = ∅)
    (hmode : s.supply.mode ≠ .shared) (hforest : s.forest.Reachable)
    (hbelow : ∀ v ∈ s.forest.vars, v < s.supply.next) :
    (Γ.inferJ term s).1 = (Γ.inferJ term { s with forest := ∅ }).1 ∧
      (Γ.inferJ term s).2.supply = (Γ.inferJ term { s with forest := ∅ }).2.supply ∧
      (Γ.inferJ term s).2.events = (Γ.inferJ term { s with forest := ∅ }).2.events ∧
      (∀ t, (Γ.inferJ term s).1 = .ok t →
        (Γ.inferJ term s).2.forest.resolve t =
          (Γ.inferJ term { s with forest := ∅ }).2.forest.resolve t) ∧
      ∀ t : Ty, (∀ v ∈ t.vars, v < s.supply.next) →
        (Γ.inferJ term s).2.forest.resolve t = s.forest.resolve t := by
  have hold : s.forest.Over {v | v < s.supply.next} :=
    ⟨hforest.wellFormed, fun t ht v hv => hbelow v (Forest.mem_vars_of_mem_types ht hv)⟩
  have hstart : Session.Parallel s.forest s.supply.next { s with forest := ∅ } s :=
    ⟨rfl, rfl, hmode, Nat.le_refl _, Forest.overlay_empty hold⟩
  obtain ⟨houtcome, hsessions, hresult⟩ := inferJ_parallel Γ term hΓ hstart
  refine ⟨houtcome, hsessions.supply, hsessions.events, fun t ht => ?_,
    fun t ht => hsessions.overlay.resolve_old ht⟩
  exact hsessions.overlay.resolve_eq (hresult t (houtcome.symm.trans ht))

/-- A unification that failed halfway has left `0` below `Bool`. -/
def leftover : Forest := ((∅ : Forest).unify (.fn (.var 0) .int) (.fn .bool .bool)).forest

/-- The identity, with a binder that the forest knows. -/
def identity : Context := OrderedMap.ofList [("id", ⟨VarSet.ofList [0], .fn (.var 0) (.var 0)⟩)]

/-- Generalizes an application of the identity and applies the result to itself. -/
def reuse : Term := .letIn "f" (.abs "x" (.app (.var "id") (.var "x"))) (.app (.var "f") (.var "f"))

theorem inferJ_stale_leftover :
    leftover.resolve (.var 0) = .bool ∧
      (identity.inferJ reuse { supply := ⟨.owned, 1⟩ }).1 = .ok (.fn (.var 5) (.var 5)) ∧
      (identity.inferJ reuse { supply := ⟨.owned, 1⟩, forest := leftover }).1 =
        (identity.inferJ reuse { supply := ⟨.owned, 1⟩ }).1 ∧
      (identity.inferJ reuse { supply := ⟨.owned, 1⟩, forest := leftover }).2.forest.resolve
        (.var 0) = leftover.resolve (.var 0) := by
  have hreachable : leftover.Reachable := .unify .empty _ _
  have hbelow : ∀ v ∈ leftover.vars, v < 1 := by
    have hvars : leftover.vars = VarSet.ofList [0] := by decide
    intro v hv
    simpa [hvars, VarSet.ofList] using hv
  have hstale :=
    inferJ_stale identity reuse (s := { supply := ⟨.owned, 1⟩, forest := leftover }) (by decide)
      (by decide) hreachable hbelow
  refine ⟨by decide, by decide +kernel, hstale.1, hstale.2.2.2.2 (.var 0) fun v hv => ?_⟩
  rw [Ty.vars_var, VarSet.mem_singleton] at hv
  exact hv ▸ Nat.zero_lt_one

end Context

end HindleyMilner
