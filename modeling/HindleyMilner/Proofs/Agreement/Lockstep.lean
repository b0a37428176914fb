import HindleyMilner.Engine
import HindleyMilner.Proofs.Agreement.Schemes
import HindleyMilner.Proofs.Canonical
import HindleyMilner.Proofs.Substituting.Soundness

/-!
# The two algorithms in lockstep

Algorithms W and J, run on the same term in corresponding contexts, go through the same steps in
the same order, apart from where they draw the variable for the result of an application. So they
draw the same number of variables and end in results that correspond, or both stop at the same
unification or name, with errors of one kind (`typeBySubst_inStep`). Corresponding types differ in
names only, and hence have the same canonical form: the two algorithms agree on every term in
every hygienic context.
-/

namespace HindleyMilner

open Infer (InStep Meets)

namespace Reading

variable {r r' : Reading} {n m n' : Nat} {S : Subst} {Γ Γ' : Context} {mode mode' : Supply.Mode}
  {forest : Forest} {s s' : Session}

theorem ReadsContext.moves {m' k : Nat} (h : r.ReadsContext Γ Γ') (hr : r.Sound n m)
    (hmoves : r.Moves n S r') (hr' : r'.Sound n' m') (hΓ : Γ.Ready n)
    (hS : S.Within (Γ.reach n k)) : r'.ReadsContext (Γ.subst S) Γ' := by
  refine Context.Related.subst h fun x σ τ hσ hreads =>
    hreads.moves hr hmoves hr' (hΓ.clear hS x σ hσ) fun b hb => ?_
  exact Subst.image_of_not_mem fun hmem => hΓ.not_binder hσ (hS.keys b hmem) hb

/-! ### One step of both -/

/-- Errors of one kind. -/
def SameKind (e : TypeError) (_ : Session) (e' : TypeError) (_ : Session) : Prop := e.kind = e'.kind

/-- Both runs have ended, and from `r` on they have moved at one pace to a reading in which their
results correspond. -/
def Ended (r : Reading) (n m : Nat) (mode mode' : Supply.Mode) (forest : Forest)
    (answer : Subst × Ty) (s : Session) (t' : Ty) (s' : Session) : Prop :=
  ∃ r' n' m', s.Stands mode n' forest ∧ s'.Stands mode' m' r'.forest ∧ r'.Sound n' m' ∧
    r.Moves n answer.1 r' ∧ r'.Paced n m n' m' ∧ r'.Reads answer.2 t'

theorem inStep_lookup (hmode : mode ≠ .shared) (hmode' : mode' ≠ .shared)
    (hs : s.Stands mode n forest) (hs' : s'.Stands mode' m r.forest) (hctx : r.ReadsContext Γ Γ')
    (name : String) :
    InStep (fun t s₁ t' s₁' => ∃ σ τ, r.ReadsScheme σ τ ∧ t = σ.opened n ∧ t' = τ.opened m ∧
      s₁.Stands mode (n + σ.binders.size) forest ∧
      s₁'.Stands mode' (m + τ.binders.size) r.forest) SameKind (Infer.lookup Γ name s)
        (Infer.lookup Γ' name s') := by
  have hleft :
      Meets _ (fun e _ => Γ.get? name = none ∧ e = .unbound name) (Infer.lookup Γ name s) :=
    Infer.meets_lookup hmode hs fun hnone => ⟨hnone, rfl⟩
  have hright :
      Meets _ (fun e _ => Γ'.get? name = none ∧ e = .unbound name) (Infer.lookup Γ' name s') :=
    Infer.meets_lookup hmode' hs' fun hnone => ⟨hnone, rfl⟩
  refine InStep.of_meets hleft hright ?_ ?_ ?_ ?_
  · rintro t s₁ t' s₁' ⟨σ, hσ, ht, hs₁⟩ ⟨τ, hτ, ht', hs₁'⟩
    obtain ⟨τ', hτ', hreads⟩ := Context.Related.exists_right hctx hσ
    obtain rfl : τ' = τ := Option.some.inj (hτ'.symm.trans hτ)
    exact ⟨σ, τ', hreads, ht, ht', hs₁, hs₁'⟩
  · rintro e s₁ e' s₁' ⟨-, rfl⟩ ⟨-, rfl⟩
    rfl
  · rintro t s₁ e' s₁' ⟨σ, hσ, -, -⟩ ⟨hnone, -⟩
    obtain ⟨τ, hτ, -⟩ := Context.Related.exists_right hctx hσ
    rw [hnone] at hτ
    cases hτ
  · rintro e s₁ t' s₁' ⟨hnone, -⟩ ⟨τ, hτ, -, -⟩
    rw [Context.Related.get?_eq_none hctx hnone] at hτ
    cases hτ

theorem inStep_unify {k : Nat} {a a' b b' : Ty} (hr : r.Sound n m) (ha : r.Reads a a')
    (hb : r.Reads b b') (hs : s.Stands mode k forest) (hs' : s'.Stands mode' m r.forest) :
    InStep (fun u s₁ _ s₁' => a.mgu b = .ok u ∧ s₁.Stands mode k forest ∧
      ∃ r', s₁'.Stands mode' m r'.forest ∧ r'.Sound n m ∧ ∀ l, r.Moves l u r')
      SameKind (Infer.mgu a b s) (Infer.unify a' b' s') := by
  have hboth := hr.unify ha hb
  have hleft : Meets _ (fun e _ => a.mgu b = .error e) (Infer.mgu a b s) :=
    Infer.meets_mgu hs fun _ herror => herror
  have hright :
      Meets _ (fun e _ => (r.forest.unify a' b').outcome = .error e) (Infer.unify a' b' s') :=
    Infer.meets_unify hs' fun _ _ herror _ => herror
  refine InStep.of_meets hleft hright ?_ ?_ ?_ ?_
  · rintro u s₁ _ s₁' ⟨hu, hs₁⟩ ⟨-, hs₁'⟩
    rw [hu] at hboth
    obtain ⟨-, r', hforest, hsound, hmoves⟩ := hboth
    exact ⟨hu, hs₁, r', hforest ▸ hs₁', hsound, hmoves⟩
  · intro e s₁ e' s₁' he he'
    rw [he] at hboth
    obtain ⟨e₁, he₁, hkind⟩ := hboth
    obtain rfl : e₁ = e' := Except.error.inj (he₁.symm.trans he')
    exact hkind.symm
  · rintro u s₁ e' s₁' ⟨hu, -⟩ he'
    rw [hu] at hboth
    rw [hboth.1] at he'
    cases he'
  · rintro e s₁ _ s₁' he ⟨houtcome, -⟩
    rw [he] at hboth
    obtain ⟨e₁, he₁, -⟩ := hboth
    rw [houtcome] at he₁
    cases he₁

theorem inStep_conclude {P : Subst × Ty → Session → Ty → Session → Prop} {form form' : Term.Form}
    {t t' : Ty} (hs : s.Stands mode n forest) (hs' : s'.Stands mode' m r.forest)
    (hP : ∀ s₁ s₁', s₁.Stands mode n forest → s₁'.Stands mode' m r.forest → P (S, t) s₁ t' s₁') :
    InStep P SameKind (Context.concludeW form S t s) (Context.concludeJ form' t' s') :=
  hP _ _ ⟨hs.supply, hs.forest⟩ ⟨hs'.supply, hs'.forest⟩

/-- The end of an application, once function and argument have been typed. The substituting run drew
the variable `n` for the result at the start; only when the linking run draws its own does the
reading give `n` a name. -/
theorem inStep_applied {r₂ : Reading} {n₂ m₂ : Nat} {t₁ t₁' t₂ t₂' : Ty} (hmode' : mode' ≠ .shared)
    (hr : r.Sound n m) (hmoves : r.Moves (n + 1) S r₂) (hpaced : r₂.Paced (n + 1) m n₂ m₂)
    (hr₂ : r₂.Sound n₂ m₂) (hlt : n < n₂) (hfunc : r₂.Reads t₁ t₁') (harg : r₂.Reads t₂ t₂')
    (hs : s.Stands mode n₂ forest) (hs' : s'.Stands mode' m₂ r₂.forest) :
    InStep (r.Ended n m mode mode' forest) SameKind
      ((do
        let u ← Infer.mgu t₁ (.fn t₂ (.var n))
        Context.concludeW .app (u.comp S) ((Ty.var n).subst u)) s)
      ((do
        let result ← Infer.fresh
        Infer.unify t₁' (.fn t₂' result)
        let t ← Infer.find result
        Context.concludeJ .app t) s') := by
  have hnew : n ∉ r₂.live := by
    intro hlive
    rcases hmoves.old n hlive with hin | hge
    · exact hr.not_live hin
    · omega
  have hextends := extends_extend hnew m₂
  have hr₃ : (r₂.extend n m₂).Sound n₂ (m₂ + 1) := hr₂.extend hnew hlt (Nat.le_refl n₂)
  have hresult := hr₃.reads_var (Set.mem_insert n r₂.live)
  rw [name_extend_self] at hresult
  refine InStep.bind_right (Infer.meets_fresh hmode' hs') ?_
  rintro result s₁' ⟨rfl, hs₁'⟩
  have hfunction := Reads.fn hr₃ (harg.extend hextends) hresult
  refine (inStep_unify hr₃ (hfunc.extend hextends) hfunction hs hs₁').bind ?_
  rintro u s₂ _ s₂' ⟨-, hs₂, r₄, hs₂', hr₄, hmoves₄⟩
  refine InStep.bind_right (Infer.meets_find (.var m₂) hs₂') ?_
  rintro t s₃' ⟨rfl, hs₃'⟩
  have himage := (hmoves₄ n).image n (Set.mem_insert n r₂.live)
  rw [name_extend_self] at himage
  have hlast := (hmoves₄ n).of_extend hnew (Nat.le_refl n)
  have htotal := (hmoves.mono (Nat.le_succ n)).trans hlast hr₄ (Nat.le_refl n)
  have hpaced₄ := (hpaced.extend hnew hlt).trans (.refl hr₄) (hmoves₄ n₂) (Nat.le_of_lt hlt)
  refine inStep_conclude (r := r₄.register (.var m₂)) hs₂ hs₃' fun _ _ hs₄ hs₄' => ?_
  exact ⟨_, _, _, hs₄, hs₄', hr₄.register _, htotal.register hr₄ _, hpaced₄.register _,
    himage.find hr₄⟩

/-! ### Both runs -/

/-- Runs that start in corresponding contexts end alike. -/
theorem typeBySubst_inStep (term : Term) {r : Reading} {n m : Nat} {Γ Γ' : Context} {s s' : Session}
    (hmode : mode ≠ .shared) (hmode' : mode' ≠ .shared) (hs : s.Stands mode n forest)
    (hs' : s'.Stands mode' m r.forest) (hΓ : Γ.Ready n) (hr : r.Sound n m)
    (hctx : r.ReadsContext Γ Γ') :
    InStep (r.Ended n m mode mode' forest) SameKind (Γ.typeBySubst term s)
      (Γ'.typeByLinks term s') := by
  induction term generalizing r n m Γ Γ' s s' with
  | int value =>
    have hreads : r.Reads .int .int :=
      ⟨fun v hv => absurd hv (VarSet.not_mem_empty v), hr.wellFormed.resolve_int⟩
    exact inStep_conclude hs hs' fun _ _ hs₁ hs₁' =>
      ⟨r, n, m, hs₁, hs₁', hr, .refl hr, .refl hr, hreads⟩
  | bool value =>
    have hreads : r.Reads .bool .bool :=
      ⟨fun v hv => absurd hv (VarSet.not_mem_empty v), hr.wellFormed.resolve_bool⟩
    exact inStep_conclude hs hs' fun _ _ hs₁ hs₁' =>
      ⟨r, n, m, hs₁, hs₁', hr, .refl hr, .refl hr, hreads⟩
  | var name =>
    refine (inStep_lookup hmode hmode' hs hs' hctx name).bind ?_
    rintro t s₁ t' s₁' ⟨σ, τ, hreads, rfl, rfl, hs₁, hs₁'⟩
    refine inStep_conclude (r := r.opened σ τ n m) hs₁ hs₁' fun _ _ hs₂ hs₂' => ?_
    exact ⟨_, _, _, hs₂, hs₂', hr.opened hreads, moves_opened hr σ τ, paced_opened hr hreads,
      reads_opened hr hreads⟩
  | app func arg ihfunc iharg =>
    refine InStep.bind_left (Infer.meets_fresh hmode hs) ?_
    rintro result s₀ ⟨rfl, hs₀⟩
    have hready := hΓ.mono (Nat.le_succ n)
    have hr₀ := hr.mono (Nat.le_succ n)
    refine (InStep.and_left (ihfunc hs₀ hs' hready hr₀ hctx)
      (Context.typeBySubst_footprint func hmode hs₀ hready.free_lt)).bind ?_
    rintro ⟨S₁, t₁⟩ s₁ t₁' s₁'
      ⟨⟨r₁, n₁, m₁, hs₁, hs₁', hr₁, hmoves₁, hpaced₁, hreads₁⟩, k₁, hk₁, h₁⟩
    obtain rfl := hs₁.next_eq hk₁
    have hready₁ := hready.subst h₁
    have hctx₁ := hctx.moves hr₀ hmoves₁ hr₁ hready h₁.within
    refine (InStep.and_left (iharg hs₁ hs₁' hready₁ hr₁ hctx₁)
      (Context.typeBySubst_footprint arg hmode hs₁ hready₁.free_lt)).bind ?_
    rintro ⟨S₂, t₂⟩ s₂ t₂' s₂'
      ⟨⟨r₂, n₂, m₂, hs₂, hs₂', hr₂, hmoves₂, hpaced₂, hreads₂⟩, k₂, hk₂, h₂⟩
    obtain rfl := hs₂.next_eq hk₂
    have hpaced := hpaced₁.trans hpaced₂ hmoves₂ h₁.le
    exact inStep_applied hmode' hr (hmoves₁.trans hmoves₂ hr₂ h₁.le) hpaced hr₂
      (Nat.le_trans h₁.le h₂.le) (hmoves₂.reads hr₂ hreads₁) hreads₂ hs₂ hs₂'
  | abs param body ih =>
    refine InStep.bind_left (Infer.meets_fresh hmode hs) ?_
    rintro t s₀ ⟨rfl, hs₀⟩
    refine InStep.bind_right (Infer.meets_fresh hmode' hs') ?_
    rintro t s₀' ⟨rfl, hs₀'⟩
    have hnew := hr.not_live
    have hr₀ : (r.extend n m).Sound (n + 1) (m + 1) :=
      hr.extend hnew (Nat.lt_succ_self n) (Nat.le_succ n)
    have hparam := hr₀.reads_var (Set.mem_insert n r.live)
    rw [name_extend_self] at hparam
    have hctx₀ :=
      Context.Related.insert (hctx.extend (extends_extend hnew m)) param (ReadsScheme.mono hparam)
    refine (ih (r := r.extend n m) hs₀ hs₀' (hΓ.insert_mono param) hr₀ hctx₀).bind ?_
    rintro ⟨S, t₁⟩ s₁ t₁' s₁' ⟨r₁, n₁, m₁, hs₁, hs₁', hr₁, hmoves, hpaced, hreads⟩
    refine InStep.bind_right (Infer.meets_find (.var m) hs₁') ?_
    rintro dom s₂' ⟨rfl, hs₂'⟩
    refine InStep.bind_right (Infer.meets_find t₁' hs₂') ?_
    rintro cod s₃' ⟨rfl, hs₃'⟩
    have hr₂ := hr₁.register (.var m)
    have hr₃ := hr₂.register t₁'
    have hdom := hmoves.image n (Set.mem_insert n r.live)
    rw [name_extend_self] at hdom
    have htotal := ((hmoves.of_extend hnew (Nat.le_succ n)).register hr₁ (.var m)).register hr₂ t₁'
    have hpaced₃ := ((hpaced.of_extend hmoves).register (.var m)).register t₁'
    refine inStep_conclude (r := (r₁.register (.var m)).register t₁') hs₁ hs₃' fun _ _ hs₄ hs₄' =>
      ?_
    exact ⟨_, _, _, hs₄, hs₄', hr₃, htotal, hpaced₃,
      .fn hr₃ ((hdom.find hr₁).register hr₂ t₁') ((hreads.register hr₁ (.var m)).find hr₂)⟩
  | letIn name init body ihinit ihbody =>
    refine (InStep.and_left (ihinit hs hs' hΓ hr hctx)
      (Context.typeBySubst_footprint init hmode hs hΓ.free_lt)).bind ?_
    rintro ⟨S₁, t₁⟩ s₁ t₁' s₁'
      ⟨⟨r₁, n₁, m₁, hs₁, hs₁', hr₁, hmoves₁, hpaced₁, hreads₁⟩, k₁, hk₁, h₁⟩
    obtain rfl := hs₁.next_eq hk₁
    refine InStep.bind_left (Infer.meets_report _ hs₁) fun _ s₂ hs₂ => ?_
    refine InStep.bind_right (Infer.meets_get hs₁') ?_
    rintro session s₂' ⟨hforest, hs₂'⟩
    refine InStep.bind_right (Infer.meets_report _ hs₂') fun _ s₃' hs₃' => ?_
    dsimp only
    rw [Context.subst_insert, h₁.generalize_subst_self, hforest]
    have hready := (hΓ.subst h₁).insert_generalize (h₁.type_lt hΓ.free_lt) name
    -- The linking run goes on in the context it had; it is the new reading that makes up for the
    -- substitution.
    have hctx₁ := hctx.moves hr hmoves₁ hr₁ hΓ h₁.within
    have hctx₂ := Context.Related.insert hctx₁ name (hctx₁.generalize hr₁ hreads₁)
    refine (ihbody hs₂ hs₃' hready hr₁ hctx₂).bind ?_
    rintro ⟨S₂, t₂⟩ s₄ t₂' s₄' ⟨r₂, n₂, m₂, hs₄, hs₄', hr₂, hmoves₂, hpaced₂, hreads₂⟩
    refine inStep_conclude hs₄ hs₄' fun _ _ hs₅ hs₅' => ?_
    exact ⟨r₂, n₂, m₂, hs₅, hs₅', hr₂, hmoves₁.trans hmoves₂ hr₂ h₁.le,
      hpaced₁.trans hpaced₂ hmoves₂ h₁.le, hreads₂⟩

/-! ### From the same context -/

theorem sound_initial_empty (hn : ∀ v ∈ Γ.bodyVars, v < n) (hm : ∀ v ∈ Γ.bodyVars, v < m) :
    (initial Γ ∅).Sound n m := by
  have hnone : ∀ v, v ∉ (∅ : Forest).vars := VarSet.not_mem_empty
  exact sound_initial Forest.wellFormed_empty (fun v hv => hn v (hv.resolve_right (hnone v)))
    fun v hv => hm v (hv.resolve_right (hnone v))

theorem readsContext_initial_empty (hΓ : Γ.Hygienic) : (initial Γ ∅).ReadsContext Γ Γ := by
  have hctx := readsContext_initial Forest.wellFormed_empty hΓ Γ.apart_empty
  rwa [Context.subst_solution_empty] at hctx

/-- Both runs set out from the same context, with variables from `n` and from `m` on,
and have ended. -/
structure Answered (Γ : Context) (n m : Nat) (mode mode' : Supply.Mode) (forest : Forest)
    (answer : Subst × Ty) (s : Session) (t' : Ty) (s' : Session) :
    Prop where
  ready : Γ.Ready n
  ready' : Γ.Ready m
  ended : (initial Γ ∅).Ended n m mode mode' forest answer s t' s'
  footprint : ∃ n', s.Stands mode n' forest ∧ Γ.Footprint n answer.1 answer.2 n'

theorem inferW_inStep (term : Term) (hΓ : Γ.Hygienic) (hmode : mode ≠ .shared)
    (hmode' : mode' ≠ .shared) (hs : s.Stands mode n forest) (hs' : s'.Stands mode' m ∅) :
    InStep (fun answer s₁ t' s₁' => ∃ u u', Γ.reserve s.supply = some ((), u) ∧
      Γ.reserve s'.supply = some ((), u') ∧
      Answered Γ u.next u'.next mode mode' forest answer s₁ t' s₁') SameKind (Γ.inferW term s)
        (Γ.inferJ term s') := by
  refine InStep.bind_left
    ((Infer.meets_reserve Γ hs).and (Infer.meets_draw (E := fun _ _ => False) Γ.reserve s)) ?_
  rintro _ s₁ ⟨⟨n₁, hs₁, -, hn⟩, u, hu, rfl⟩
  refine InStep.bind_right
    ((Infer.meets_reserve Γ hs').and (Infer.meets_draw (E := fun _ _ => False) Γ.reserve s')) ?_
  rintro _ s₁' ⟨⟨m₁, hs₁', -, hm⟩, u', hu', rfl⟩
  obtain rfl : u = ⟨mode, n₁⟩ := hs₁.supply
  obtain rfl : u' = ⟨mode', m₁⟩ := hs₁'.supply
  have hready : Γ.Ready n₁ := ⟨hΓ, hn⟩
  have hstep :=
    typeBySubst_inStep term hmode hmode' hs₁ hs₁' hready (sound_initial_empty hn hm)
      (readsContext_initial_empty hΓ)
  refine (hstep.and_left (Context.typeBySubst_footprint term hmode hs₁ hready.free_lt)).imp ?_
  rintro answer s₂ t' s₂' ⟨hended, hfootprint⟩
  exact ⟨_, _, hu, hu', hready, ⟨hΓ, hm⟩, hended, hfootprint⟩

theorem Sound.canonical_resolve {t t' : Ty} (h : r.Sound n m) (ht : r.Reads t t') :
    (r.forest.resolve t').canonical = t.canonical := by
  rw [ht.2]
  exact Ty.canonical_rename (h.inj.mono ht.1)

end Reading

namespace Infer

variable {Γ : Context} {s s' : Session} {n m : Nat} {mode mode' : Supply.Mode}
  {forest forest' : Forest}

theorem principalType_inStep (term : Term) (hΓ : Γ.Hygienic) (hmode : mode ≠ .shared)
    (hmode' : mode' ≠ .shared) (hs : s.Stands mode n forest) (hs' : s'.Stands mode' m forest') :
    InStep (fun t _ u _ => t.canonical = u.canonical) Reading.SameKind (principalType Γ term .w s)
      (principalType Γ term .j s') := by
  refine InStep.bind_right (meets_clearForest hs') fun _ s₁' hs₁' => ?_
  refine (Reading.inferW_inStep term hΓ hmode hmode' hs hs₁').bind ?_
  rintro ⟨S, t⟩ s₂ t' s₂' ⟨u, u', -, -, -, -, ⟨r, n₂, m₂, -, hs₂', hr, -, -, hreads⟩, -⟩
  have hresolve : resolve t' s₂' = (.ok (r.forest.resolve t'), s₂') := hs₂'.forest ▸ rfl
  rw [hresolve]
  exact (hr.canonical_resolve hreads).symm

/-- However algorithm W ends, it leaves the kind of supply and the forest as they were. -/
theorem principalType_stands (term : Term) (hΓ : Γ.Hygienic) (hmode : mode ≠ .shared)
    (hs : s.Stands mode n forest) :
    Meets (fun _ s' => ∃ n', s'.Stands mode n' forest) (fun _ s' => ∃ n', s'.Stands mode n' forest)
      (principalType Γ term .w s) := by
  refine Meets.bind ((meets_reserve Γ hs).bind ?_) fun _ _ hs' => hs'
  rintro _ s₁ ⟨n₁, hs₁, -, hn⟩
  refine (Context.typeBySubst_footprint term hmode hs₁ (Context.Ready.mk hΓ hn).free_lt).imp ?_ ?_
  · rintro _ s₂ ⟨n₂, hs₂, -⟩
    exact ⟨n₂, hs₂⟩
  · rintro _ s₂ ⟨n₂, hs₂, -⟩
    exact ⟨n₂, hs₂⟩

private theorem agrees_of_inStep {w j : Except TypeError Ty}
    (h : InStep (fun t _ u _ => t.canonical = u.canonical) Reading.SameKind (w.mapError .illTyped,
      s) (j.mapError .illTyped, s')) :
    (Agreement.mk w j).agrees = true := by
  rw [Agreement.agrees_iff]
  cases w with
  | ok t =>
    cases j with
    | ok u => exact .inl ⟨t, u, rfl, rfl, h⟩
    | error e' => exact h.elim
  | error e =>
    cases j with
    | ok u => exact h.elim
    | error e' => exact .inr ⟨e, e', rfl, rfl, h⟩

theorem compare_agrees (term : Term) (hΓ : Γ.Hygienic) (hmode : mode ≠ .shared)
    (hs : s.Stands mode n forest) :
    Meets (fun a _ => a.agrees = true) (fun _ _ => False) (compare Γ term s) := by
  refine (meets_outcome _ s).bind fun w s₁ hw => ?_
  refine (meets_outcome _ s₁).bind fun j s₂ hj => ?_
  have hs₁ : ∃ n₁, s₁.Stands mode n₁ forest := by
    have hstands := principalType_stands term hΓ hmode hs
    rw [hw] at hstands
    cases w with
    | ok t => exact hstands
    | error e => exact hstands
  obtain ⟨n₁, hs₁⟩ := hs₁
  have hstep := principalType_inStep term hΓ hmode hmode hs hs₁
  rw [hw, hj] at hstep
  have hagrees := agrees_of_inStep hstep
  rw [hagrees]
  exact hagrees

end Infer

/-- In a hygienic context the two algorithms agree on every term: both find a type, and the types
have one canonical form, or both find an error, and the errors are of one kind. -/
theorem Engine.checkAgreement_agrees {engine : Engine} {Γ : Context} {term : Term} (hΓ : Γ.Hygienic)
    (hmode : engine.supply.mode ≠ .shared)
    (hsupply : (engine.checkAgreement Γ term).answer ≠ .error .exhausted) :
    ∃ a, (engine.checkAgreement Γ term).answer = .ok a ∧ a.agrees = true ∧
      ((∃ t u, a.w = .ok t ∧ a.j = .ok u ∧ t.canonical = u.canonical) ∨ ∃ e e', a.w = .error e ∧
        a.j = .error e' ∧ e.kind = e'.kind) := by
  have hmeets := Infer.compare_agrees term (s := { supply := engine.supply }) hΓ hmode ⟨rfl, rfl⟩
  obtain ⟨a, hanswer, hagrees⟩ := hmeets.exists_ok hsupply
  exact ⟨a, hanswer, hagrees, Agreement.agrees_iff.mp hagrees⟩

theorem Engine.checkAgreement_agrees_sample :
    Context.sample.Hygienic ∧
      (∃ a, ((start .defaults).checkAgreement Context.sample Context.sampleTerm).answer = .ok a ∧
        a.w = .ok (.var 5) ∧ a.j = .ok (.var 17) ∧ a.agrees = true) ∧
      ∃ a, ((start .defaults).checkAgreement Context.sample (.app (.var "y") (.var "y"))).answer =
        .ok a ∧
        a.w = .error (.infinite 3 (.fn (.var 3) (.var 4))) ∧
          a.j = .error (.infinite 3 (.fn (.var 3) (.var 5))) ∧ a.agrees = true := by
  have hΓ : Context.sample.Hygienic := by decide
  have htypes : ((start .defaults).checkAgreement Context.sample Context.sampleTerm).answer =
      .ok ⟨.ok (.var 5), .ok (.var 17)⟩ := by
    cbv
  have herrors :
      ((start .defaults).checkAgreement Context.sample (.app (.var "y") (.var "y"))).answer =
      .ok ⟨.error (.infinite 3 (.fn (.var 3) (.var 4))),
          .error (.infinite 3 (.fn (.var 3) (.var 5)))⟩ := by
        cbv
  have hmode : (start .defaults).supply.mode ≠ .shared := by decide
  refine ⟨hΓ, ?_, ?_⟩
  · obtain ⟨a, ha, hagrees, -⟩ := checkAgreement_agrees hΓ hmode (by rw [htypes]; simp)
    obtain rfl := Except.ok.inj (htypes.symm.trans ha)
    exact ⟨_, htypes, rfl, rfl, hagrees⟩
  · obtain ⟨a, ha, hagrees, -⟩ := checkAgreement_agrees hΓ hmode (by rw [herrors]; simp)
    obtain rfl := Except.ok.inj (herrors.symm.trans ha)
    exact ⟨_, herrors, rfl, rfl, hagrees⟩

end HindleyMilner
