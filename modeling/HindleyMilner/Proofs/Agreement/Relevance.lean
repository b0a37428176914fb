import HindleyMilner.Proofs.Agreement.Lockstep
import HindleyMilner.Proofs.Counting
import HindleyMilner.Proofs.Substituting.Relevance

/-!
# Contexts that differ in names

What an algorithm finds for a term depends on the bindings of its free names alone, and on them only
up to the names of their variables. Of two hygienic contexts one of which has, for each free name,
the scheme of the other under an injective renaming, both give a type, and the types have one
canonical form, or both give an error, and the errors are of one kind. The other bindings may be
anything, and so may the supplies.

What is irrelevant is left out first, by running algorithm W. The rest of both contexts corresponds
name by name, so that a run of algorithm W in the one can be read in a run of algorithm J in the
other, as it could in its own context: a renaming is a reading like any other.
-/

namespace HindleyMilner

open Infer (InStep)

namespace Reading

variable {Γ Δ : Context} {ρ : Nat → Nat} {n m : Nat} {mode mode' : Supply.Mode}
  {forest forest' : Forest} {s s' : Session}

/-- The variables of the context under new names, before anything is linked. -/
def renamed (ρ : Nat → Nat) (Γ : Context) : Reading := ⟨ρ, {v | v ∈ Γ.bodyVars}, ∅⟩

private theorem sound_renamed (hρ : Function.Injective ρ) (hn : ∀ v ∈ Γ.bodyVars, v < n)
    (hm : ∀ v ∈ Γ.bodyVars, ρ v < m) : (renamed ρ Γ).Sound n m where
  wellFormed := Forest.wellFormed_empty
  inj := hρ.injOn
  lt_left := hn
  lt_right := hm
  root v _ := Forest.resolve_empty (.var (ρ v))
  new w _ := Forest.resolve_empty (.var w)

private theorem readsContext_renamed (hΓ : Γ.Hygienic)
    (hget : ∀ x, Δ.get? x = (Γ.get? x).map (Scheme.rename ρ)) : (renamed ρ Γ).ReadsContext Γ Δ := by
  intro x
  rw [hget]
  cases hσ : Γ.get? x with
  | none => exact .none
  | some σ =>
    have hbody : ∀ v ∈ σ.body.vars, v ∈ Γ.bodyVars :=
      fun v hv => Context.mem_bodyVars_iff.mpr ⟨x, σ, hσ, hv⟩
    refine .some ⟨⟨hbody, Forest.resolve_empty _⟩, fun b hb => ?_, fun w => VarSet.mem_map,
      fun v hv w hw => ?_⟩
    · exact hbody b (Context.hygienic_iff.mp hΓ x σ hσ b hb).1
    · rw [renamed, Forest.resolve_empty, Ty.vars_var, VarSet.mem_singleton] at hw
      exact hw ▸ (Scheme.mem_free.mp hv).2

/-- Corresponding runs end in types with one canonical form. -/
theorem typeBySubst_canonical (term : Term) {r : Reading} (hmode : mode ≠ .shared)
    (hmode' : mode' ≠ .shared) (hs : s.Stands mode n forest) (hs' : s'.Stands mode' m r.forest)
    (hΓ : Γ.Ready n) (hr : r.Sound n m) (hctx : r.ReadsContext Γ Δ) :
    InStep (fun answer _ t' s₁' => answer.2.canonical = (s₁'.forest.resolve t').canonical) SameKind
      (Γ.typeBySubst term s) (Δ.typeByLinks term s') := by
  apply (typeBySubst_inStep term hmode hmode' hs hs' hΓ hr hctx).imp
  intro answer s₁ t' s₁' h
  obtain ⟨r', n', m', -, hs₁', hr', -, -, hreads⟩ := h
  rw [hs₁'.forest]
  exact (hr'.canonical_resolve hreads).symm

/-- Algorithm W in contexts that are the same under a renaming. -/
theorem typeBySubst_renamed (term : Term) (hmode : mode ≠ .shared) (hmode' : mode' ≠ .shared)
    (hs : s.Stands mode n forest) (hs' : s'.Stands mode' m forest') (hΓ : Γ.Ready n)
    (hΔ : Δ.Ready m) (hρ : Function.Injective ρ)
    (hget : ∀ x, Δ.get? x = (Γ.get? x).map (Scheme.rename ρ)) :
    InStep (fun answer _ answer' _ => answer.2.canonical = answer'.2.canonical) SameKind
      (Γ.typeBySubst term s) (Δ.typeBySubst term s') := by
  have hnames : ∀ v ∈ Γ.bodyVars, ρ v < m := by
    intro v hv
    obtain ⟨x, σ, hσ, hbody⟩ := Context.mem_bodyVars_iff.mp hv
    have hτ : Δ.get? x = some (σ.rename ρ) := by rw [hget, hσ, Option.map_some]
    exact hΔ.bound _
      (Context.mem_bodyVars_iff.mpr ⟨x, σ.rename ρ, hτ, Ty.mem_vars_rename.mpr ⟨v, hbody, rfl⟩⟩)
  -- Both are read in a run of algorithm J in the second context, which cannot run out of variables.
  have hmiddle : Session.Stands { supply := ⟨.unbounded, m⟩ } .unbounded m ∅ := ⟨rfl, rfl⟩
  have hunshared : Supply.Mode.unbounded ≠ .shared := by decide
  have hleft :=
    typeBySubst_canonical term hmode hunshared hs hmiddle hΓ (sound_renamed hρ hΓ.bound hnames)
      (readsContext_renamed hΓ.hygienic hget)
  have hright :=
    typeBySubst_canonical term hmode' hunshared hs' hmiddle hΔ
      (sound_initial_empty hΔ.bound hΔ.bound) (readsContext_initial_empty hΔ.hygienic)
  apply hleft.through hright
    ((Context.drawsOnly_typeByLinks term Δ).ne_exhausted_of_unbounded rfl).1
  · intro answer _ answer' _ t' _ h h'
    exact h.trans h'.symm
  · intro e _ e' _ d _ h h'
    exact h.trans h'.symm

end Reading

namespace Infer

variable {Γ Δ : Context} {ρ : Nat → Nat} {n m : Nat} {mode mode' : Supply.Mode}
  {forest forest' : Forest} {s s' : Session} {term : Term}

private theorem principalType_renamed_w (hΓ : Γ.Hygienic) (hΔ : Δ.Hygienic)
    (hρ : Function.Injective ρ)
    (hget : ∀ x ∈ term.free, Δ.get? x = (Γ.get? x).map (Scheme.rename ρ)) (hmode : mode ≠ .shared)
    (hmode' : mode' ≠ .shared) (hs : s.Stands mode n forest) (hs' : s'.Stands mode' m forest') :
    InStep (fun t _ u _ => t.canonical = u.canonical) Reading.SameKind (principalType Γ term .w s)
      (principalType Δ term .w s') := by
  have hrestricted : ∀ x, (Δ.restrict term.free).get? x =
      ((Γ.restrict term.free).get? x).map (Scheme.rename ρ) := by
    intro x
    rw [Context.get?_restrict, Context.get?_restrict]
    by_cases hx : x ∈ term.free
    · rw [if_pos hx, if_pos hx, hget x hx]
    · rw [if_neg hx, if_neg hx, Option.map_none]
  have hanswers :
      InStep (fun answer _ answer' _ => answer.2.canonical = answer'.2.canonical) Reading.SameKind
      (Γ.inferW term s) (Δ.inferW term s') := by
    apply InStep.bind_left (meets_reserve Γ hs)
    intro _ s₁ hreserve
    obtain ⟨n₁, hs₁, -, hn⟩ := hreserve
    apply InStep.bind_right (meets_reserve Δ hs')
    intro _ s₁' hreserve'
    obtain ⟨m₁, hs₁', -, hm⟩ := hreserve'
    have hready : Γ.Ready n₁ := ⟨hΓ, hn⟩
    have hready' : Δ.Ready m₁ := ⟨hΔ, hm⟩
    rw [Context.typeBySubst_restrict term hmode hs₁ hready,
      Context.typeBySubst_restrict term hmode' hs₁' hready']
    exact Reading.typeBySubst_renamed term hmode hmode' hs₁ hs₁' (hready.restrict _)
      (hready'.restrict _) hρ hrestricted
  apply hanswers.bind
  exact fun _ _ _ _ h => h

theorem principalType_renamed (algorithm : Algorithm) (hΓ : Γ.Hygienic) (hΔ : Δ.Hygienic)
    (hρ : Function.Injective ρ)
    (hget : ∀ x ∈ term.free, Δ.get? x = (Γ.get? x).map (Scheme.rename ρ)) (hmode : mode ≠ .shared)
    (hmode' : mode' ≠ .shared) (hs : s.Stands mode n forest) (hs' : s'.Stands mode' m forest') :
    InStep (fun t _ u _ => t.canonical = u.canonical) Reading.SameKind
      (principalType Γ term algorithm s) (principalType Δ term algorithm s') := by
  cases algorithm with
  | w => exact principalType_renamed_w hΓ hΔ hρ hget hmode hmode' hs hs'
  | j =>
    -- Each is compared with algorithm W in its own context.
    have hmiddle : Session.Stands { supply := ⟨.unbounded, 0⟩ } .unbounded 0 ∅ := ⟨rfl, rfl⟩
    have hunshared : Supply.Mode.unbounded ≠ .shared := by decide
    have hleft := principalType_inStep term hΓ hunshared hmode hmiddle hs
    have hright := principalType_inStep term hΔ hunshared hmode' hmiddle hs'
    have hacross := principalType_renamed_w hΓ hΔ hρ hget hunshared hunshared hmiddle hmiddle
    have hunbounded : ∀ Θ : Context, (principalType Θ term .w { supply := ⟨.unbounded, 0⟩ }).1 ≠
        .error .exhausted :=
      fun Θ => ((drawsOnly_principalType Θ term .w).ne_exhausted_of_unbounded rfl).1
    have hdown : InStep (fun t _ u _ => t.canonical = u.canonical) Reading.SameKind
        (principalType Γ term .j s)
        (principalType Δ term .w { supply := ⟨.unbounded, 0⟩ }) :=
      hleft.symm.through hacross.symm (hunbounded Γ) (fun _ _ _ _ _ _ h h' => h.symm.trans h')
        fun _ _ _ _ _ _ h h' => Eq.trans (Eq.symm h) h'
    exact hdown.through hright.symm (hunbounded Δ) (fun _ _ _ _ _ _ h h' => h.trans h')
      fun _ _ _ _ _ _ h h' => Eq.trans h h'

/-- Inference depends only on the bindings of the free names, and on those only up to an injective
renaming of their variables. -/
theorem principalType_relevant {algorithm : Algorithm} (hΓ : Γ.Hygienic) (hΔ : Δ.Hygienic)
    (hρ : Function.Injective ρ)
    (hget : ∀ x ∈ term.free, Δ.get? x = (Γ.get? x).map (Scheme.rename ρ))
    (hrange : InRange (principalType Γ term algorithm) s)
    (hrange' : InRange (principalType Δ term algorithm) s') :
    (∃ t u, (principalType Γ term algorithm s).1 = .ok t ∧
      (principalType Δ term algorithm s').1 = .ok u ∧ t.canonical = u.canonical) ∨
      ∃ e e', (principalType Γ term algorithm s).1 = .error (.illTyped e) ∧
        (principalType Δ term algorithm s').1 = .error (.illTyped e') ∧
        e.kind = e'.kind := by
  have hstep :=
    principalType_renamed algorithm hΓ hΔ hρ hget s.supply.mode.strict_ne_shared
      s'.supply.mode.strict_ne_shared s.stands_strict s'.stands_strict
  rw [((drawsOnly_principalType Γ term algorithm).run_strict hrange).1,
    ((drawsOnly_principalType Δ term algorithm).run_strict hrange').1]
  exact hstep.ended hrange hrange'

def plain : Context :=
  OrderedMap.ofList [("f", ⟨VarSet.ofList [1, 2], .fn (.var 1) (.fn (.var 2) (.var 3))⟩),
    ("g", .mono (.var 4))]

/-- The same `f`, with the order of its binders turned round. -/
def disguised : Context :=
  OrderedMap.ofList [("h", .mono (.fn (.var 40) .int)),
    ("f", ⟨VarSet.ofList [11, 12], .fn (.var 12) (.fn (.var 11) (.var 13))⟩)]

/-- Applies `f` to a parameter, in a definition. -/
def applied : Term := .abs "x" (.letIn "k" (.app (.var "f") (.var "x")) (.var "k"))

theorem principalType_relevant_disguised :
    plain.Hygienic ∧ disguised.Hygienic ∧
      ∃ t u, (principalType plain applied .j { supply := ⟨.owned, 0⟩ }).1 = .ok t ∧
        (principalType disguised applied .j { supply := ⟨.shared, 30⟩ }).1 = .ok u ∧
        t.canonical = u.canonical := by
  have hplain : plain.Hygienic := by decide
  have hdisguised : disguised.Hygienic := by decide
  have hget : ∀ x ∈ applied.free, disguised.get? x =
      (plain.get? x).map (Scheme.rename fun v => Equiv.swap 1 2 v + 10) := by
    decide
  have hρ : Function.Injective fun v => Equiv.swap 1 2 v + 10 :=
    fun _ _ heq => (Equiv.swap 1 2).injective (Nat.add_right_cancel heq)
  have hleft : (principalType plain applied .j { supply := ⟨.owned, 0⟩ }).1 =
      .ok (.fn (.var 5) (.fn (.var 9) (.var 3))) := by
    decide +kernel
  have hright : (principalType disguised applied .j { supply := ⟨.owned, 30⟩ }).1 =
      .ok (.fn (.var 41) (.fn (.var 45) (.var 13))) := by
    decide +kernel
  have hrange : InRange (principalType plain applied .j) { supply := ⟨.owned, 0⟩ } := by
    change (principalType plain applied .j { supply := ⟨.owned, 0⟩ }).1 ≠ _
    simp [hleft]
  have hrange' : InRange (principalType disguised applied .j) { supply := ⟨.shared, 30⟩ } := by
    change (principalType disguised applied .j { supply := ⟨.owned, 30⟩ }).1 ≠ _
    simp [hright]
  refine ⟨hplain, hdisguised, ?_⟩
  rcases principalType_relevant hplain hdisguised hρ hget hrange hrange' with
    hsame | ⟨e, e', herror, -⟩
  · exact hsame
  · simp [hleft] at herror

end Infer

end HindleyMilner
