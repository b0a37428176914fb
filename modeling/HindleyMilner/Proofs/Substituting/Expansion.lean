import HindleyMilner.Proofs.Canonical
import HindleyMilner.Proofs.Counting
import HindleyMilner.Proofs.Replacement
import HindleyMilner.Proofs.Substituting.Completeness

/-!
# Expanding a `let`

A `let` types its body as if the definition stood wherever the name does. One half of this is plain:
the definition has every type that its generalized type offers. For the other half the definition
may be used at many types in the expanded term, and one type has to be found that offers them all.
Algorithm W finds it, run on the relevant bindings alone so that the type brings in no free variable
of others (`exists_principal`).

Terms with the same types are the same to algorithm W, up to the names of variables in the answer
(`inferW_inStep_of_typing_iff`).
-/

namespace HindleyMilner

namespace Scheme

variable {σ : Scheme} {S : Subst} {φ : Nat → Ty}

/-- What a substitution does to a scheme can be undone if it can be undone on the free variables. -/
theorem Clear.carries_back (hclear : Clear S σ)
    (hundo : ∀ v ∈ σ.free, (S.image v).bind φ = .var v) : (σ.subst S).Carries φ σ := by
  intro g hagree
  rw [body_subst, Ty.bind_bind]
  apply instance_bind
  intro v hv
  rw [if_neg (mem_free.mp hv).2, ← hundo v hv]
  exact Ty.bind_congr fun w hw => hagree w (hclear.mem_free_subst hv hw)

theorem covers_self (σ : Scheme) : Covers .var σ σ := by
  intro τ hτ
  obtain ⟨f, hfix, rfl⟩ := hτ.exists_bind
  exact ⟨f, fun v hv => hfix v (mem_free.mp hv).2, rfl⟩

end Scheme

namespace Context

variable {Γ : Context} {e : Term} {n n' : Nat} {S : Subst} {t τ : Ty} {φ : Nat → Ty}

theorem covers_self (Γ : Context) : Γ.Covers .var Γ := by
  intro x
  cases Γ.get? x with
  | none => exact .none
  | some σ => exact .some σ.covers_self

/-! ### Principal types in a context -/

/-- A term that has a type has an answer that all its types are instances of, along replacements
which undo what the answer substitutes. -/
theorem exists_answer (hΓ : Γ.Ready n) (h : Typing Γ e τ) :
    ∃ S t n', Footprint Γ n S t n' ∧ Typing (Γ.subst S) e t ∧ ∀ τ, Typing Γ e τ →
      ∃ φ, Factors .var n S t τ φ := by
  have hs : Session.Stands { supply := ⟨.unbounded, n⟩ } .unbounded n ∅ := ⟨rfl, rfl⟩
  have hmode : Supply.Mode.unbounded ≠ .shared := by decide
  have hsupply :=
    ((drawsOnly_typeBySubst e Γ).ne_exhausted_of_unbounded (s := { supply := ⟨.unbounded, n⟩ })
      rfl).1
  have hfactors :=
    fun (τ : Ty) (hτ : Typing Γ e τ) => typeBySubst_factors hmode hs hΓ Γ.covers_self hτ
  obtain ⟨⟨S, t⟩, hrun, -⟩ := (hfactors τ h).exists_ok hsupply
  obtain ⟨n', -, hfoot⟩ := (typeBySubst_footprint e hmode hs hΓ.free_lt).of_ok hrun
  exact ⟨S, t, n', hfoot, (typeBySubst_typing e hmode hs hΓ).of_ok hrun,
    fun τ hτ => (hfactors τ hτ).of_ok hrun⟩

private theorem Footprint.carries_back (h : Footprint Γ n S t n') (hΓ : Γ.Ready n)
    (hundo : ∀ v ∈ Γ.free, (S.image v).bind φ = .var v) :
    (Γ.subst S).Carries φ Γ := by
  intro x σ hget
  obtain ⟨σ₀, hσ₀, rfl⟩ := get?_subst_eq_some hget
  refine ⟨σ₀, hσ₀, (hΓ.clear h.within x σ₀ hσ₀).carries_back fun v hv => hundo v ?_⟩
  exact mem_free_iff.mpr ⟨x, σ₀, hσ₀, hv⟩

/-- With what was substituted in the context undone and the rest moved out of the way, a type has
only variables of the context and those from `m` on. -/
theorem mem_free_or_le_of_mem_aside {m v : Nat} (hundo : ∀ v ∈ Γ.free, (S.image v).bind φ = .var v)
    (hv : v ∈ (t.bind (Typing.asideFrom (Γ.subst S) φ m)).vars) :
    v ∈ Γ.free ∨ m ≤ v := by
  obtain ⟨w, -, hvw⟩ := Ty.mem_vars_bind.mp hv
  rw [Typing.asideFrom] at hvw
  split at hvw
  · rename_i hin
    obtain ⟨u, hu, hwu⟩ := exists_of_mem_free_subst hin
    have hmem : v ∈ ((S.image u).bind φ).vars := Ty.mem_vars_bind.mpr ⟨w, hwu, hvw⟩
    rw [hundo u hu, Ty.vars_var, VarSet.mem_singleton] at hmem
    exact .inl (hmem ▸ hu)
  · rw [Ty.vars_var, VarSet.mem_singleton] at hvw
    omega

/-- A term that has a type in a hygienic context has one whose generalization offers all its types,
and leaves free only what a relevant binding does. -/
theorem exists_principal (hΓ : Γ.Hygienic) (h : Typing Γ e τ) :
    ∃ t, Typing Γ e t ∧ (∀ τ, Typing Γ e τ → (Γ.generalize t).Instance τ) ∧
      ∀ v ∈ (Γ.generalize t).free, v ∈ (Γ.restrict e.free).free := by
  obtain ⟨n, hn⟩ := Γ.bodyVars.exists_above
  have hready : (Γ.restrict e.free).Ready n := Ready.restrict ⟨hΓ, hn⟩ e.free
  have hrestrict : ∀ τ, Typing Γ e τ → Typing (Γ.restrict e.free) e τ :=
    fun τ hτ => hτ.congr (Γ.agreesOn_restrict e.free).symm
  obtain ⟨S, t, n', hfoot, htyping, hfactors⟩ := exists_answer hready (hrestrict τ h)
  obtain ⟨φ, hφ⟩ := hfactors τ (hrestrict τ h)
  have hundo : ∀ v ∈ (Γ.restrict e.free).free, (S.image v).bind φ = .var v :=
    fun v hv => hφ.image v (hready.free_lt v hv)
  obtain ⟨m, hm⟩ := (Γ.free ∪ (t.bind φ).vars).exists_above
  refine ⟨t.bind (Typing.asideFrom ((Γ.restrict e.free).subst S) φ m), ?_, fun τ' hτ' => ?_,
    fun v hv => ?_⟩
  · have haside :=
      (hfoot.carries_back hready hundo).congr (g := Typing.asideFrom _ φ m) fun v hv => if_pos hv
    exact (htyping.carry haside).congr (Γ.agreesOn_restrict e.free)
  · obtain ⟨ψ, hψ⟩ := hfactors τ' (hrestrict τ' hτ')
    rw [← hψ.type]
    apply Typing.carries_generalize hm
    intro w hw
    obtain ⟨v, hv, hwv⟩ := exists_of_mem_free_subst (mem_free_generalize.mp hw).2
    have hsame : (S.image v).bind ψ = (S.image v).bind φ :=
      (hψ.image v (hready.free_lt v hv)).trans (hundo v hv).symm
    exact Ty.bind_eq_bind_iff.mp hsame w hwv
  · obtain ⟨hvars, hfree⟩ := mem_free_generalize.mp hv
    have := hm v (VarSet.mem_union.mpr (.inl hfree))
    rcases mem_free_or_le_of_mem_aside hundo hvars with hin | hge
    · exact hin
    · omega

/-! ### Typing the expanded term -/

section Expansion

variable {x : String} {init body : Term}

/-- A definition has every type that its generalized type offers. -/
theorem heldBy_generalize (hinit : Typing Γ init t) : (Γ.generalize t).HeldBy .var Γ init := by
  intro g hagree Γ' hΓ'
  let f : Nat → Ty := fun v => if v ∈ Γ.free then .var v else g v
  have hcarries : Γ.Carries f Γ := by
    intro y σ hget
    refine ⟨σ, hget, fun h hh => Scheme.instance_bind fun v hv => ?_⟩
    rw [hh v hv]
    exact if_pos (mem_free_iff.mpr ⟨y, σ, hget, hv⟩)
  have hsame : t.bind g = t.bind f := by
    apply Ty.bind_congr
    intro v hv
    by_cases hfree : v ∈ Γ.free
    · rw [hagree v (mem_free_generalize.mpr ⟨hv, hfree⟩)]
      exact (if_pos hfree).symm
    · exact (if_neg hfree).symm
  show Typing Γ' init (t.bind g)
  rw [hsame]
  exact (hinit.carry hcarries).congr hΓ'

theorem typing_expand (h : Typing Γ (.letIn x init body) τ) : Typing Γ (body.expand x init) τ := by
  cases h with
  | @letIn _ _ _ _ t _ hinit hbody =>
    have hfilled : Filled body.free (Term.only x init) .var (Γ.insert x (Γ.generalize t)) Γ := by
      intro y _ σ hget
      rcases get?_insert_cases hget with ⟨rfl, rfl⟩ | ⟨hne, hget⟩
      · rw [Term.only_self]
        exact heldBy_generalize hinit
      · rw [Term.only_of_ne (Ne.symm hne)]
        exact σ.carries_self.heldBy hget
    have hreplaced := hbody.replace hfilled
    rwa [Ty.bind_var] at hreplaced

/-- What is bound to the name of a definition, when its type is principal, mirrors
the definition. -/
theorem mirrored_expand (hoffers : ∀ τ, Typing Γ init τ → (Γ.generalize t).Instance τ)
    (hfree : ∀ v ∈ (Γ.generalize t).free, v ∈ (Γ.restrict init.free).free) (names : List String) :
    Mirrored names (Term.only x init) Γ (Γ.insert x (Γ.generalize t)) := by
  constructor
  · intro y _ Γ' hΓ' τ hτ
    by_cases heq : y = x
    · subst heq
      rw [Term.only_self] at hτ hΓ'
      refine ⟨Γ.generalize t, by rw [OrderedMap.get?_insert, if_pos rfl], hoffers τ ?_⟩
      exact hτ.congr hΓ'.symm
    · rw [Term.only_of_ne heq] at hτ hΓ'
      cases hτ with
      | @var _ _ σ _ hget hinst =>
        refine ⟨σ, ?_, hinst⟩
        rw [OrderedMap.get?_insert, if_neg (Ne.symm heq), ← hΓ' y (by simp [Term.free]), hget]
  · intro y _ σ hget v hv
    rcases get?_insert_cases hget with ⟨rfl, rfl⟩ | ⟨hne, hget⟩
    · rw [Term.only_self]
      obtain ⟨z, δ, hδ, hvδ⟩ := mem_free_iff.mp (hfree v hv)
      rw [get?_restrict] at hδ
      split at hδ
      · rename_i hz
        exact ⟨z, hz, δ, hδ, hvδ⟩
      · cases hδ
    · rw [Term.only_of_ne (Ne.symm hne)]
      exact ⟨y, by simp [Term.free], σ, hget, hv⟩

/-- In a hygienic context a `let` whose name is used has the types of its expansion. -/
theorem typing_letIn_iff_expand (hΓ : Γ.Hygienic) (hx : x ∈ body.free) :
    Typing Γ (.letIn x init body) τ ↔ Typing Γ (body.expand x init) τ := by
  refine ⟨typing_expand, fun h => ?_⟩
  obtain ⟨τ₁, hsome⟩ := h.exists_of_replace hx
  rw [Term.only_self] at hsome
  obtain ⟨t, hinit, hoffers, hfree⟩ := exists_principal hΓ hsome
  exact .letIn hinit (h.of_replace (mirrored_expand hoffers hfree body.free))

end Expansion

/-! ### Terms with the same types -/

/-- The answer types the term in an instance of the context, and whatever types it in another
instance is an instance of the answer. -/
structure Principal (Γ : Context) (e : Term) (S : Subst) (t : Ty) : Prop where
  avoids : Γ.Avoids S
  hygienic : (Γ.subst S).Hygienic
  typing : Typing (Γ.subst S) e t
  general : ∀ θ τ, Γ.Avoids θ → Typing (Γ.subst θ) e τ → ∃ θ' : Subst, t.subst θ' = τ

theorem Ready.avoids (h : Γ.Ready n) (hS : S.Within (Γ.reach n n')) : Γ.Avoids S := by
  intro binding hbinding b hb entry hentry hmem
  obtain ⟨hkey, himage⟩ := Subst.image_of_mem_entries hentry
  have hget : Γ.get? binding.1 = some binding.2 := OrderedMap.get?_eq_some_iff.mpr hbinding
  exact h.not_binder hget (hS.range entry.1 hkey b (himage ▸ hmem)) hb

theorem inferW_answers (hΓ : Γ.Hygienic) {s : Session} (hmode : s.supply.mode ≠ .shared)
    (e : Term) :
    Infer.Meets (fun r _ => Γ.Principal e r.1 r.2) (fun _ _ => ∀ θ τ, Γ.Avoids θ →
      ¬ Typing (Γ.subst θ) e τ) (Γ.inferW e s) := by
  have hsound : Infer.Meets (fun r _ => Γ.Avoids r.1 ∧ (Γ.subst r.1).Hygienic ∧
      Typing (Γ.subst r.1) e r.2) (fun _ _ => True) (Γ.inferW e s) := by
    apply (Infer.meets_reserve Γ ⟨rfl, rfl⟩).bind
    intro _ s₁ h₁
    obtain ⟨n, hs₁, -, hbound⟩ := h₁
    have hready : Γ.Ready n := ⟨hΓ, hbound⟩
    apply ((typeBySubst_typing e hmode hs₁ hready).and
      (typeBySubst_footprint e hmode hs₁ hready.free_lt)).imp
    · intro r s₂ h₂
      obtain ⟨htyping, n', -, hfoot⟩ := h₂
      exact ⟨hready.avoids hfoot.within, (hready.subst hfoot).hygienic, htyping⟩
    · exact fun _ _ _ => trivial
  have hfactors :=
    fun (θ : Subst) (τ : Ty) (hθ : Γ.Avoids θ) (hτ : Typing (Γ.subst θ) e τ) =>
      inferW_factors hΓ hmode hθ hτ
  generalize Γ.inferW e s = r at hsound hfactors
  obtain ⟨(_ | _) | answer, s₁⟩ := r
  · exact hfactors
  · trivial
  · obtain ⟨havoids, hhygienic, htyping⟩ := hsound
    refine ⟨havoids, hhygienic, htyping, fun θ τ hθ hτ => ?_⟩
    obtain ⟨θ', htype, -⟩ := hfactors θ τ hθ hτ
    exact ⟨θ', htype⟩

/-- On terms that have the same types in all hygienic contexts, algorithm W succeeds alike, and its
types are the same in canonical form. -/
theorem inferW_inStep_of_typing_iff (hΓ : Γ.Hygienic) {s s' : Session}
    (hmode : s.supply.mode ≠ .shared) (hmode' : s'.supply.mode ≠ .shared) {e e' : Term}
    (hsame : ∀ Δ τ, Hygienic Δ → (Typing Δ e τ ↔ Typing Δ e' τ)) :
    Infer.InStep (fun r _ r' _ => r.2.canonical = r'.2.canonical) (fun _ _ _ _ => True)
      (Γ.inferW e s) (Γ.inferW e' s') := by
  apply Infer.InStep.of_meets (inferW_answers hΓ hmode e) (inferW_answers hΓ hmode' e')
  · intro r _ r' _ h h'
    obtain ⟨θ, hθ⟩ := h.general r'.1 r'.2 h'.avoids ((hsame _ _ h'.hygienic).mpr h'.typing)
    obtain ⟨θ', hθ'⟩ := h'.general r.1 r.2 h.avoids ((hsame _ _ h.hygienic).mp h.typing)
    exact Ty.canonical_eq_of_bind hθ hθ'
  · exact fun _ _ _ _ _ _ => trivial
  · intro r _ _ _ h hnone
    exact hnone r.1 r.2 h.avoids ((hsame _ _ h.hygienic).mp h.typing)
  · intro _ _ r' _ hnone h'
    exact hnone r'.1 r'.2 h'.avoids ((hsame _ _ h'.hygienic).mpr h'.typing)

/-- Algorithm W succeeds on a `let` whose name is used exactly when it succeeds on the expanded
body, and the types it finds are then the same in canonical form. -/
theorem inferW_letIn_iff_expand {x : String} {init body : Term} {s s' : Session} (hΓ : Γ.Hygienic)
    (hx : x ∈ body.free) (hrange : Infer.InRange (Γ.inferW (.letIn x init body)) s)
    (hrange' : Infer.InRange (Γ.inferW (body.expand x init)) s') :
    ((∃ r, (Γ.inferW (.letIn x init body) s).1 = .ok r) ↔
      ∃ r, (Γ.inferW (body.expand x init) s').1 = .ok r) ∧
      ∀ S t S' t', (Γ.inferW (.letIn x init body) s).1 = .ok (S, t) →
        (Γ.inferW (body.expand x init) s').1 = .ok (S', t') →
        t.canonical = t'.canonical := by
  have hmode : s.strict.supply.mode ≠ .shared := s.supply.mode.strict_ne_shared
  have hmode' : s'.strict.supply.mode ≠ .shared := s'.supply.mode.strict_ne_shared
  have hsame : ∀ Δ τ, Hygienic Δ →
      (Typing Δ (.letIn x init body) τ ↔ Typing Δ (body.expand x init) τ) :=
    fun Δ τ hΔ => typing_letIn_iff_expand hΔ hx
  have hstep := inferW_inStep_of_typing_iff hΓ hmode hmode' hsame
  rw [((drawsOnly_inferW Γ _).run_strict hrange).1, ((drawsOnly_inferW Γ _).run_strict hrange').1]
  exact ⟨hstep.exists_ok_iff hrange hrange', fun S t S' t' hok hok' => hstep.of_ok hok hok'⟩

/-- Uses `g` at two types, below a binder that would capture the `f` put in for it. -/
def capturing : Term := .abs "f" (.app (.var "g") (.app (.var "g") (.var "f")))

theorem inferW_letIn_iff_expand_capturing :
    capturing.expand "g" (.var "f") =
      .abs "f___" (.app (.var "f") (.app (.var "f") (.var "f___"))) ∧
      (∃ r, (sample.inferW (.letIn "g" (.var "f") capturing) { supply := {} }).1 = .ok r) ∧
      ∃ S S', (sample.inferW (.letIn "g" (.var "f") capturing) { supply := {} }).1 =
        .ok (S, .fn (.var 5) (.var 6)) ∧
        (sample.inferW (capturing.expand "g" (.var "f")) { supply := {} }).1 =
          .ok (S', .fn (.var 4) (.var 5)) ∧
        (Ty.fn (.var 5) (.var 6)).canonical = (Ty.fn (.var 4) (.var 5)).canonical := by
  have hrun : (sample.inferW (.letIn "g" (.var "f") capturing) { supply := {} }).1 =
      .ok (OrderedMap.ofList [(9, .var 5), (3, .var 6), (7, .var 6), (8, .var 6)],
          .fn (.var 5) (.var 6)) := by
        cbv
  have hrun' : (sample.inferW (capturing.expand "g" (.var "f")) { supply := {} }).1 =
      .ok (OrderedMap.ofList [(8, .var 4), (3, .var 5), (6, .var 5), (7, .var 5)],
          .fn (.var 4) (.var 5)) := by
        cbv
  have hrange :
      Infer.InRange (sample.inferW (.letIn "g" (.var "f") capturing)) { supply := {} } := by
    show (sample.inferW (.letIn "g" (.var "f") capturing) { supply := {} }).1 ≠ _
    simp [hrun]
  have hrange' :
      Infer.InRange (sample.inferW (capturing.expand "g" (.var "f"))) { supply := {} } := by
    show (sample.inferW (capturing.expand "g" (.var "f")) { supply := {} }).1 ≠ _
    simp [hrun']
  obtain ⟨hiff, htypes⟩ := inferW_letIn_iff_expand (by decide) (by decide) hrange hrange'
  exact ⟨by decide, hiff.mpr ⟨_, hrun'⟩, _, _, hrun, hrun', htypes _ _ _ _ hrun hrun'⟩

end Context

end HindleyMilner
