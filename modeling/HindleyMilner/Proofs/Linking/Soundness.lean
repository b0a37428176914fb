import HindleyMilner.Proofs.Agreement.Lockstep
import HindleyMilner.Proofs.Counting

/-!
# Soundness of inference with links

Whatever algorithm J answers, read through the forest it leaves, is derivable in the context read
through that forest. The forest it starts with may hold anything that earlier requests have left
there, as long as it mentions no binder of the context and nothing that is still to be drawn.

What an intermediate result stands for changes with every later link, so the run is not followed by
itself. It is compared with a run of algorithm W that sets out from the context as the first forest
reads it and cannot run out of variables. That run has a derivation, and the reading in which both
end carries the derivation over: a scheme of the context, read through the last forest, is the
scheme of the other run under new names.
-/

namespace HindleyMilner

open Infer (Meets)

theorem Scheme.carries_rename {σ : Scheme} {ρ : Nat → Nat}
    (hinj : Set.InjOn ρ {v | v ∈ σ.body.vars ∨ v ∈ σ.binders}) :
    σ.Carries (fun v => .var (ρ v)) (σ.rename ρ) := by
  intro g hagree
  -- What is put in for a renamed binder is found by going back to its old name.
  have hback : ∀ b ∈ σ.binders, Function.invFunOn ρ {b | b ∈ σ.binders} (ρ b) = b :=
    (hinj.mono fun b hb => .inr hb).leftInvOn_invFunOn
  have heq : σ.body.bind g =
      (σ.rename ρ).body.bind fun w => if w ∈ σ.binders.map ρ then g
          (Function.invFunOn ρ {b | b ∈ σ.binders} w) else .var w := by
    change σ.body.bind g = (σ.body.rename ρ).bind _
    rw [Ty.rename_bind]
    refine Ty.bind_congr fun v hv => ?_
    by_cases hbinder : v ∈ σ.binders
    · rw [if_pos (VarSet.mem_map.mpr ⟨v, hbinder, rfl⟩), hback v hbinder]
    · have hnot : ρ v ∉ σ.binders.map ρ := by
        intro hmem
        obtain ⟨b, hb, hsame⟩ := VarSet.mem_map.mp hmem
        exact hbinder (hinj (.inr hb) (.inl hv) hsame ▸ hb)
      rw [if_neg hnot, hagree v (mem_free.mpr ⟨hv, hbinder⟩)]
  rw [heq]
  exact instance_bind fun w hw => if_neg (mem_free.mp hw).2

namespace Reading

variable {r : Reading} {n m : Nat} {Γ Γ' : Context} {σ τ : Scheme}

/-- A scheme of the linking run, read through the forest, is the scheme of the other run
under new names. -/
theorem ReadsScheme.subst_solution (h : r.ReadsScheme σ τ) (hr : r.Sound n m) :
    τ.subst r.forest.solution = σ.rename r.name := by
  have hroot : ∀ b ∈ τ.binders, r.forest.resolve (.var b) = .var b := by
    intro b hb
    obtain ⟨v, hv, rfl⟩ := (h.binders b).mp hb
    exact hr.root v (h.bound v hv)
  calc
    _ = Scheme.mk τ.binders (τ.subst r.forest.solution).body := rfl
    _ = Scheme.mk (σ.binders.map r.name) (σ.body.rename r.name) := by
      rw [hr.wellFormed.body_subst_solution hroot, h.body.2, h.binders_eq]
    _ = σ.rename r.name := rfl

theorem ReadsContext.carries (h : r.ReadsContext Γ Γ') (hr : r.Sound n m) :
    Γ.Carries (fun v => .var (r.name v)) (Γ'.subst r.forest.solution) := by
  intro x σ hσ
  obtain ⟨τ, hτ, hreads⟩ := Context.Related.exists_right h hσ
  refine ⟨τ.subst r.forest.solution, ?_, ?_⟩
  · rw [Context.get?_subst, hτ, Option.map_some]
  · rw [hreads.subst_solution hr]
    exact Scheme.carries_rename (hr.inj.mono fun v hv => hv.elim (hreads.body.1 v) (hreads.bound v))

end Reading

namespace Context

variable {Γ : Context} {n : Nat} {f : Forest}

private theorem Apart.ready_subst (h : Γ.Apart f) (hf : f.WellFormed) (hΓ : Γ.Hygienic)
    (hn : ∀ v, v ∈ Γ.bodyVars ∨ v ∈ f.vars → v < n) :
    (Γ.subst f.solution).Ready n :=
  ⟨h.hygienic_subst hf hΓ, fun v hv => hn v (h.mem_bodyVars_subst hf hv)⟩

theorem inferJ_typing (term : Term) {s : Session} {mode : Supply.Mode} (hmode : mode ≠ .shared)
    (hs : s.Stands mode n f) (hf : f.WellFormed) (hΓ : Γ.Hygienic) (hapart : Γ.Apart f)
    (hbelow : ∀ v ∈ f.vars, v < n) :
    Meets (fun t s' => s'.forest.WellFormed ∧
      Typing (Γ.subst s'.forest.solution) term (s'.forest.resolve t)) (fun _ _ => True)
      (Γ.inferJ term s) := by
  refine (Infer.meets_reserve Γ hs).bind ?_
  rintro _ s₁ ⟨n₁, hs₁, hle, hbound⟩
  have hn : ∀ v, v ∈ Γ.bodyVars ∨ v ∈ f.vars → v < n₁ :=
    fun v hv => hv.elim (hbound v) fun hin => Nat.lt_of_lt_of_le (hbelow v hin) hle
  have hready := hapart.ready_subst hf hΓ hn
  have hsound := Reading.sound_initial hf hn hn
  have hctx := Reading.readsContext_initial hf hΓ hapart
  -- The run to compare with draws the same indices, but from a supply without end.
  have hs₀ : Session.Stands { supply := ⟨.unbounded, n₁⟩ } .unbounded n₁ ∅ := ⟨rfl, rfl⟩
  have hmode₀ : Supply.Mode.unbounded ≠ .shared := by decide
  have hsupply :=
    ((Γ.subst f.solution).drawsOnly_typeBySubst term).ne_exhausted_of_unbounded
      (s := { supply := ⟨.unbounded, n₁⟩ }) rfl
  have hknown :=
    (typeBySubst_typing term hmode₀ hs₀ hready).and
      (typeBySubst_footprint term hmode₀ hs₀ hready.free_lt)
  have hstep := Reading.typeBySubst_inStep term hmode₀ hmode hs₀ hs₁ hready hsound hctx
  refine ((hstep.and_left hknown).meets_right hsupply.1).imp ?_ fun _ _ _ => trivial
  rintro t s₂ ⟨⟨S, t₀⟩, ⟨r, n₂, m₂, -, hs₂, hr, hmoves, -, hreads⟩, htyping, n₃, -, hfootprint⟩
  have hctx₂ := hctx.moves hsound hmoves hr hready hfootprint.within
  rw [hs₂.forest, hreads.2]
  exact ⟨hr.wellFormed, htyping.carry (hctx₂.carries hr)⟩

/-- Whatever algorithm J answers in a hygienic context, starting from any forest that mentions no
binder of the context and only variables below the supply, is derivable when answer and context are
read through the forest it leaves. -/
theorem typing_of_inferJ {Γ : Context} {term : Term} {s s' : Session} {t : Ty} (hΓ : Γ.Hygienic)
    (hforest : s.forest.Reachable) (hapart : Γ.Apart s.forest)
    (hbelow : ∀ v ∈ s.forest.vars, v < s.supply.next) (hrange : Infer.InRange (Γ.inferJ term) s)
    (hrun : Γ.inferJ term s = (.ok t, s')) :
    (∀ v, s'.forest.solution.image v = s'.forest.resolve (.var v)) ∧
      Typing (Γ.subst s'.forest.solution) term (s'.forest.resolve t) := by
  obtain ⟨hresult, -, hlast⟩ := (Γ.drawsOnly_inferJ term).run_strict hrange
  have hmeets :=
    inferJ_typing term s.supply.mode.strict_ne_shared s.stands_strict hforest.wellFormed hΓ hapart
      hbelow
  rw [hrun] at hresult hlast
  obtain ⟨hwellFormed, htyping⟩ := hmeets.of_ok hresult.symm
  rw [← hlast] at hwellFormed htyping
  exact ⟨hwellFormed.image_solution, htyping⟩

/-- Two requests have left their traces: the first has solved the free variable of `sample`, the
second has failed halfway. -/
def usedSession : Session where
  supply := ⟨.shared, 7⟩
  forest :=
    (((∅ : Forest).unify (.var 3) (.fn (.var 5) (.var 6))).forest.unify (.fn (.var 4) .int)
      (.fn .bool .bool)).forest

/-- Applies `y`, passed through a generalized identity, and hands the result to `f`. -/
def usedTerm : Term :=
  .letIn "g" (.abs "x" (.var "x")) (.app (.var "f") (.app (.app (.var "g") (.var "y")) (.int 1)))

theorem typing_of_inferJ_used :
    sample.Hygienic ∧ usedSession.forest.Reachable ∧ sample.Apart usedSession.forest ∧
      (∀ v ∈ usedSession.forest.vars, v < usedSession.supply.next) ∧
      ∃ s', sample.inferJ usedTerm usedSession = (.ok (.fn (.var 5) (.var 6)), s') ∧
        s'.forest.resolve (.fn (.var 5) (.var 6)) = .fn .int (.var 11) ∧
        Typing (sample.subst s'.forest.solution) usedTerm (.fn .int (.var 11)) := by
  have hΓ : sample.Hygienic := by decide
  have hforest : usedSession.forest.Reachable := .unify (.unify .empty _ _) _ _
  have hapart : sample.Apart usedSession.forest := by decide
  have hbelow : ∀ v ∈ usedSession.forest.vars.toList, v < usedSession.supply.next := by decide
  have hstrict : (sample.inferJ usedTerm usedSession.strict).1 = .ok (.fn (.var 5) (.var 6)) := by
    decide +kernel
  have hrange : Infer.InRange (sample.inferJ usedTerm) usedSession := by
    rw [Infer.InRange, hstrict]
    simp
  have hresult : (sample.inferJ usedTerm usedSession).1 = .ok (.fn (.var 5) (.var 6)) := by
    decide +kernel
  have hresolve : (sample.inferJ usedTerm usedSession).2.forest.resolve (.fn (.var 5) (.var 6)) =
      .fn .int (.var 11) := by
    decide +kernel
  cases hrun : sample.inferJ usedTerm usedSession with
  | mk result s' =>
    rw [hrun] at hresult hresolve
    cases hresult
    have htyping := (typing_of_inferJ hΓ hforest hapart hbelow hrange hrun).2
    rw [hresolve] at htyping
    exact ⟨hΓ, hforest, hapart, hbelow, s', rfl, hresolve, htyping⟩

end Context

end HindleyMilner
