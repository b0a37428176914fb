import HindleyMilner.Proofs.Agreement.Lockstep
import HindleyMilner.Proofs.Counting

/-!
# One principal scheme

The two algorithms find the same scheme for a term, up to the names of the variables they have drawn
themselves. The reading in which their runs end gives the names: it leaves the variables of the
context alone, and since a drawn variable is only ever named by a drawn one, it does not mistake one
of them for another.

Every step keeps both runs at one pace, so they draw the same number of variables, although not
in the same order.
-/

namespace HindleyMilner

namespace Reading

variable {r : Reading} {n m n' m' : Nat} {S : Subst} {Γ : Context} {σ τ : Scheme}

private theorem name_of_free (hmoves : (initial Γ ∅).Moves n S r) (hΓ : Γ.Ready n) {v : Nat}
    (hv : v ∈ Γ.free) : r.name v = v :=
  hmoves.agree v (hΓ.free_lt v hv)

/-- The names of live variables are told apart from the free variables of the context
too, live or not. -/
theorem injOn_name (hr : r.Sound n' m') (hmoves : (initial Γ ∅).Moves n S r)
    (hpaced : r.Paced n m n' m') (hΓ : Γ.Ready n) (hΓ' : Γ.Ready m) :
    Set.InjOn r.name {v | v ∈ r.live ∨ v ∈ Γ.free} := by
  have hmixed : ∀ v ∈ r.live, ∀ w ∈ Γ.free, r.name v = r.name w → v = w := by
    intro v hv w hw heq
    rw [name_of_free hmoves hΓ hw] at heq
    by_cases hlt : v < n
    · exact (hmoves.agree v hlt).symm.trans heq
    · have := hpaced.named v hv (by omega)
      have := hΓ'.free_lt w hw
      omega
  rintro v (hv | hv) w (hw | hw) heq
  · exact hr.inj hv hw heq
  · exact hmixed v hv w hw heq
  · exact (hmixed w hw v hv heq.symm).symm
  · rwa [name_of_free hmoves hΓ hv, name_of_free hmoves hΓ hw] at heq

/-- Schemes that correspond when the runs end, the second of them resolved, differ by a renaming
that leaves the context alone. -/
theorem ReadsScheme.exists_rename (h : r.ReadsScheme σ τ)
    (hresolved : r.forest.resolve τ.body = τ.body) (hr : r.Sound n' m')
    (hmoves : (initial Γ ∅).Moves n S r) (hpaced : r.Paced n m n' m') (hΓ : Γ.Ready n)
    (hΓ' : Γ.Ready m) :
    ∃ ρ : Nat → Nat, Function.Injective ρ ∧ (∀ v ∈ Γ.free, ρ v = v) ∧ σ.rename ρ = τ := by
  have hinj : Set.InjOn r.name {v | v ∈ σ.body.vars ∪ σ.binders ∪ Γ.free} := by
    refine (injOn_name hr hmoves hpaced hΓ hΓ').mono fun v hv => ?_
    rcases VarSet.mem_union.mp hv with hscheme | hfree
    · exact .inl ((VarSet.mem_union.mp hscheme).elim (h.body.1 v) (h.bound v))
    · exact .inr hfree
  obtain ⟨ρ, hρ, hagree⟩ := VarSet.exists_injective hinj
  have hrename : σ.rename ρ = σ.rename r.name := by
    refine Scheme.rename_congr (fun v hv => hagree v ?_) fun b hb => hagree b ?_
    · exact VarSet.mem_union.mpr (.inl (VarSet.mem_union.mpr (.inl hv)))
    · exact VarSet.mem_union.mpr (.inl (VarSet.mem_union.mpr (.inr hb)))
  refine ⟨ρ, hρ, fun v hv => ?_, ?_⟩
  · exact (hagree v (VarSet.mem_union.mpr (.inr hv))).trans (name_of_free hmoves hΓ hv)
  · rw [hrename, Scheme.rename, ← h.binders_eq, ← h.body.2, hresolved]

end Reading

namespace Infer

variable {Γ : Context} {s s' : Session} {n m : Nat} {mode mode' : Supply.Mode}
  {forest forest' : Forest}

/-- What two runs from the sessions `s` and `s'` have in common when they have found the
schemes `σ` and `τ`. -/
structure SameScheme (Γ : Context) (s s' : Session) (σ : Scheme) (s₁ : Session) (τ : Scheme)
    (s₁' : Session) : Prop where
  renamed : ∃ ρ : Nat → Nat, Function.Injective ρ ∧ (∀ v ∈ Γ.free, ρ v = v) ∧ σ.rename ρ = τ
  drawn : ∃ u u' k, Γ.reserve s.supply = some ((), u) ∧ Γ.reserve s'.supply = some ((), u') ∧
    s₁.supply.next = u.next + k ∧ s₁'.supply.next = u'.next + k

theorem principalScheme_inStep (term : Term) (hΓ : Γ.Hygienic) (hmode : mode ≠ .shared)
    (hmode' : mode' ≠ .shared) (hs : s.Stands mode n forest) (hs' : s'.Stands mode' m forest') :
    InStep (SameScheme Γ s s') Reading.SameKind (principalScheme Γ term .w s)
      (principalScheme Γ term .j s') := by
  refine InStep.bind_right (meets_clearForest hs') fun _ s₁' hs₁' => ?_
  have hsupply : s₁'.supply = s'.supply := hs₁'.supply.trans hs'.supply.symm
  refine (Reading.inferW_inStep term hΓ hmode hmode' hs hs₁').bind ?_
  rintro ⟨S, t⟩ s₂ t' s₂' ⟨u, u', hu, hu', hready, hready',
    ⟨r, n₂, m₂, hs₂, hs₂', hr, hmoves, hpaced, hreads⟩, n₃, hn₃, hfootprint⟩
  obtain rfl := hs₂.next_eq hn₃
  have hctx :=
    (Reading.readsContext_initial_empty hΓ).moves
      (Reading.sound_initial_empty hready.bound hready'.bound) hmoves hr hready hfootprint.within
  have hscheme := hctx.generalize hr hreads
  have hresolved :
      r.forest.resolve (Γ.generalizeIn r.forest t').body = (Γ.generalizeIn r.forest t').body :=
    hr.wellFormed.resolve_resolve t'
  rw [hsupply] at hu'
  rw [bind_apply, get_apply]
  dsimp only
  rw [hs₂'.forest]
  have hle := hfootprint.le
  have hdrawn := hpaced.drawn
  have hnext : s₂.supply.next = n₂ := congrArg Supply.next hs₂.supply
  have hnext' : s₂'.supply.next = m₂ := congrArg Supply.next hs₂'.supply
  refine ⟨hscheme.exists_rename hresolved hr hmoves hpaced hready hready', u, u', n₂ - u.next, hu,
    hu', ?_, ?_⟩
  · omega
  · omega

/-- In a hygienic context the two algorithms succeed on the same terms. Their schemes differ
by a renaming that leaves the variables of the context alone, and they have drawn the same
number of variables. -/
theorem principalScheme_agree {Γ : Context} {term : Term} {s s' : Session} (hΓ : Γ.Hygienic)
    (hrange : InRange (principalScheme Γ term .w) s)
    (hrange' : InRange (principalScheme Γ term .j) s') :
    ((∃ σ, (principalScheme Γ term .w s).1 = .ok σ) ↔
      ∃ τ, (principalScheme Γ term .j s').1 = .ok τ) ∧
      ∀ σ τ, (principalScheme Γ term .w s).1 = .ok σ → (principalScheme Γ term .j s').1 = .ok τ →
        (∃ ρ : Nat → Nat, Function.Injective ρ ∧ (∀ v ∈ Γ.free, ρ v = v) ∧
          σ.body.rename ρ = τ.body ∧ σ.binders.map ρ = τ.binders ∧ σ.free.map ρ = τ.free) ∧
        ∃ u u' k, Γ.reserve s.supply = some ((), u) ∧ Γ.reserve s'.supply = some ((), u') ∧
          (principalScheme Γ term .w s).2.supply.next = u.next + k ∧
            (principalScheme Γ term .j s').2.supply.next = u'.next + k := by
  have hstep :=
    principalScheme_inStep term hΓ s.supply.mode.strict_ne_shared s'.supply.mode.strict_ne_shared
      s.stands_strict s'.stands_strict
  obtain ⟨hresult, hnext, -⟩ := (drawsOnly_principalScheme Γ term .w).run_strict hrange
  obtain ⟨hresult', hnext', -⟩ := (drawsOnly_principalScheme Γ term .j).run_strict hrange'
  rw [hresult, hresult', hnext, hnext']
  refine ⟨hstep.exists_ok_iff hrange hrange', fun σ τ hσ hτ => ?_⟩
  obtain ⟨⟨ρ, hρ, hfix, rfl⟩, u, u', k, hu, hu', hk, hk'⟩ := hstep.of_ok hσ hτ
  have hreserve := Draw.DrawsOnly.reserveContext Γ
  exact ⟨⟨ρ, hρ, hfix, rfl, rfl, (Scheme.free_rename hρ σ).symm⟩, _, _, k,
    hreserve.eq_some_of_strict hu, hreserve.eq_some_of_strict hu', hk, hk'⟩

/-- Hands what its second parameter makes of its first to `f`. -/
def relayTerm : Term := .abs "x" (.abs "h" (.app (.var "f") (.app (.var "h") (.var "x"))))

/-- A scheme of the shape that `relayTerm` has. -/
def relayScheme (x y z : Nat) : Scheme :=
  ⟨VarSet.ofList [x, y], .fn (.var x) (.fn (.fn (.var x) (.var y)) (.var z))⟩

theorem principalScheme_agree_relay :
    Context.sample.Hygienic ∧
      (principalScheme Context.sample relayTerm .w { supply := ⟨.shared, 0⟩ }).1 =
      .ok (relayScheme 4 8 6) ∧
      (principalScheme Context.sample relayTerm .j { supply := ⟨.owned, 20⟩ }).1 =
        .ok (relayScheme 20 23 24) ∧
      ∃ ρ : Nat → Nat, Function.Injective ρ ∧ (∀ v ∈ Context.sample.free, ρ v = v) ∧
        (relayScheme 4 8 6).body.rename ρ = (relayScheme 20 23 24).body ∧
        (relayScheme 4 8 6).binders.map ρ = (relayScheme 20 23 24).binders ∧
          (relayScheme 4 8 6).free.map ρ = (relayScheme 20 23 24).free := by
  have hΓ : Context.sample.Hygienic := by decide
  have hstrict :
      (principalScheme Context.sample relayTerm .w (Session.strict { supply := ⟨.shared, 0⟩ })).1 =
      .ok (relayScheme 4 8 6) := by
    cbv
  have hw : (principalScheme Context.sample relayTerm .w { supply := ⟨.shared, 0⟩ }).1 =
      .ok (relayScheme 4 8 6) := by
    cbv
  have hj : (principalScheme Context.sample relayTerm .j { supply := ⟨.owned, 20⟩ }).1 =
      .ok (relayScheme 20 23 24) := by
    decide +kernel
  have hrange :
      InRange (principalScheme Context.sample relayTerm .w) { supply := ⟨.shared, 0⟩ } := by
    rw [InRange, hstrict]
    simp
  have hrange' :
      InRange (principalScheme Context.sample relayTerm .j) { supply := ⟨.owned, 20⟩ } := by
    change (principalScheme Context.sample relayTerm .j { supply := ⟨.owned, 20⟩ }).1 ≠ _
    rw [hj]
    simp
  exact ⟨hΓ, hw, hj, ((principalScheme_agree hΓ hrange hrange').2 _ _ hw hj).1⟩

end Infer

end HindleyMilner
