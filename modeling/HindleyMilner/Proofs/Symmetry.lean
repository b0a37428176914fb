import HindleyMilner.Proofs.Canonical
import HindleyMilner.Proofs.Unification

/-!
# Either side first

Two types unified the other way round bind their variables to each other the other way round, and so
every equation that comes later is met under other names. The two unifiers are both most general,
and what leads from one to the other and back can only be a renaming.

For an error this says nothing, because types may fail to unify for several reasons and the
first one met is reported. That it is of the same kind follows along the rules: when the domains
of two functions have a unifier, their codomains are met as before, up to a renaming, and a
renaming changes no kind.
-/

namespace HindleyMilner

/-- Substitutions that absorb each other differ by a renaming of the variables that are left. -/
theorem Subst.exists_rename_of_absorbed {s s' : Subst} (hs : s.Solved)
    (habsorbed : s.Absorbed s'.image) (habsorbed' : s'.Absorbed s.image) :
    ∃ ρ : Nat → Nat, Set.InjOn ρ {w | w ∉ s} ∧ ∀ t : Ty, t.subst s' = (t.subst s).rename ρ := by
  have hundo : ∀ w ∈ {w | w ∉ s}, (s'.image w).bind s.image = .var w := by
    intro w hw
    rw [habsorbed' w, image_of_not_mem hw]
  obtain ⟨ρ, hinj, hρ⟩ := Ty.exists_rename_of_undone hundo
  refine ⟨ρ, hinj, fun t => ?_⟩
  calc t.subst s' = (t.subst s).bind s'.image := (habsorbed.bind_subst t).symm
    _ = (t.subst s).rename ρ := Ty.bind_congr fun w hw => hρ w (hs.not_mem_of_mem_subst hw)

namespace Ty

variable {a b : Ty} {s : Subst} {e : TypeError} {ρ : Nat → Nat} {V : Set Nat}

theorem Clash.symm (h : Clash a b) : Clash b a := by
  obtain ⟨left, right, hleft, hright, hne⟩ := h
  exact ⟨right, left, hright, hleft, hne.symm⟩

namespace Unifies

theorem exists_swapped (h : Unifies a b (.ok s)) :
    ∃ s', Unifies b a (.ok s') ∧ ∃ ρ : Nat → Nat, Set.InjOn ρ {w | w ∉ s} ∧
      ∀ t : Ty, t.subst s' = (t.subst s).rename ρ := by
  obtain ⟨s', hs', habsorbed'⟩ := (unifies_mgu b a).exists_absorbed (h.subst_eq rfl).symm
  have h' : Unifies b a (.ok s') := unifies_iff.mpr hs'.symm
  obtain ⟨s₀, hs₀, habsorbed⟩ := h.exists_absorbed (h'.subst_eq rfl).symm
  cases hs₀
  exact ⟨s', h', Subst.exists_rename_of_absorbed (h.within rfl).solved habsorbed habsorbed'⟩

private theorem exists_renamed_error (h : Unifies a b (.error e)) (hinj : Set.InjOn ρ V)
    (hV : ∀ v ∈ a.pairVars b, v ∈ V) :
    ∃ e', Unifies (a.rename ρ) (b.rename ρ) (.error e') ∧ e'.kind = e.kind := by
  have hrenamed := h.renamedOutcome hinj hV
  cases hmgu : (a.rename ρ).mgu (b.rename ρ) with
  | ok s' =>
    rw [hmgu] at hrenamed
    exact hrenamed.elim
  | error e' =>
    rw [hmgu] at hrenamed
    exact ⟨e', unifies_iff.mpr hmgu.symm, hrenamed⟩

theorem exists_swapped_error {r : Except TypeError Subst} (h : Unifies a b r)
    (herror : r = .error e) :
    ∃ e', Unifies b a (.error e') ∧ e'.kind = e.kind := by
  induction h with
  | int | bool | same | left | right | fn => cases herror
  | infiniteLeft hoccurs =>
    cases herror
    exact ⟨_, .infiniteRight hoccurs, rfl⟩
  | infiniteRight hoccurs =>
    cases herror
    exact ⟨_, .infiniteLeft hoccurs, rfl⟩
  | clash hclash =>
    cases herror
    exact ⟨_, .clash hclash.symm, rfl⟩
  | domains hdom ihdom =>
    obtain ⟨e', he', hkind⟩ := ihdom herror
    exact ⟨e', .domains he', hkind⟩
  | @codomains a₁ a₂ b₁ b₂ s e hdom hcod ihdom ihcod =>
    obtain ⟨s', hs', ρ, hinj, hrename⟩ := hdom.exists_swapped
    obtain ⟨e', he', hkind⟩ := ihcod herror
    -- The codomains keep no variable that the first unifier has moved, so the renaming tells all of
    -- theirs apart.
    have hleft : ∀ w ∈ (b₂.subst s).pairVars (a₂.subst s), w ∈ {w | w ∉ s} := by
      intro w hw
      cases VarSet.mem_union.mp hw with
      | inl hw => exact (hdom.within rfl).solved.not_mem_of_mem_subst hw
      | inr hw => exact (hdom.within rfl).solved.not_mem_of_mem_subst hw
    obtain ⟨e'', he'', hkind'⟩ := he'.exists_renamed_error hinj hleft
    rw [← hrename, ← hrename] at he''
    exact ⟨e'', .codomains hs' he'', hkind'.trans hkind⟩

end Unifies

/-- Which of two types comes first makes no difference but for names: there is a unifier either way
or an error of the same kind either way, and the unified types are renamings of each other, with one
canonical form. -/
theorem mgu_swap (a b : Ty) :
    (∀ s, a.mgu b = .ok s →
        ∃ s', b.mgu a = .ok s' ∧
          (∃ ρ : Nat → Nat, Set.InjOn ρ {v | v ∈ (a.subst s).vars} ∧
            a.subst s' = (a.subst s).rename ρ) ∧
          (a.subst s').canonical = (a.subst s).canonical) ∧
      ∀ e, a.mgu b = .error e → ∃ e', b.mgu a = .error e' ∧ e'.kind = e.kind := by
  constructor
  · intro s hs
    have h : Unifies a b (.ok s) := unifies_iff.mpr hs.symm
    obtain ⟨s', hs', ρ, hinj, hrename⟩ := h.exists_swapped
    have hleft : Set.InjOn ρ {v | v ∈ (a.subst s).vars} :=
      hinj.mono fun v hv => (h.within rfl).solved.not_mem_of_mem_subst hv
    refine ⟨s', hs'.eq_mgu.symm, ⟨ρ, hleft, hrename a⟩, ?_⟩
    rw [hrename a, canonical_rename hleft]
  · intro e he
    obtain ⟨e', he', hkind⟩ := (unifies_mgu a b).exists_swapped_error he
    exact ⟨e', he'.eq_mgu.symm, hkind⟩

/-- Two functions that unify, and two that fail for more than one reason: either way round, the
first one met is that a variable would contain itself. -/
theorem mgu_swap_crossed :
    ((fn (var 0) (var 2)).mgu (fn (var 1) (var 0)) =
      .ok (Subst.comp (.singleton 2 (var 1)) (.singleton 0 (var 1))) ∧
        ∃ s', (fn (var 1) (var 0)).mgu (fn (var 0) (var 2)) = .ok s' ∧
          ((fn (var 0) (var 2)).subst s').canonical = fn (var 0) (var 0)) ∧
      (fn (var 0) (fn (var 0) int)).mgu (fn (var 1) (fn (fn (var 1) bool) bool)) =
        .error (.infinite 1 (fn (var 1) bool)) ∧
      ∃ e', (fn (var 1) (fn (fn (var 1) bool) bool)).mgu (fn (var 0) (fn (var 0) int)) = .error e' ∧
        e'.kind = .occursCheck := by
  have hbound : Unifies (var 0) (var 1) (.ok (.singleton 0 (var 1))) := .left (by decide)
  have hlast : Unifies (var 2) (var 1) (.ok (.singleton 2 (var 1))) := .left (by decide)
  have hunifies :
      Unifies (fn (var 0) (var 2)) (fn (var 1) (var 0))
      (.ok (Subst.comp (.singleton 2 (var 1)) (.singleton 0 (var 1)))) :=
    .fn hbound hlast
  have hinfinite :
      Unifies (fn (var 1) int) (fn (fn (var 1) bool) bool)
      (.error (.infinite 1 (fn (var 1) bool))) :=
    .domains (.infiniteLeft (by decide))
  have hfails : Unifies (fn (var 0) (fn (var 0) int)) (fn (var 1) (fn (fn (var 1) bool) bool))
      (.error (.infinite 1 (fn (var 1) bool))) :=
    .codomains hbound hinfinite
  obtain ⟨s', hs', -, hcanonical⟩ := (mgu_swap _ _).1 _ hunifies.eq_mgu.symm
  exact ⟨⟨hunifies.eq_mgu.symm, s', hs', hcanonical⟩, hfails.eq_mgu.symm,
    (mgu_swap _ _).2 _ hfails.eq_mgu.symm⟩

end Ty

end HindleyMilner
