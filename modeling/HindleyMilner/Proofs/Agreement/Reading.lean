import HindleyMilner.Inference.Linking
import HindleyMilner.Proofs.Forest.Refinement
import HindleyMilner.Proofs.Hygiene
import HindleyMilner.Proofs.Drawing

/-!
# Reading one run in another

The two algorithms draw variables in different orders and keep what they know in different forms. A
reading says how they correspond at one point: it names each live variable of the substituting run
in the linking run, and through the forest of the linking run a type of the one is the renamed type
of the other (`Reading.Reads`).

A step of both runs leads from one reading to another (`Reading.Moves`): what the substituting run
puts in for an old variable is read in the next reading from the old name of that variable. Hence a
step carries over everything that was read before it, and steps compose. Variables that have been
substituted are no longer live. Both runs draw at one pace, each at its own index, and a drawn
variable is named by a drawn one (`Reading.Paced`).
-/

namespace HindleyMilner

structure Reading where
  /-- What a variable of the substituting run is called in the linking run. -/
  name : Nat → Nat
  live : Set Nat
  forest : Forest

namespace Reading

variable {r r' r₁ r₂ : Reading} {n m n' m' : Nat} {S : Subst} {t t' : Ty}

/-- `t` is made of live variables, and `t'` stands for it under their names. -/
def Reads (r : Reading) (t t' : Ty) : Prop :=
  (∀ v ∈ t.vars, v ∈ r.live) ∧ r.forest.resolve t' = t.rename r.name

/-- The live variables and their names are told apart and come before `n` and `m`, and their names
are unlinked, as are all from `m` on. -/
structure Sound (r : Reading) (n m : Nat) : Prop where
  wellFormed : r.forest.WellFormed
  inj : Set.InjOn r.name r.live
  lt_left : ∀ v ∈ r.live, v < n
  lt_right : ∀ v ∈ r.live, r.name v < m
  root : ∀ v ∈ r.live, r.forest.resolve (.var (r.name v)) = .var (r.name v)
  new : ∀ w, m ≤ w → r.forest.resolve (.var w) = .var w

/-- The step to `r'` in which the substituting run has found `S`; only names from
`n` on are given. -/
structure Moves (r : Reading) (n : Nat) (S : Subst) (r' : Reading) : Prop where
  agree : ∀ v < n, r'.name v = r.name v
  old : ∀ v ∈ r'.live, v ∈ r.live ∨ n ≤ v
  resolved : ∀ t, r'.forest.resolve (r.forest.resolve t) = r'.forest.resolve t
  image : ∀ v ∈ r.live, r'.Reads (S.image v) (.var (r.name v))

theorem Sound.mono (h : r.Sound n m) (hle : n ≤ n') : r.Sound n' m :=
  ⟨h.wellFormed, h.inj, fun v hv => Nat.lt_of_lt_of_le (h.lt_left v hv) hle, h.lt_right, h.root,
    h.new⟩

theorem Sound.not_live (h : r.Sound n m) : n ∉ r.live :=
  fun hlive => Nat.lt_irrefl n (h.lt_left n hlive)

theorem Sound.reads_var (h : r.Sound n m) {v : Nat} (hv : v ∈ r.live) :
    r.Reads (.var v) (.var (r.name v)) := by
  refine ⟨fun w hw => ?_, h.root v hv⟩
  rw [Ty.vars_var, VarSet.mem_singleton] at hw
  exact hw ▸ hv

theorem Reads.fn (h : r.Sound n m) {a a' b b' : Ty} (ha : r.Reads a a') (hb : r.Reads b b') :
    r.Reads (.fn a b) (.fn a' b') := by
  refine ⟨fun v hv => (VarSet.mem_union.mp hv).elim (ha.1 v) (hb.1 v), ?_⟩
  rw [h.wellFormed.resolve_fn, ha.2, hb.2, Ty.rename_fn]

/-- What is read before a step is read after it, with what the step found put in. -/
theorem Moves.reads (h : r.Moves n S r') (h' : r'.Sound n' m') (ht : r.Reads t t') :
    r'.Reads (t.subst S) t' := by
  constructor
  · intro w hw
    obtain ⟨v, hv, hwv⟩ := Ty.mem_vars_subst.mp hw
    exact (h.image v (ht.1 v hv)).1 w hwv
  · rw [← h.resolved t', ht.2, h'.wellFormed.resolve_eq_bind_resolve, Ty.rename_bind, Ty.subst,
      Ty.bind_rename]
    exact Ty.bind_congr fun v hv => (h.image v (ht.1 v hv)).2

theorem Moves.refl (hr : r.Sound n m) : r.Moves n ∅ r :=
  ⟨fun _ _ => rfl, fun _ hv => .inl hv, hr.wellFormed.resolve_resolve, fun _ hv => hr.reads_var hv⟩

theorem Moves.mono (h : r.Moves n' S r') (hle : n ≤ n') : r.Moves n S r' :=
  ⟨fun v hv => h.agree v (by omega), fun v hv => (h.old v hv).imp_right (Nat.le_trans hle),
    h.resolved, h.image⟩

theorem Moves.trans {S₁ S₂ : Subst} {n₁ : Nat} (h₁ : r.Moves n S₁ r₁) (h₂ : r₁.Moves n₁ S₂ r₂)
    (hr₂ : r₂.Sound n' m') (hle : n ≤ n₁) :
    r.Moves n (S₂.comp S₁) r₂ := by
  refine ⟨fun v hv => ?_, fun v hv => ?_, fun t => ?_, fun v hv => ?_⟩
  · rw [h₂.agree v (by omega), h₁.agree v hv]
  · rcases h₂.old v hv with hin | hge
    · exact h₁.old v hin
    · exact .inr (by omega)
  · rw [← h₂.resolved (r.forest.resolve t), h₁.resolved, h₂.resolved]
  · rw [Subst.image_comp]
    exact h₂.reads hr₂ (h₁.image v hv)

/-! ### More live variables -/

/-- The forest is the same and nothing is renamed, but more variables may be live. -/
structure Extends (r r' : Reading) : Prop where
  forest : r'.forest = r.forest
  live : r.live ⊆ r'.live
  name : ∀ v ∈ r.live, r'.name v = r.name v

theorem Reads.extend (h : r.Extends r') (ht : r.Reads t t') : r'.Reads t t' := by
  refine ⟨fun v hv => h.live (ht.1 v hv), ?_⟩
  rw [h.forest, ht.2]
  exact Ty.rename_congr fun v hv => (h.name v (ht.1 v hv)).symm

/-- One more variable is live. -/
def extend (r : Reading) (n m : Nat) : Reading :=
  { r with name := Function.update r.name n m, live := insert n r.live }

theorem name_extend_self (r : Reading) (n m : Nat) : (r.extend n m).name n = m := by
  change Function.update r.name n m n = m
  exact Function.update_self n m r.name

private theorem name_extend_of_ne {v : Nat} (hne : v ≠ n) (r : Reading) (m : Nat) :
    (r.extend n m).name v = r.name v := by
  change Function.update r.name n m v = r.name v
  exact Function.update_of_ne hne m r.name

theorem extends_extend (hnew : n ∉ r.live) (m : Nat) : r.Extends (r.extend n m) := by
  refine ⟨rfl, Set.subset_insert n r.live, fun v hv => name_extend_of_ne ?_ r m⟩
  rintro rfl
  exact hnew hv

theorem Sound.extend {k : Nat} (h : r.Sound n m) (hnew : k ∉ r.live) (hlt : k < n') (hle : n ≤ n') :
    (r.extend k m).Sound n' (m + 1) := by
  have hname : ∀ v ∈ r.live, (r.extend k m).name v = r.name v := (extends_extend hnew m).name
  have hself := name_extend_self r k m
  refine ⟨h.wellFormed, ?_, ?_, ?_, ?_, fun w hw => h.new w (by omega)⟩
  · rintro v (rfl | hv) w (rfl | hw) heq
    · rfl
    · rw [hself, hname w hw] at heq
      have := h.lt_right w hw
      omega
    · rw [hself, hname v hv] at heq
      have := h.lt_right v hv
      omega
    · rw [hname v hv, hname w hw] at heq
      exact h.inj hv hw heq
  · rintro v (rfl | hv)
    · exact hlt
    · exact Nat.lt_of_lt_of_le (h.lt_left v hv) hle
  · rintro v (rfl | hv)
    · rw [hself]
      omega
    · rw [hname v hv]
      exact Nat.lt_succ_of_lt (h.lt_right v hv)
  · rintro v (rfl | hv)
    · rw [hself]
      exact h.new m (Nat.le_refl m)
    · rw [hname v hv]
      exact h.root v hv

theorem Moves.of_extend {k : Nat} (hnew : n ∉ r.live) (h : (r.extend n m).Moves k S r')
    (hle : n ≤ k) : r.Moves n S r' := by
  have hname := (extends_extend hnew m).name
  refine ⟨fun v hv => ?_, fun v hv => ?_, h.resolved, fun v hv => ?_⟩
  · rw [h.agree v (by omega)]
    exact name_extend_of_ne (Nat.ne_of_lt hv) r m
  · rcases h.old v hv with (rfl | hin) | hge
    · exact .inr (Nat.le_refl v)
    · exact .inl hin
    · exact .inr (by omega)
  · have himage := h.image v (Set.mem_insert_of_mem n hv)
    rwa [hname v hv] at himage

/-! ### Drawing at one pace -/

/-- On the way from `n` and `m` to `n'` and `m'` both runs have drawn the same number of variables,
and what the one has drawn is named by what the other has. -/
structure Paced (r : Reading) (n m n' m' : Nat) : Prop where
  drawn : n' + m = n + m'
  named : ∀ v ∈ r.live, n ≤ v → m ≤ r.name v

theorem Paced.refl (hr : r.Sound n m) : r.Paced n m n m := by
  refine ⟨rfl, fun v hv hle => ?_⟩
  have := hr.lt_left v hv
  omega

theorem Paced.trans {n₁ m₁ : Nat} (h₁ : r₁.Paced n m n₁ m₁) (h₂ : r₂.Paced n₁ m₁ n' m')
    (hmoves : r₁.Moves n₁ S r₂) (hle : n ≤ n₁) :
    r₂.Paced n m n' m' := by
  have hdrawn := h₁.drawn
  have hdrawn' := h₂.drawn
  refine ⟨by omega, fun v hv hge => ?_⟩
  rcases hmoves.old v hv with hin | hnew
  · by_cases hlt : v < n₁
    · rw [hmoves.agree v hlt]
      exact h₁.named v hin hge
    · have := h₂.named v hv (by omega)
      omega
  · have := h₂.named v hv hnew
    omega

/-- Both runs draw first. -/
theorem Paced.of_extend (h : r'.Paced (n + 1) (m + 1) n' m')
    (hmoves : (r.extend n m).Moves (n + 1) S r') : r'.Paced n m n' m' := by
  have hdrawn := h.drawn
  refine ⟨by omega, fun v hv hge => ?_⟩
  by_cases heq : v = n
  · rw [heq, hmoves.agree n (Nat.lt_succ_self n), name_extend_self]
  · have := h.named v hv (by omega)
    omega

/-- The substituting run draws first, the linking run last. -/
theorem Paced.extend (h : r.Paced (n + 1) m n' m') (hnew : n ∉ r.live) (hlt : n < n') :
    (r.extend n m').Paced n m n' (m' + 1) := by
  have hdrawn := h.drawn
  refine ⟨by omega, ?_⟩
  rintro v (rfl | hv) hge
  · rw [name_extend_self]
    omega
  · have hne : v ≠ n := fun heq => hnew (heq ▸ hv)
    rw [name_extend_of_ne hne]
    exact h.named v hv (by omega)

/-! ### Operations of the linking run -/

/-- The reading after `t` has been made a node. -/
def register (r : Reading) (t : Ty) : Reading := { r with forest := r.forest.register t }

theorem Sound.register (h : r.Sound n m) (t : Ty) : (r.register t).Sound n m := by
  refine ⟨h.wellFormed.register t, h.inj, h.lt_left, h.lt_right, fun v hv => ?_, fun w hw => ?_⟩
  · exact (h.wellFormed.resolve_register t _).trans (h.root v hv)
  · exact (h.wellFormed.resolve_register t _).trans (h.new w hw)

theorem Paced.register (h : r.Paced n m n' m') (t : Ty) : (r.register t).Paced n m n' m' :=
  ⟨h.drawn, h.named⟩

theorem Reads.register (h : r.Sound n m) (u : Ty) (ht : r.Reads t t') : (r.register u).Reads t t' :=
  ⟨ht.1, (h.wellFormed.resolve_register u t').trans ht.2⟩

theorem Moves.register (h : r.Moves n S r') (h' : r'.Sound n' m') (t : Ty) :
    r.Moves n S (r'.register t) := by
  refine ⟨h.agree, h.old, fun u => ?_, fun v hv => (h.image v hv).register h' t⟩
  exact ((h'.wellFormed.resolve_register t _).trans (h.resolved u)).trans
    (h'.wellFormed.resolve_register t u).symm

theorem Reads.find (h : r.Sound n m) (ht : r.Reads t t') :
    (r.register t').Reads t (r.forest.find t').1 := by
  refine ⟨ht.1, ?_⟩
  exact ((h.wellFormed.register t').resolve_rep t').trans (ht.register h t').2

/-! ### Unification -/

/-- The reading once the substituting run has put in `u` and the links are those of `forest`. -/
def solve (r : Reading) (u : Subst) (forest : Forest) : Reading :=
  ⟨r.name, {v | v ∈ r.live ∧ v ∉ u}, forest⟩

section Solving

variable {u u' : Subst} {forest : Forest} {V : Set Nat}

private theorem Sound.resolve_name (h : r.Sound n m)
    (hresolve : ∀ t, forest.resolve t = (r.forest.resolve t).subst u')
    (hrenamed : ∀ v ∈ r.live, u'.image (r.name v) = (u.image v).rename r.name) {v : Nat}
    (hv : v ∈ r.live) :
    forest.resolve (.var (r.name v)) = (u.image v).rename r.name := by
  rw [hresolve, h.root v hv]
  exact hrenamed v hv

theorem Sound.solve (h : r.Sound n m) (hforest : forest.WellFormed)
    (hresolve : ∀ t, forest.resolve t = (r.forest.resolve t).subst u')
    (hrenamed : ∀ v ∈ r.live, u'.image (r.name v) = (u.image v).rename r.name)
    (hlt : ∀ w ∈ u', w < m) : (r.solve u forest).Sound n m := by
  refine ⟨hforest, h.inj.mono fun v hv => hv.1, fun v hv => h.lt_left v hv.1,
    fun v hv => h.lt_right v hv.1, fun v hv => ?_, fun w hw => ?_⟩
  · exact (h.resolve_name hresolve hrenamed hv.1).trans
      (congrArg (Ty.rename r.name) (Subst.image_of_not_mem hv.2))
  · refine (hresolve _).trans ?_
    rw [h.new w hw]
    exact Subst.image_of_not_mem fun hmem => Nat.not_lt.mpr hw (hlt w hmem)

private theorem Sound.moves_solve (h : r.Sound n m)
    (hresolve : ∀ t, forest.resolve t = (r.forest.resolve t).subst u')
    (hrenamed : ∀ v ∈ r.live, u'.image (r.name v) = (u.image v).rename r.name)
    (hwithin : u.Within V) (hV : V ⊆ r.live) (k : Nat) :
    r.Moves k u (r.solve u forest) := by
  refine ⟨fun _ _ => rfl, fun v hv => .inl hv.1, fun t => ?_,
    fun v hv => ⟨fun w hw => ⟨?_, ?_⟩, h.resolve_name hresolve hrenamed hv⟩⟩
  · change forest.resolve _ = forest.resolve _
    rw [hresolve, hresolve, h.wellFormed.resolve_resolve]
  · rcases hwithin.mem_vars_image hw with rfl | hin
    · exact hv
    · exact hV hin
  · exact hwithin.solved.not_mem_of_mem_subst (t := .var v) hw

end Solving

private theorem Reads.name_lt (ht : r.Reads t t') (h : r.Sound n m) {w : Nat}
    (hw : w ∈ (t.rename r.name).vars) : w < m := by
  obtain ⟨v, hv, rfl⟩ := Ty.mem_vars_rename.mp hw
  exact h.lt_right v (ht.1 v hv)

/-- Unifying corresponding types ends alike on both sides, and when it succeeds the
substitution is a step. -/
theorem Sound.unify (h : r.Sound n m) {a a' b b' : Ty} (ha : r.Reads a a') (hb : r.Reads b b') :
    match a.mgu b with
    | .ok u => (r.forest.unify a' b').outcome = .ok () ∧
        ∃ r', r'.forest = (r.forest.unify a' b').forest ∧ r'.Sound n m ∧ ∀ k, r.Moves k u r'
    | .error e => ∃ e', (r.forest.unify a' b').outcome = .error e' ∧ e'.kind = e.kind := by
  have hV : ∀ v ∈ a.pairVars b, v ∈ r.live :=
    fun v hv => (VarSet.mem_union.mp hv).elim (ha.1 v) (hb.1 v)
  have hrenamed := (Ty.unifies_mgu a b).renamedOutcome h.inj hV
  have hrefines := h.wellFormed.unify_refines a' b'
  have hfollows := hrefines.follows
  rw [ha.2, hb.2] at hfollows
  cases hmgu : a.mgu b with
  | error e =>
    cases hmgu' : (a.rename r.name).mgu (b.rename r.name) with
    | ok u' =>
      rw [hmgu, hmgu'] at hrenamed
      exact hrenamed.elim
    | error e' =>
      rw [hmgu, hmgu'] at hrenamed
      rw [hmgu'] at hfollows
      obtain ⟨e₁, houtcome, hagrees⟩ := hfollows
      exact ⟨e₁, houtcome, hagrees.1.trans hrenamed⟩
  | ok u =>
    cases hmgu' : (a.rename r.name).mgu (b.rename r.name) with
    | error e' =>
      rw [hmgu, hmgu'] at hrenamed
      exact hrenamed.elim
    | ok u' =>
      rw [hmgu, hmgu'] at hrenamed
      rw [hmgu'] at hfollows
      obtain ⟨houtcome, hresolve⟩ := hfollows
      have hlt : ∀ w ∈ u', w < m := by
        intro w hw
        have hpair : w ∈ (a.rename r.name).pairVars (b.rename r.name) :=
          ((Ty.unifies_mgu _ _).within hmgu').keys w hw
        exact (VarSet.mem_union.mp hpair).elim (ha.name_lt h) (hb.name_lt h)
      refine ⟨houtcome, r.solve u (r.forest.unify a' b').forest, rfl,
        h.solve hrefines.wellFormed hresolve hrenamed hlt, ?_⟩
      exact h.moves_solve hresolve hrenamed ((Ty.unifies_mgu a b).within hmgu) hV

end Reading

end HindleyMilner
