import HindleyMilner.Proofs.Forest.Growth
import HindleyMilner.Proofs.Linking.Footprint

/-!
# What a linking run has to do with the context

Algorithm J generalizes by what the context knows, read through the forest. Like algorithm W it asks
the whole context, so bindings that no name of the term refers to have a say in this. They make no
difference, because of where a run leaves its marks: it puts something in for variables that the
context knows and for those it draws, and brings in no others (`Forest.Confined`, `Context.Trail`).
If a run of one kind is possible in two contexts, what they know of the resulting type is the same
(`generalizeIn_congr`).
-/

namespace HindleyMilner

/-! ### Forests that differ within a set of variables -/

namespace Forest

variable {f g h : Forest} {V W : Set Nat} {a b t : Ty} {n v w : Nat}

/-- Between `f` and `g` more has been put in for roots of `V`, and that is made of variables of `V`;
every other root is a root still. -/
structure Confined (f g : Forest) (V : Set Nat) : Prop where
  through : ∀ t, g.resolve t = (f.resolve t).bind fun v => g.resolve (.var v)
  fixed : ∀ v, f.parent? (.var v) = none → v ∉ V → g.resolve (.var v) = .var v
  inside : ∀ v ∈ V, f.parent? (.var v) = none → ∀ w ∈ (g.resolve (.var v)).vars, w ∈ V

private theorem Confined.exists_of_mem_vars (h : f.Confined g V) (hw : w ∈ (g.resolve t).vars) :
    ∃ v ∈ (f.resolve t).vars, w ∈ (g.resolve (.var v)).vars := by
  rw [h.through t] at hw
  exact Ty.mem_vars_bind.mp hw

theorem Confined.mem_vars (h : f.Confined g V) (hv : v ∈ (f.resolve t).vars)
    (hw : w ∈ (g.resolve (.var v)).vars) : w ∈ (g.resolve t).vars := by
  rw [h.through t]
  exact Ty.mem_vars_bind.mpr ⟨v, hv, hw⟩

theorem Confined.mem_of_mem_vars (h : f.Confined g V) (hf : f.WellFormed)
    (ht : ∀ v ∈ (f.resolve t).vars, v ∈ V) (hw : w ∈ (g.resolve t).vars) : w ∈ V := by
  obtain ⟨v, hv, hwv⟩ := h.exists_of_mem_vars hw
  exact h.inside v (ht v hv) (hf.root_of_mem_vars_resolve hv) w hwv

theorem Confined.mono (h : f.Confined g V) (hsub : ∀ v ∈ V, v ∈ W) : f.Confined g W := by
  refine ⟨h.through, fun v hroot hv => h.fixed v hroot fun hin => hv (hsub v hin),
    fun v hv hroot w hw => ?_⟩
  by_cases hin : v ∈ V
  · exact hsub w (h.inside v hin hroot w hw)
  · rw [h.fixed v hroot hin, Ty.vars_var, VarSet.mem_singleton] at hw
    exact hw ▸ hv

private theorem WellFormed.confined_of_resolve_eq (hf : f.WellFormed)
    (heq : ∀ t, g.resolve t = f.resolve t) (V : Set Nat) : f.Confined g V := by
  constructor
  · intro t
    simp only [heq]
    rw [← hf.resolve_eq_bind_resolve, hf.resolve_resolve]
  · intro v hroot _
    rw [heq, hf.resolve_of_root hroot]
  · intro v hv hroot w hw
    rw [heq, hf.resolve_of_root hroot, Ty.vars_var, VarSet.mem_singleton] at hw
    exact hw ▸ hv

theorem Confined.trans (hfg : f.Confined g V) (hgh : g.Confined h V) (hg : g.WellFormed) :
    f.Confined h V := by
  constructor
  · intro t
    rw [hgh.through t, hfg.through t, Ty.bind_bind]
    exact Ty.bind_congr fun v _ => (hgh.through (.var v)).symm
  · intro v hroot hv
    have hfixed := hfg.fixed v hroot hv
    have hroot' : g.parent? (.var v) = none := by
      apply hg.root_of_mem_vars_resolve (t := .var v)
      simp [hfixed]
    exact hgh.fixed v hroot' hv
  · intro v hv hroot w hw
    exact hgh.mem_of_mem_vars hg (hfg.inside v hv hroot) hw

/-- Unifying two types is confined to any set that has the variables they resolve to. -/
theorem WellFormed.confined_unify (hf : f.WellFormed) (hok : (f.unify a b).outcome = .ok ())
    (ha : ∀ v ∈ (f.resolve a).vars, v ∈ V) (hb : ∀ v ∈ (f.resolve b).vars, v ∈ V) :
    f.Confined (f.unify a b).forest V := by
  obtain ⟨s, hmgu, hresolve⟩ := (hf.unify_refines a b).follows.exists_of_ok hok
  have hwithin : s.Within V := by
    apply ((Ty.unifies_mgu _ _).within hmgu).mono
    intro v hv
    have hpair : v ∈ (f.resolve a).vars ∨ v ∈ (f.resolve b).vars := by simpa [Ty.pairVars] using hv
    exact hpair.elim (ha v) (hb v)
  have himage : ∀ v, f.parent? (.var v) = none →
      (f.unify a b).forest.resolve (.var v) = s.image v := by
    intro v hroot
    rw [hresolve, hf.resolve_of_root hroot, Ty.subst_var]
  constructor
  · intro t
    rw [hresolve t]
    exact Ty.bind_congr fun v hv => (himage v (hf.root_of_mem_vars_resolve hv)).symm
  · intro v hroot hv
    rw [himage v hroot]
    exact Subst.image_of_not_mem fun hmem => hv (hwithin.keys v hmem)
  · intro v hv hroot w hw
    rw [himage v hroot] at hw
    rcases hwithin.mem_vars_image hw with rfl | hin
    · exact hv
    · exact hin

theorem Over.resolve_of_le (hf : f.Over {v | v < n}) (hv : n ≤ v) :
    f.resolve (.var v) = .var v := by
  apply hf.wellFormed.resolve_of_not_mem_vars
  intro hmem
  have hlt : v < n := hf.mem_of_mem_vars hmem
  omega

end Forest

/-! ### What a run leaves behind -/

namespace Context

open Forest (Confined)
open Infer (Meets)

variable {Γ Δ : Context} {f f₁ f₂ : Forest} {n n₁ n₂ v w : Nat} {t t₁ : Ty}

/-- What a run may touch that begins with the forest `f` and draws from `n` up to `n₁`. -/
def scope (Γ : Context) (f : Forest) (n n₁ : Nat) : Set Nat := {w | w ∈ Γ.known f ∨ n ≤ w ∧ w < n₁}

/-- How a run that draws from `n` up to `n₁` leads from the forest `f` to `f₁`, with a type that is
read through it. -/
structure Trail (Γ : Context) (f : Forest) (n : Nat) (t : Ty) (f₁ : Forest) (n₁ : Nat) : Prop where
  le : n ≤ n₁
  confined : f.Confined f₁ (Γ.scope f n n₁)
  reached : ∀ w ∈ (f₁.resolve t).vars, w ∈ Γ.scope f n n₁

private theorem known_insert_fresh (hf : f.Over {v | v < n}) {x : String}
    (hw : w ∈ known (Γ.insert x (.mono (.var n))) f) : w ∈ Γ.known f ∨ w = n := by
  obtain ⟨v, hv, hwv⟩ := mem_known.mp hw
  rcases mem_free_insert hv with hown | hin
  · rw [Scheme.mem_free_mono, Ty.vars_var, VarSet.mem_singleton] at hown
    rw [hown, hf.resolve_of_le (Nat.le_refl n), Ty.vars_var, VarSet.mem_singleton] at hwv
    exact .inr hwv
  · exact .inl (mem_known.mpr ⟨v, hin, hwv⟩)

theorem known_insert_generalizeIn (hf : f.WellFormed) {x : String}
    (hw : w ∈ known (Γ.insert x (Γ.generalizeIn f t)) f) : w ∈ Γ.known f := by
  obtain ⟨v, hv, hwv⟩ := mem_known.mp hw
  rcases mem_free_insert hv with hown | hin
  · obtain ⟨hbody, hnot⟩ := Scheme.mem_free.mp hown
    have hknown : v ∈ Γ.known f := by
      by_contra hunknown
      exact hnot (VarSet.mem_sdiff.mpr ⟨hbody, hunknown⟩)
    rw [hf.resolve_of_root (hf.root_of_mem_vars_resolve hbody), Ty.vars_var,
      VarSet.mem_singleton] at hwv
    exact hwv ▸ hknown
  · exact mem_known.mpr ⟨v, hin, hwv⟩

private theorem scope_widen (hle : n₁ ≤ n₂) (hw : w ∈ Γ.scope f n n₁) : w ∈ Γ.scope f n n₂ :=
  hw.imp_right fun ⟨hge, hlt⟩ => ⟨hge, Nat.lt_of_lt_of_le hlt hle⟩

/-- What the context knows later on, it knew before, or it was drawn. -/
theorem Trail.scope_later (h : Γ.Trail f n t f₁ n₁) (hf : f.WellFormed) (hle : n₁ ≤ n₂)
    (hw : w ∈ Γ.scope f₁ n₁ n₂) : w ∈ Γ.scope f n n₂ := by
  rcases hw with hknown | ⟨hge, hlt⟩
  · obtain ⟨v, hv, hwv⟩ := mem_known.mp hknown
    apply scope_widen hle
    exact h.confined.mem_of_mem_vars hf (fun u hu => .inl (mem_known.mpr ⟨v, hv, hu⟩)) hwv
  · exact .inr ⟨Nat.le_trans h.le hge, hlt⟩

theorem Trail.widen (h : Γ.Trail f n t f₁ n₁) (hle : n₁ ≤ n₂) :
    f.Confined f₁ (Γ.scope f n n₂) ∧ ∀ w ∈ (f₁.resolve t).vars, w ∈ Γ.scope f n n₂ :=
  ⟨h.confined.mono fun _ => scope_widen hle, fun w hw => scope_widen hle (h.reached w hw)⟩

/-! ### The cases -/

private theorem trail_opened {x : String} {σ : Scheme} (hget : Γ.get? x = some σ)
    (hf : f.Over {v | v < n}) : Γ.Trail f n (σ.opened n) f (n + σ.binders.size) := by
  refine ⟨Nat.le_add_right _ _, hf.wellFormed.confined_of_resolve_eq (fun _ => rfl) _,
    fun w hw => ?_⟩
  rw [hf.wellFormed.resolve_eq_bind_resolve] at hw
  obtain ⟨v, hv, hwv⟩ := Ty.mem_vars_bind.mp hw
  rcases (Footprint.opened hget n).reached v hv with hfree | ⟨hge, hlt⟩
  · exact .inl (mem_known.mpr ⟨v, hfree, hwv⟩)
  · rw [hf.resolve_of_le hge, Ty.vars_var, VarSet.mem_singleton] at hwv
    exact .inr (hwv ▸ ⟨hge, hlt⟩)

theorem Trail.app {t₂ : Ty} (h₁ : Γ.Trail f n t₁ f₁ n₁) (h₂ : Γ.Trail f₁ n₁ t₂ f₂ n₂)
    (hf : f.WellFormed) (hf₁ : f₁.WellFormed) (hf₂ : f₂.Over {v | v < n₂})
    (hok : (f₂.unify t₁ (.fn t₂ (.var n₂))).outcome = .ok ()) :
    Γ.Trail f n ((f₂.unify t₁ (.fn t₂ (.var n₂))).forest.find (.var n₂)).1
      ((f₂.unify t₁ (.fn t₂ (.var n₂))).forest.find (.var n₂)).2 (n₂ + 1) := by
  have hle₁ := h₁.le
  have hle₂ := h₂.le
  -- All of it happens within the scope of the whole run.
  obtain ⟨hconfined₁, hreached₁⟩ := h₁.widen (show n₁ ≤ n₂ + 1 by omega)
  obtain ⟨hconfined₂, hreached₂⟩ := h₂.widen (Nat.le_succ n₂)
  have hlater : ∀ w ∈ Γ.scope f₁ n₁ (n₂ + 1), w ∈ Γ.scope f n (n₂ + 1) :=
    fun w hw => h₁.scope_later hf (by omega) hw
  have hconfined₂ := hconfined₂.mono hlater
  have hroot : f₂.resolve (.var n₂) = .var n₂ := hf₂.resolve_of_le (Nat.le_refl n₂)
  have hresult : n₂ ∈ Γ.scope f n (n₂ + 1) := .inr ⟨by omega, Nat.lt_succ_self n₂⟩
  have hwanted : ∀ w ∈ (f₂.resolve (.fn t₂ (.var n₂))).vars, w ∈ Γ.scope f n (n₂ + 1) := by
    intro w hw
    rw [hf₂.wellFormed.resolve_fn, hroot, Ty.vars_fn, VarSet.mem_union, Ty.vars_var,
      VarSet.mem_singleton] at hw
    rcases hw with hin | rfl
    · exact hlater w (hreached₂ w hin)
    · exact hresult
  have hconfined₃ :=
    hf₂.wellFormed.confined_unify hok (fun w hw => hconfined₂.mem_of_mem_vars hf₁ hreached₁ hw)
      hwanted
  have hf₃ := (hf₂.wellFormed.unify_refines t₁ (.fn t₂ (.var n₂))).wellFormed
  have hconfined₄ :=
    hconfined₃.trans (hf₃.confined_of_resolve_eq (hf₃.resolve_find (.var n₂)) _) hf₃
  refine ⟨by omega, (hconfined₁.trans hconfined₂ hf₁).trans hconfined₄ hf₂.wellFormed,
    fun w hw => ?_⟩
  rw [hf₃.resolve_found] at hw
  apply hconfined₃.mem_of_mem_vars hf₂.wellFormed _ hw
  simp [hroot, hresult]

theorem Trail.abs {x : String} (h : Trail (Γ.insert x (.mono (.var n))) f (n + 1) t f₁ n₁)
    (hf : f.Over {v | v < n}) (hf₁ : f₁.WellFormed) :
    Γ.Trail f n (.fn (f₁.find (.var n)).1 ((f₁.find (.var n)).2.find t).1)
      ((f₁.find (.var n)).2.find t).2 n₁ := by
  have hle := h.le
  have hparam : n ∈ Γ.scope f n n₁ := .inr ⟨Nat.le_refl n, hle⟩
  have hscope : ∀ w ∈ scope (Γ.insert x (.mono (.var n))) f (n + 1) n₁, w ∈ Γ.scope f n n₁ := by
    intro w hw
    rcases hw with hknown | ⟨hge, hlt⟩
    · rcases known_insert_fresh hf hknown with hin | rfl
      · exact .inl hin
      · exact hparam
    · exact .inr ⟨by omega, hlt⟩
  have hconfined := h.confined.mono hscope
  have hf₂ := hf₁.find (.var n)
  have hsame : ∀ u, ((f₁.find (.var n)).2.find t).2.resolve u = f₁.resolve u := by
    intro u
    rw [hf₂.resolve_find, hf₁.resolve_find]
  have hread :
      ((f₁.find (.var n)).2.find t).2.resolve
      (.fn (f₁.find (.var n)).1 ((f₁.find (.var n)).2.find t).1) =
      .fn (f₁.resolve (.var n)) (f₁.resolve t) := by
    rw [(hf₂.find t).resolve_fn, hf₂.resolve_found, hf₂.resolve_find, hf₁.resolve_found,
      hf₁.resolve_find]
  refine ⟨by omega, hconfined.trans (hf₁.confined_of_resolve_eq hsame _) hf₁, fun w hw => ?_⟩
  rw [hread, Ty.vars_fn, VarSet.mem_union] at hw
  rcases hw with hw | hw
  · apply hconfined.mem_of_mem_vars hf.wellFormed _ hw
    simp [hf.resolve_of_le, hparam]
  · exact hscope w (h.reached w hw)

theorem Trail.letIn {x : String} {t₂ : Ty} (h₁ : Γ.Trail f n t₁ f₁ n₁)
    (h₂ : Trail (Γ.insert x (Γ.generalizeIn f₁ t₁)) f₁ n₁ t₂ f₂ n₂) (hf : f.WellFormed)
    (hf₁ : f₁.WellFormed) : Γ.Trail f n t₂ f₂ n₂ := by
  have hscope : ∀ w ∈ scope (Γ.insert x (Γ.generalizeIn f₁ t₁)) f₁ n₁ n₂, w ∈ Γ.scope f n n₂ := by
    intro w hw
    apply h₁.scope_later hf h₂.le
    exact hw.imp_left (known_insert_generalizeIn hf₁)
  obtain ⟨hconfined₁, -⟩ := h₁.widen h₂.le
  exact ⟨Nat.le_trans h₁.le h₂.le, hconfined₁.trans (h₂.confined.mono hscope) hf₁,
    fun w hw => hscope w (h₂.reached w hw)⟩

/-! ### The run -/

/-- Where the forest and the type that a run leaves lie, apart from where they come from. -/
theorem typeByLinks_below (term : Term) {s : Session} {mode : Supply.Mode} (hmode : mode ≠ .shared)
    (hs : s.Stands mode n f) (hf : f.Over {v | v < n}) (hΓ : ∀ v ∈ Γ.free, v < n)
    (h : Meets (fun t s' => ∃ n₁ f₁, s'.Stands mode n₁ f₁ ∧ Γ.Trail f n t f₁ n₁) (fun _ _ => True)
      (Γ.typeByLinks term s)) :
    Meets (fun t s' => ∃ n₁ f₁, s'.Stands mode n₁ f₁ ∧ Γ.Trail f n t f₁ n₁ ∧ f₁.Over {v | v < n₁} ∧
      t.Over {v | v < n₁}) (fun _ _ => True)
      (Γ.typeByLinks term s) := by
  -- Every index below `m` is within reach of the empty context from `0` on.
  have hreach : ∀ m, (∅ : Context).reach 0 m = {v | v < m} := by
    intro m
    ext v
    have hnone : v ∉ (∅ : Context).free := VarSet.not_mem_empty v
    simp [reach, hnone]
  have htraced :=
    typeByLinks_traced (Δ := ∅) (k := 0) (Γ := Γ) term hmode hs (Nat.zero_le n) (by rwa [hreach])
      (by rwa [hreach])
  apply (h.and htraced).imp
  · intro t s' hboth
    obtain ⟨⟨n₁, f₁, hs₁, htrail⟩, n₂, f₂, hs₂, -, hover, hnamed⟩ := hboth
    obtain rfl := hs₁.next_eq hs₂
    obtain rfl : f₁ = f₂ := hs₁.forest.symm.trans hs₂.forest
    rw [hreach] at hover hnamed
    exact ⟨n₁, f₁, hs₁, htrail, hover, hnamed⟩
  · exact fun _ _ _ => trivial

/-- The index that is drawn for a parameter bounds the context that has it. -/
theorem free_insert_fresh_lt (hΓ : ∀ v ∈ Γ.free, v < n) (x : String) :
    ∀ v ∈ free (Γ.insert x (.mono (.var n))), v < n + 1 := by
  apply forall_mem_free_insert
  · intro v hv
    rw [Scheme.mem_free_mono, Ty.vars_var, VarSet.mem_singleton] at hv
    omega
  · exact fun v hv => Nat.lt_succ_of_lt (hΓ v hv)

theorem free_insert_generalizeIn_lt (hf : f.Over {v | v < n}) (ht : t.Over {v | v < n})
    (hΓ : ∀ v ∈ Γ.free, v < n) (x : String) :
    ∀ v ∈ free (Γ.insert x (Γ.generalizeIn f t)), v < n :=
  forall_mem_free_insert (fun v hv => hf.resolve ht v (Scheme.mem_free.mp hv).1) hΓ

theorem typeByLinks_trail (term : Term) {Γ : Context} {s : Session} {mode : Supply.Mode} {n : Nat}
    {f : Forest} (hmode : mode ≠ .shared) (hs : s.Stands mode n f) (hf : f.Over {v | v < n})
    (hΓ : ∀ v ∈ Γ.free, v < n) :
    Meets (fun t s' => ∃ n₁ f₁, s'.Stands mode n₁ f₁ ∧ Γ.Trail f n t f₁ n₁) (fun _ _ => True)
      (Γ.typeByLinks term s) := by
  induction term generalizing Γ s n f with
  | int value =>
    apply Infer.meets_concludeJ hs
    intro s' hs'
    refine ⟨n, f, hs', Nat.le_refl n, hf.wellFormed.confined_of_resolve_eq (fun _ => rfl) _, ?_⟩
    simp [hf.wellFormed.resolve_int]
  | bool value =>
    apply Infer.meets_concludeJ hs
    intro s' hs'
    refine ⟨n, f, hs', Nat.le_refl n, hf.wellFormed.confined_of_resolve_eq (fun _ => rfl) _, ?_⟩
    simp [hf.wellFormed.resolve_bool]
  | var name =>
    apply (Infer.meets_lookup hmode hs fun _ => trivial).bind
    intro t s₁ h₁
    obtain ⟨σ, hget, rfl, hs₁⟩ := h₁
    exact Infer.meets_concludeJ hs₁ fun s' hs' => ⟨_, f, hs', trail_opened hget hf⟩
  | app func arg ihfunc iharg =>
    apply (typeByLinks_below func hmode hs hf hΓ (ihfunc hs hf hΓ)).bind
    intro t₁ s₁ h₁
    obtain ⟨n₁, f₁, hs₁, htrail₁, hf₁, -⟩ := h₁
    have hΓ₁ : ∀ v ∈ Γ.free, v < n₁ := fun v hv => Nat.lt_of_lt_of_le (hΓ v hv) htrail₁.le
    apply (typeByLinks_below arg hmode hs₁ hf₁ hΓ₁ (iharg hs₁ hf₁ hΓ₁)).bind
    intro t₂ s₂ h₂
    obtain ⟨n₂, f₂, hs₂, htrail₂, hf₂, -⟩ := h₂
    apply (Infer.meets_fresh hmode hs₂).bind
    intro result s₃ h₃
    obtain ⟨rfl, hs₃⟩ := h₃
    apply (Infer.meets_unify hs₃ fun _ _ _ _ => trivial).bind
    intro _ s₄ h₄
    obtain ⟨hok, hs₄⟩ := h₄
    apply (Infer.meets_find (.var n₂) hs₄).bind
    intro t s₅ h₅
    obtain ⟨rfl, hs₅⟩ := h₅
    exact Infer.meets_concludeJ hs₅ fun s' hs' =>
      ⟨_, _, hs', htrail₁.app htrail₂ hf.wellFormed hf₁.wellFormed hf₂ hok⟩
  | abs param body ih =>
    apply (Infer.meets_fresh hmode hs).bind
    intro t s₀ h₀
    obtain ⟨rfl, hs₀⟩ := h₀
    have hf₀ : f.Over {v | v < n + 1} := hf.mono fun v hv => Nat.lt_succ_of_lt hv
    have hΓ₀ := free_insert_fresh_lt hΓ param
    apply (typeByLinks_below body hmode hs₀ hf₀ hΓ₀ (ih hs₀ hf₀ hΓ₀)).bind
    intro t' s₁ h₁
    obtain ⟨n₁, f₁, hs₁, htrail, hf₁, -⟩ := h₁
    apply (Infer.meets_find (.var n) hs₁).bind
    intro dom s₂ h₂
    obtain ⟨rfl, hs₂⟩ := h₂
    apply (Infer.meets_find t' hs₂).bind
    intro cod s₃ h₃
    obtain ⟨rfl, hs₃⟩ := h₃
    exact Infer.meets_concludeJ hs₃ fun s' hs' => ⟨_, _, hs', htrail.abs hf hf₁.wellFormed⟩
  | letIn name init body ihinit ihbody =>
    apply (typeByLinks_below init hmode hs hf hΓ (ihinit hs hf hΓ)).bind
    intro t₁ s₁ h₁
    obtain ⟨n₁, f₁, hs₁, htrail₁, hf₁, ht₁⟩ := h₁
    apply (Infer.meets_get hs₁).bind
    intro session s₂ h₂
    obtain ⟨rfl, hs₂⟩ := h₂
    apply (Infer.meets_report _ hs₂).bind
    intro _ s₃ hs₃
    have hΓ₁ :=
      free_insert_generalizeIn_lt hf₁ ht₁ (fun v hv => Nat.lt_of_lt_of_le (hΓ v hv) htrail₁.le) name
    apply (ihbody hs₃ hf₁ hΓ₁).bind
    intro t₂ s₄ h₄
    obtain ⟨n₂, f₂, hs₄, htrail₂⟩ := h₄
    exact Infer.meets_concludeJ hs₄ fun s' hs' =>
      ⟨n₂, f₂, hs', htrail₁.letIn htrail₂ hf.wellFormed hf₁.wellFormed⟩

/-! ### Two contexts -/

/-- Of a type that a run has found in both contexts, what one of them knows the
other one knows too. -/
theorem Trail.mem_known_of (h : Δ.Trail f n t f₁ n₁) (hΓ : ∀ v ∈ Γ.free, v < n)
    (hf : f.Over {v | v < n}) (hconfined : f.Confined f₁ (Γ.scope f n n₁))
    (ht : w ∈ (f₁.resolve t).vars) (hw : w ∈ Γ.known f₁) : w ∈ Δ.known f₁ := by
  obtain ⟨v, hv, hwv⟩ := mem_known.mp hw
  obtain ⟨u, hu, hwu⟩ := hconfined.exists_of_mem_vars hwv
  have hold : u < n := hf.resolve (Ty.over_var.mpr (hΓ v hv)) u hu
  have hroot := hf.wellFormed.root_of_mem_vars_resolve hu
  -- Either the run was allowed to replace `u`, or `w` is `u` itself, which is within scope since
  -- `t` was reached.
  have hin : u ∈ Δ.scope f n n₁ := by
    by_contra hout
    rw [h.confined.fixed u hroot hout, Ty.vars_var, VarSet.mem_singleton] at hwu
    exact hout (hwu ▸ h.reached w ht)
  rcases hin with hknown | ⟨hge, -⟩
  · obtain ⟨x, hx, hux⟩ := mem_known.mp hknown
    exact mem_known.mpr ⟨x, hx, h.confined.mem_vars hux hwu⟩
  · omega

theorem generalizeIn_congr (h : Γ.Trail f n t f₁ n₁) (h' : Δ.Trail f n t f₁ n₁)
    (hf : f.Over {v | v < n}) (hΓ : ∀ v ∈ Γ.free, v < n) (hΔ : ∀ v ∈ Δ.free, v < n) :
    Δ.generalizeIn f₁ t = Γ.generalizeIn f₁ t := by
  have hbinders : (f₁.resolve t).vars \ Δ.known f₁ = (f₁.resolve t).vars \ Γ.known f₁ := by
    ext w
    rw [VarSet.mem_sdiff, VarSet.mem_sdiff]
    refine and_congr_right fun hw => not_congr ⟨fun hknown => ?_, fun hknown => ?_⟩
    · exact h.mem_known_of hΔ hf h'.confined hw hknown
    · exact h'.mem_known_of hΓ hf h.confined hw hknown
  exact congrArg (Scheme.mk · (f₁.resolve t)) hbinders

end Context

end HindleyMilner
