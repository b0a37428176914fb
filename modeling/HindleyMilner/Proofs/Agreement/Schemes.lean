import HindleyMilner.Proofs.Agreement.Reading
import HindleyMilner.Proofs.Forest.Solution
import HindleyMilner.Proofs.Renaming

/-!
# Reading schemes and contexts

A scheme of the linking run is not substituted when the run goes on; its free variables are read
through the forest, and its binders stand for the binders of the other scheme. For this to make
sense, what the forest has for a free variable must not mention a binder. A step keeps this as long
as the substitution captures nothing, which is where hygiene of the substituting run comes in.

Since both sides quantify what their context does not know, generalizing corresponding types
in corresponding contexts gives corresponding schemes. Instantiating them draws variables in
the order of the binders, which is not the same on both sides, but the reading can name the
new ones accordingly.
-/

namespace HindleyMilner

namespace Reading

variable {r r' : Reading} {n m n' m' : Nat} {S : Subst} {t t' : Ty} {σ τ : Scheme}

structure ReadsScheme (r : Reading) (σ τ : Scheme) : Prop where
  body : r.Reads σ.body τ.body
  bound : ∀ b ∈ σ.binders, b ∈ r.live
  binders : ∀ w, w ∈ τ.binders ↔ ∃ b ∈ σ.binders, r.name b = w
  apart : ∀ v ∈ τ.free, ∀ w ∈ (r.forest.resolve (.var v)).vars, w ∉ τ.binders

namespace ReadsScheme

theorem mono (h : r.Reads t t') : r.ReadsScheme (.mono t) (.mono t') := by
  refine ⟨h, fun b hb => absurd hb (VarSet.not_mem_empty b),
    fun w => ⟨fun hw => absurd hw (VarSet.not_mem_empty w), ?_⟩,
    fun _ _ w _ => VarSet.not_mem_empty w⟩
  rintro ⟨b, hb, -⟩
  exact absurd hb (VarSet.not_mem_empty b)

theorem extend (h : r.ReadsScheme σ τ) (hr : r.Extends r') : r'.ReadsScheme σ τ := by
  refine ⟨h.body.extend hr, fun b hb => hr.live (h.bound b hb), fun w => ?_, fun v hv w hw => ?_⟩
  · rw [h.binders]
    refine exists_congr fun b => and_congr_right fun hb => ?_
    rw [hr.name b (h.bound b hb)]
  · rw [hr.forest] at hw
    exact h.apart v hv w hw

theorem name_not_mem (h : r.ReadsScheme σ τ) (hr : r.Sound n m) {v : Nat} (hv : v ∈ σ.free) :
    r.name v ∉ τ.binders := by
  intro hmem
  obtain ⟨hbody, hnot⟩ := Scheme.mem_free.mp hv
  obtain ⟨b, hb, heq⟩ := (h.binders _).mp hmem
  exact hnot (hr.inj (h.bound b hb) (h.body.1 v hbody) heq ▸ hb)

theorem binders_eq (h : r.ReadsScheme σ τ) : τ.binders = σ.binders.map r.name := by
  apply VarSet.ext
  intro w
  rw [h.binders, VarSet.mem_map]

private theorem size_binders (h : r.ReadsScheme σ τ) (hr : r.Sound n m) :
    τ.binders.size = σ.binders.size := by
  rw [h.binders_eq]
  exact VarSet.size_map (hr.inj.mono h.bound)

/-- What the forest has for the free variables of one scheme are the names of the free
variables of the other. -/
theorem mem_resolve_free_iff (h : r.ReadsScheme σ τ) (hr : r.Sound n m) {w : Nat} :
    (∃ u ∈ τ.free, w ∈ (r.forest.resolve (.var u)).vars) ↔ ∃ v ∈ σ.free, r.name v = w := by
  have hvars : w ∈ (σ.body.rename r.name).vars ↔
      ∃ u ∈ τ.body.vars, w ∈ (r.forest.resolve (.var u)).vars := by
    rw [← h.body.2, hr.wellFormed.resolve_eq_bind_resolve, Ty.mem_vars_bind]
  constructor
  · rintro ⟨u, hu, hw⟩
    obtain ⟨v, hv, rfl⟩ := Ty.mem_vars_rename.mp (hvars.mpr ⟨u, (Scheme.mem_free.mp hu).1, hw⟩)
    refine ⟨v, Scheme.mem_free.mpr ⟨hv, fun hbinder => ?_⟩, rfl⟩
    exact h.apart u hu _ hw ((h.binders _).mpr ⟨v, hbinder, rfl⟩)
  · rintro ⟨v, hv, rfl⟩
    obtain ⟨u, hu, hw⟩ := hvars.mp (Ty.mem_vars_rename.mpr ⟨v, (Scheme.mem_free.mp hv).1, rfl⟩)
    refine ⟨u, Scheme.mem_free.mpr ⟨hu, fun hbinder => ?_⟩, hw⟩
    -- A binder is the name of one, and unlinked; but the name of a free variable is no binder.
    obtain ⟨b, hb, rfl⟩ := (h.binders u).mp hbinder
    rw [hr.root b (h.bound b hb), Ty.vars_var, VarSet.mem_singleton] at hw
    exact h.name_not_mem hr hv (hw ▸ hbinder)

theorem moves (h : r.ReadsScheme σ τ) (hr : r.Sound n m) (hmoves : r.Moves n S r')
    (hr' : r'.Sound n' m') (hclear : σ.Clear S) (hfix : ∀ b ∈ σ.binders, S.image b = .var b) :
    r'.ReadsScheme (σ.subst S) τ := by
  have hbody : (σ.subst S).body = σ.body.subst S := by
    rw [Scheme.body_subst]
    refine Ty.bind_congr fun v _ => ?_
    split
    · rename_i hbinder
      rw [hfix v hbinder]
    · rfl
  have hlive : ∀ b ∈ σ.binders, b ∈ r'.live := by
    intro b hb
    refine (hmoves.image b (h.bound b hb)).1 b ?_
    rw [hfix b hb, Ty.vars_var, VarSet.mem_singleton]
  have hname : ∀ b ∈ σ.binders, r'.name b = r.name b :=
    fun b hb => hmoves.agree b (hr.lt_left b (h.bound b hb))
  refine ⟨hbody ▸ hmoves.reads hr' h.body, hlive, fun w => ?_, fun u hu w hw hbinder => ?_⟩
  · rw [h.binders, Scheme.binders_subst]
    refine exists_congr fun b => and_congr_right fun hb => ?_
    rw [hname b hb]
  · -- `w` comes from a free variable `v` of the other scheme, and `S` would capture.
    rw [← hmoves.resolved, hr'.wellFormed.resolve_eq_bind_resolve, Ty.mem_vars_bind] at hw
    obtain ⟨x, hx, hwx⟩ := hw
    obtain ⟨v, hv, rfl⟩ := (h.mem_resolve_free_iff hr).mp ⟨u, hu, hx⟩
    have himage := hmoves.image v (h.body.1 v (Scheme.mem_free.mp hv).1)
    rw [himage.2] at hwx
    obtain ⟨y, hy, rfl⟩ := Ty.mem_vars_rename.mp hwx
    obtain ⟨b, hb, heq⟩ := (h.binders _).mp hbinder
    rw [← hname b hb] at heq
    exact hclear v hv y hy (hr'.inj (hlive b hb) (himage.1 y hy) heq ▸ hb)

end ReadsScheme

/-! ### Contexts -/

/-- Each scheme is read by the one of the same name. -/
def ReadsContext (r : Reading) (Γ Γ' : Context) : Prop := Context.Related r.ReadsScheme Γ Γ'

variable {Γ Γ' : Context}

theorem ReadsContext.extend (h : r.ReadsContext Γ Γ') (hr : r.Extends r') : r'.ReadsContext Γ Γ' :=
  Context.Related.imp h fun _ _ _ _ hreads => hreads.extend hr

private theorem ReadsContext.mem_known_iff (h : r.ReadsContext Γ Γ') (hr : r.Sound n m) {w : Nat} :
    w ∈ Γ'.known r.forest ↔ ∃ v ∈ Γ.free, r.name v = w := by
  rw [Context.mem_known]
  constructor
  · rintro ⟨u, hu, hw⟩
    obtain ⟨x, τ, hτ, hfree⟩ := Context.mem_free_iff.mp hu
    obtain ⟨σ, hσ, hreads⟩ := Context.Related.exists_left h hτ
    obtain ⟨v, hv, heq⟩ := (hreads.mem_resolve_free_iff hr).mp ⟨u, hfree, hw⟩
    exact ⟨v, Context.mem_free_iff.mpr ⟨x, σ, hσ, hv⟩, heq⟩
  · rintro ⟨v, hv, heq⟩
    obtain ⟨x, σ, hσ, hfree⟩ := Context.mem_free_iff.mp hv
    obtain ⟨τ, hτ, hreads⟩ := Context.Related.exists_right h hσ
    obtain ⟨u, hu, hw⟩ := (hreads.mem_resolve_free_iff hr).mpr ⟨v, hfree, heq⟩
    exact ⟨u, Context.mem_free_iff.mpr ⟨x, τ, hτ, hu⟩, hw⟩

private theorem ReadsContext.mem_live (h : r.ReadsContext Γ Γ') {v : Nat} (hv : v ∈ Γ.free) :
    v ∈ r.live := by
  obtain ⟨x, σ, hσ, hfree⟩ := Context.mem_free_iff.mp hv
  obtain ⟨τ, -, hreads⟩ := Context.Related.exists_right h hσ
  exact hreads.body.1 v (Scheme.mem_free.mp hfree).1

theorem ReadsContext.generalize (h : r.ReadsContext Γ Γ') (hr : r.Sound n m) (ht : r.Reads t t') :
    r.ReadsScheme (Γ.generalize t) (Γ'.generalizeIn r.forest t') := by
  refine ⟨⟨ht.1, (hr.wellFormed.resolve_resolve t').trans ht.2⟩,
    fun b hb => ht.1 b (VarSet.mem_sdiff.mp hb).1, fun w => ?_, fun u hu w hw => ?_⟩
  · change w ∈ (r.forest.resolve t').vars \ Γ'.known r.forest ↔ _
    rw [VarSet.mem_sdiff, h.mem_known_iff hr, ht.2, Ty.mem_vars_rename]
    constructor
    · rintro ⟨⟨v, hv, rfl⟩, hunknown⟩
      exact ⟨v, VarSet.mem_sdiff.mpr ⟨hv, fun hfree => hunknown ⟨v, hfree, rfl⟩⟩, rfl⟩
    · rintro ⟨b, hb, rfl⟩
      obtain ⟨hvars, hnot⟩ := VarSet.mem_sdiff.mp hb
      refine ⟨⟨b, hvars, rfl⟩, ?_⟩
      rintro ⟨v, hv, heq⟩
      exact hnot (hr.inj (h.mem_live hv) (ht.1 b hvars) heq ▸ hv)
  · -- The variables of a resolved type are unlinked.
    obtain ⟨hvars, hnot⟩ := Scheme.mem_free.mp hu
    rw [hr.wellFormed.resolve_of_root (hr.wellFormed.root_of_mem_vars_resolve hvars), Ty.vars_var,
      VarSet.mem_singleton] at hw
    exact hw ▸ hnot

/-! ### Instantiation -/

/-- The reading after corresponding schemes have been instantiated from `n` and from `m` on. -/
def opened (r : Reading) (σ τ : Scheme) (n m : Nat) : Reading where
  name v :=
    if v < n then r.name v else m +
      τ.binders.toList.idxOf (r.name (σ.binders.toList.getD (v - n) 0))
  live := {v | v ∈ r.live ∨ n ≤ v ∧ v < n + σ.binders.size}
  forest := r.forest

private theorem extends_opened (hr : r.Sound n m) (σ τ : Scheme) : r.Extends (r.opened σ τ n m) :=
  ⟨rfl, fun _ hv => .inl hv, fun v hv => if_pos (hr.lt_left v hv)⟩

theorem name_opened (h : r.ReadsScheme σ τ) {v : Nat} (hge : n ≤ v) (hlt : v < n + σ.binders.size) :
    σ.binders.toList.getD (v - n) 0 ∈ σ.binders ∧
      r.name (σ.binders.toList.getD (v - n) 0) ∈ τ.binders ∧
      (r.opened σ τ n m).name v =
        m + τ.binders.toList.idxOf (r.name (σ.binders.toList.getD (v - n) 0)) := by
  have hmem : σ.binders.toList.getD (v - n) 0 ∈ σ.binders := VarSet.getD_mem (by omega)
  exact ⟨hmem, (h.binders _).mpr ⟨_, hmem, rfl⟩, if_neg (by omega)⟩

theorem Sound.opened (hr : r.Sound n m) (h : r.ReadsScheme σ τ) :
    (r.opened σ τ n m).Sound (n + σ.binders.size) (m + τ.binders.size) := by
  have hold : ∀ v ∈ r.live, (r.opened σ τ n m).name v = r.name v := (extends_opened hr σ τ).name
  have hindex : ∀ w ∈ τ.binders, τ.binders.toList.idxOf w < τ.binders.size :=
    fun w hw => List.idxOf_lt_length_of_mem (VarSet.mem_toList.mpr hw)
  refine ⟨hr.wellFormed, ?_, ?_, ?_, ?_, fun w hw => hr.new w (by omega)⟩
  · rintro v (hv | ⟨hv, hv'⟩) w (hw | ⟨hw, hw'⟩) heq
    · rw [hold v hv, hold w hw] at heq
      exact hr.inj hv hw heq
    · rw [hold v hv, (name_opened h hw hw').2.2] at heq
      have := hr.lt_right v hv
      omega
    · rw [(name_opened h hv hv').2.2, hold w hw] at heq
      have := hr.lt_right w hw
      omega
    · obtain ⟨hb, hname, hdrawn⟩ := name_opened (m := m) h hv hv'
      obtain ⟨hb', hname', hdrawn'⟩ := name_opened (m := m) h hw hw'
      rw [hdrawn, hdrawn'] at heq
      have hnames := (List.idxOf_inj (VarSet.mem_toList.mpr hname)).mp (Nat.add_left_cancel heq)
      have hsame :=
        VarSet.getD_inj (by omega) (by omega) (hr.inj (h.bound _ hb) (h.bound _ hb') hnames)
      omega
  · rintro v (hv | ⟨-, hlt⟩)
    · have := hr.lt_left v hv
      omega
    · exact hlt
  · rintro v (hv | ⟨hge, hlt⟩)
    · rw [hold v hv]
      have := hr.lt_right v hv
      omega
    · obtain ⟨-, hname, hdrawn⟩ := name_opened (m := m) h hge hlt
      rw [hdrawn]
      have := hindex _ hname
      omega
  · rintro v (hv | ⟨hge, hlt⟩)
    · rw [hold v hv]
      exact hr.root v hv
    · rw [(name_opened h hge hlt).2.2]
      exact hr.new _ (Nat.le_add_right m _)

theorem paced_opened (hr : r.Sound n m) (h : r.ReadsScheme σ τ) :
    (r.opened σ τ n m).Paced n m (n + σ.binders.size) (m + τ.binders.size) := by
  have hsize := h.size_binders hr
  refine ⟨by omega, fun v hv hge => ?_⟩
  rcases hv with hv | ⟨-, hlt⟩
  · have := hr.lt_left v hv
    omega
  · rw [(name_opened h hge hlt).2.2]
    exact Nat.le_add_right m _

theorem moves_opened (hr : r.Sound n m) (σ τ : Scheme) : r.Moves n ∅ (r.opened σ τ n m) := by
  refine ⟨fun v hv => if_pos hv, fun v hv => hv.imp_right And.left, hr.wellFormed.resolve_resolve,
    fun v hv => ?_⟩
  exact (hr.reads_var hv).extend (extends_opened hr σ τ)

private theorem name_opened_idxOf (h : r.ReadsScheme σ τ) {b : Nat} (hb : b ∈ σ.binders) :
    (r.opened σ τ n m).name (n + σ.binders.toList.idxOf b) =
      m + τ.binders.toList.idxOf (r.name b) := by
  have hlt : σ.binders.toList.idxOf b < σ.binders.size :=
    List.idxOf_lt_length_of_mem (VarSet.mem_toList.mpr hb)
  have hname := (name_opened (m := m) h (Nat.le_add_right n _) (Nat.add_lt_add_left hlt n)).2.2
  rwa [Nat.add_sub_cancel_left, VarSet.getD_idxOf hb] at hname

theorem rename_opened (hr : r.Sound n m) (h : r.ReadsScheme σ τ) :
    (σ.opened n).rename (r.opened σ τ n m).name =
      Scheme.opened ⟨τ.binders, σ.body.rename r.name⟩ m := by
  rw [Scheme.opened, Scheme.opened, Ty.rename, Ty.rename, Ty.rename, Ty.rename, Ty.bind_bind,
    Ty.bind_bind]
  refine Ty.bind_congr fun v hv => congrArg Ty.var ?_
  by_cases hbinder : v ∈ σ.binders
  · rw [if_pos hbinder, name_opened_idxOf h hbinder]
    exact (if_pos ((h.binders _).mpr ⟨v, hbinder, rfl⟩)).symm
  · rw [if_neg hbinder, (extends_opened hr σ τ).name v (h.body.1 v hv)]
    exact (if_neg (h.name_not_mem hr (Scheme.mem_free.mpr ⟨hv, hbinder⟩))).symm

/-- It is the same to draw for the binders before the body is resolved and after. -/
theorem resolve_opened (hr : r.Sound n m) (h : r.ReadsScheme σ τ) :
    r.forest.resolve (τ.opened m) = Scheme.opened ⟨τ.binders, r.forest.resolve τ.body⟩ m := by
  rw [hr.wellFormed.resolve_eq_bind_resolve, hr.wellFormed.resolve_eq_bind_resolve τ.body,
    Scheme.opened, Scheme.opened, Ty.rename_bind, Ty.rename, Ty.bind_bind]
  refine Ty.bind_congr fun w hw => ?_
  by_cases hbinder : w ∈ τ.binders
  · obtain ⟨b, hb, rfl⟩ := (h.binders w).mp hbinder
    rw [if_pos hbinder, hr.new _ (Nat.le_add_right m _), hr.root b (h.bound b hb)]
    exact congrArg Ty.var (if_pos hbinder).symm
  · rw [if_neg hbinder]
    refine (Ty.bind_eq_self fun u hu => congrArg Ty.var (if_neg ?_)).symm
    exact h.apart w (Scheme.mem_free.mpr ⟨hw, hbinder⟩) u hu

theorem reads_opened (hr : r.Sound n m) (h : r.ReadsScheme σ τ) :
    (r.opened σ τ n m).Reads (σ.opened n) (τ.opened m) := by
  constructor
  · intro w hw
    obtain ⟨v, hv, rfl⟩ := Ty.mem_vars_rename.mp hw
    split
    · rename_i hbinder
      have hlt := List.idxOf_lt_length_of_mem (VarSet.mem_toList.mpr hbinder)
      exact .inr ⟨Nat.le_add_right n _, Nat.add_lt_add_left hlt n⟩
    · exact .inl (h.body.1 v hv)
  · change r.forest.resolve (τ.opened m) = _
    rw [resolve_opened hr h, rename_opened hr h, h.body.2]

/-! ### Before the runs begin -/

/-- Every root among the variables of the context and the forest goes by its own name. -/
def initial (Γ : Context) (f : Forest) : Reading :=
  ⟨id, {v | (v ∈ Γ.bodyVars ∨ v ∈ f.vars) ∧ f.resolve (.var v) = .var v}, f⟩

variable {f : Forest}

theorem sound_initial (hf : f.WellFormed) (hn : ∀ v, v ∈ Γ.bodyVars ∨ v ∈ f.vars → v < n)
    (hm : ∀ v, v ∈ Γ.bodyVars ∨ v ∈ f.vars → v < m) :
    (initial Γ f).Sound n m where
  wellFormed := hf
  inj := Set.injOn_id _
  lt_left v hv := hn v hv.1
  lt_right v hv := hm v hv.1
  root _ hv := hv.2
  new w hw := hf.resolve_of_not_mem_vars fun hin => Nat.not_lt.mpr hw (hm w (.inr hin))

private theorem reads_initial (hf : f.WellFormed) (ht : ∀ v ∈ t.vars, v ∈ Γ.bodyVars) :
    (initial Γ f).Reads (f.resolve t) t := by
  refine ⟨fun w hw => ⟨(hf.mem_vars_resolve hw).imp_left (ht w), ?_⟩,
    (Ty.bind_var (f.resolve t)).symm⟩
  exact hf.resolve_of_root (hf.root_of_mem_vars_resolve hw)

private theorem readsScheme_initial (hf : f.WellFormed) (hΓ : Γ.Hygienic) (hapart : Γ.Apart f)
    {x : String} (hσ : Γ.get? x = some σ) :
    (initial Γ f).ReadsScheme (σ.subst f.solution) σ := by
  have hbody : ∀ v ∈ σ.body.vars, v ∈ Γ.bodyVars :=
    fun v hv => Context.mem_bodyVars_iff.mpr ⟨x, σ, hσ, hv⟩
  have hroot : ∀ b ∈ σ.binders, f.resolve (.var b) = .var b :=
    fun b hb => hf.resolve_of_not_mem_vars (hapart.not_mem_vars hσ hb)
  refine ⟨?_, fun b hb => ?_, fun w => ?_, fun v hv w hw hbinder => ?_⟩
  · rw [hf.body_subst_solution hroot]
    exact reads_initial hf hbody
  · exact ⟨.inl (hbody b (Context.hygienic_iff.mp hΓ x σ hσ b hb).1), hroot b hb⟩
  · exact ⟨fun hw => ⟨w, hw, rfl⟩, fun ⟨b, hb, heq⟩ => heq ▸ hb⟩
  · rcases hf.mem_vars_resolve hw with hself | hin
    · rw [Ty.vars_var, VarSet.mem_singleton] at hself
      exact (Scheme.mem_free.mp hv).2 (hself ▸ hbinder)
    · exact hapart.not_mem_vars hσ hbinder hin

/-- The substituting run sets out from the context that the linking run reads through its forest. -/
theorem readsContext_initial (hf : f.WellFormed) (hΓ : Γ.Hygienic) (hapart : Γ.Apart f) :
    (initial Γ f).ReadsContext (Γ.subst f.solution) Γ := by
  intro x
  rw [Context.get?_subst]
  cases hσ : Γ.get? x with
  | none => exact .none
  | some σ => exact .some (readsScheme_initial hf hΓ hapart hσ)

end Reading

end HindleyMilner
