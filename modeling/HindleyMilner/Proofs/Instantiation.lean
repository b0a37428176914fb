import HindleyMilner.Proofs.Drawing
import HindleyMilner.Proofs.Hygiene

/-!
# Substituting in a scheme and instantiating it

A substitution passes the binders of a scheme by and does not rename them. So instantiating after
substituting is substituting after instantiating as long as nothing is captured, that is, as long as
no type put in for a free variable mentions a binder (`Scheme.Clear`); and where something is
captured the two differ. Both draw the same variables in any case, since the binders are the same.
-/

namespace HindleyMilner

/-- The supply is past every variable of the scheme, quantified or not, and of the substitution. -/
structure Supply.Past (s : Supply) (σ : Scheme) (S : Subst) : Prop where
  binders : ∀ v ∈ σ.binders, v < s.next
  body : ∀ v ∈ σ.body.vars, v < s.next
  keys : ∀ entry ∈ S.entries, entry.1 < s.next
  range : ∀ entry ∈ S.entries, ∀ w ∈ entry.2.vars, w < s.next

namespace Scheme

variable {σ : Scheme} {S : Subst} {s s' : Supply} {n : Nat} {t : Ty}

/-- Where the variables drawn from `n` on go. -/
def drawn (σ : Scheme) (n v : Nat) : Nat :=
  if v ∈ σ.binders then n + σ.binders.toList.idxOf v else v

private theorem opened_subst_eq_bind (σ : Scheme) (S : Subst) (n : Nat) :
    (σ.subst S).opened n =
      σ.body.bind fun v => if v ∈ σ.binders then .var (n + σ.binders.toList.idxOf v) else
      (S.image v).rename (σ.drawn n) := by
  show (σ.subst S).body.rename (σ.drawn n) = _
  rw [body_subst, Ty.bind_rename]
  apply Ty.bind_congr
  intro v _
  by_cases hbinder : v ∈ σ.binders
  · simp [hbinder, drawn]
  · simp [hbinder]

private theorem subst_opened_eq_bind (hkeys : ∀ v ∈ S, v < n) (σ : Scheme) :
    (σ.opened n).subst S = σ.body.bind fun v =>
      if v ∈ σ.binders then .var (n + σ.binders.toList.idxOf v) else S.image v := by
  rw [opened, Ty.subst, Ty.rename_bind]
  apply Ty.bind_congr
  intro v _
  by_cases hbinder : v ∈ σ.binders
  · have hnew : n + σ.binders.toList.idxOf v ∉ S := by
      intro hmem
      have := hkeys _ hmem
      omega
    simp [hbinder, Subst.image_of_not_mem hnew]
  · simp [hbinder]

private theorem rename_drawn_eq_self_iff (ht : ∀ w ∈ t.vars, w < n) :
    t.rename (σ.drawn n) = t ↔ ∀ w ∈ t.vars, w ∉ σ.binders := by
  have hself : t.rename (σ.drawn n) = t ↔ ∀ w ∈ t.vars, Ty.var (σ.drawn n w) = Ty.var w := by
    rw [← Ty.bind_eq_bind_iff, Ty.bind_var]
    rfl
  rw [hself]
  apply forall₂_congr
  intro w hw
  have hlt := ht w hw
  by_cases hbinder : w ∈ σ.binders
  · simp only [drawn, hbinder, if_true, Ty.var.injEq, not_true_eq_false, iff_false]
    omega
  · simp [drawn, hbinder]

private theorem opened_subst_eq_iff (hkeys : ∀ v ∈ S, v < n)
    (hrange : ∀ v ∈ σ.free, ∀ w ∈ (S.image v).vars, w < n) :
    (σ.subst S).opened n = (σ.opened n).subst S ↔ σ.Clear S := by
  rw [opened_subst_eq_bind, subst_opened_eq_bind hkeys, Ty.bind_eq_bind_iff]
  constructor
  · intro heq v hv
    obtain ⟨hbody, hfree⟩ := mem_free.mp hv
    have himage := heq v hbody
    rw [if_neg hfree, if_neg hfree] at himage
    exact (rename_drawn_eq_self_iff (hrange v hv)).mp himage
  · intro hclear v hbody
    by_cases hbinder : v ∈ σ.binders
    · rw [if_pos hbinder, if_pos hbinder]
    · have hv : v ∈ σ.free := mem_free.mpr ⟨hbody, hbinder⟩
      rw [if_neg hbinder, if_neg hbinder]
      exact (rename_drawn_eq_self_iff (hrange v hv)).mpr (hclear v hv)

theorem map_snd_instantiate (σ : Scheme) (s : Supply) :
    (σ.instantiate s).map Prod.snd = (Draw.freshFor σ.binders.toList s).map Prod.snd := by
  show ((Draw.freshFor σ.binders.toList s).bind _).map Prod.snd = _
  cases Draw.freshFor σ.binders.toList s <;> rfl

private theorem instantiate_map_snd_congr {τ : Scheme} (hbinders : τ.binders = σ.binders)
    (s : Supply) :
    (τ.instantiate s).map Prod.snd = (σ.instantiate s).map Prod.snd := by
  rw [map_snd_instantiate, map_snd_instantiate, hbinders]

private theorem instantiate_subst_eq_some_iff (hmode : s.mode ≠ .shared) (hpast : s.Past σ S)
    (hdraw : σ.instantiate s = some (t, s')) :
    (σ.subst S).instantiate s = some (t.subst S, s') ↔ σ.Clear S := by
  have hkeys : ∀ v ∈ S, v < s.next := fun v hv => hpast.keys _ (Subst.mem_entries_image hv)
  have hrange : ∀ v ∈ σ.free, ∀ w ∈ (S.image v).vars, w < s.next := by
    intro v hv w hw
    by_cases hmem : v ∈ S
    · exact hpast.range _ (Subst.mem_entries_image hmem) w hw
    · rw [Subst.image_of_not_mem hmem, Ty.vars_var, VarSet.mem_singleton] at hw
      exact hw ▸ hpast.body v (mem_free.mp hv).1
  have hboth := instantiate_map_snd_congr (binders_subst S σ) s
  rw [hdraw, Option.map_some] at hboth
  obtain ⟨⟨u, s''⟩, hdraw', hsame⟩ := Option.map_eq_some_iff.mp hboth
  obtain rfl : s'' = s' := hsame
  rw [hdraw', (instantiate_eq_some hmode hdraw).1, (instantiate_eq_some hmode hdraw').1,
    ← opened_subst_eq_iff hkeys hrange]
  simp

/-- Substituting and instantiating draw the same variables in either order. They give the same type
if nothing is captured, and only then. -/
theorem instantiate_subst_iff_clear (hmode : s.mode ≠ .shared) (hpast : s.Past σ S) :
    ((σ.subst S).instantiate s).map Prod.snd = (σ.instantiate s).map Prod.snd ∧
      (σ.Clear S → (σ.subst S).instantiate s = (σ.instantiate s).map (Prod.map (Ty.subst S) id)) ∧
      ∀ t s', σ.instantiate s = some (t, s') → (σ.subst S).instantiate s = some (t.subst S, s') →
        σ.Clear S := by
  have hdraws := instantiate_map_snd_congr (binders_subst S σ) s
  refine ⟨hdraws, fun hclear => ?_,
    fun t s' hdraw => (instantiate_subst_eq_some_iff hmode hpast hdraw).mp⟩
  cases hdraw : σ.instantiate s with
  | none =>
    rw [hdraw, Option.map_none, Option.map_eq_none_iff] at hdraws
    rw [hdraws, Option.map_none]
  | some pair => exact (instantiate_subst_eq_some_iff hmode hpast hdraw).mpr hclear

/-- Quantifies `0` and leaves `1` free. -/
def sample : Scheme := ⟨VarSet.ofList [0], .fn (.var 0) (.var 1)⟩

private theorem past_sample {S : Subst}
    (hS : ∀ entry ∈ S.entries, entry.1 < 3 ∧ ∀ w ∈ entry.2.vars.toList, w < 3) :
    Supply.Past ⟨.owned, 3⟩ sample S where
  binders := show ∀ v ∈ sample.binders.toList, v < 3 by decide
  body := show ∀ v ∈ sample.body.vars.toList, v < 3 by decide
  keys entry hentry := (hS entry hentry).1
  range entry hentry := (hS entry hentry).2

theorem instantiate_subst_iff_clear_sample :
    sample.Clear (.singleton 1 (.fn (.var 2) .int)) ∧
      (sample.subst (.singleton 1 (.fn (.var 2) .int))).instantiate ⟨.owned, 3⟩ =
        some (.fn (.var 3) (.fn (.var 2) .int), ⟨.owned, 4⟩) := by
  have hclear : sample.Clear (.singleton 1 (.fn (.var 2) .int)) :=
    show ∀ v ∈ sample.free.toList,
      ∀ w ∈ ((Subst.singleton 1 (.fn (.var 2) .int)).image v).vars.toList,
      w ∉ sample.binders by decide
  exact ⟨hclear, (instantiate_subst_iff_clear (by decide) (past_sample (by decide))).2.1 hclear⟩

/-- The law fails where a type that is put in mentions a binder. -/
theorem instantiate_subst_captures :
    ¬ ∀ (σ : Scheme) (S : Subst) (s : Supply), s.mode = .owned → s.Past σ S →
      (σ.subst S).instantiate s = (σ.instantiate s).map (Prod.map (Ty.subst S) id) := by
  intro hlaw
  have heq := hlaw sample (.singleton 1 (.var 0)) ⟨.owned, 3⟩ rfl (past_sample (by decide))
  revert heq
  decide

end Scheme

end HindleyMilner
