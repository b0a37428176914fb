import HindleyMilner.Proofs.Forest.Course

/-!
# Forests laid over old ones

A forest that is used again still holds what earlier requests have left there. If its variables are
all below an index and everything that is registered from then on stays at or above it, then the new
part is on its own: links start at variables only, so the two parts have no link in common, although
both may mention `Int`, `Bool` and functions between them. `Overlay` says that a forest consists of
an old one and of another one that was begun empty.

A unification in such a forest takes the course it takes in the new part alone, with the same
outcome, and leaves the old part as it was.
-/

namespace HindleyMilner

namespace Forest

variable {f g old : Forest} {V : Set Nat} {n : Nat} {a b t : Ty}

/-- Where the links of the variables of `V` agree, so do all the parents of types over `V`. -/
private theorem parent?_congr (hg : g.Over V) (hf : f.WellFormed)
    (hlinks : ∀ v ∈ V, f.parent? (.var v) = g.parent? (.var v)) (ht : t.Over V) :
    f.parent? t = g.parent? t := by
  cases t with
  | var v => exact hlinks v (Ty.over_var.mp ht)
  | _ => simp [hf.parent?_eq_none, hg.wellFormed.parent?_eq_none]

theorem Over.rep_congr (hg : g.Over V) (hf : f.WellFormed)
    (hlinks : ∀ v ∈ V, f.parent? (.var v) = g.parent? (.var v)) (ht : t.Over V) :
    f.rep t = g.rep t := by
  apply hg.wellFormed.rep_congr hf (P := fun t => t.Over V)
  · intro t u _ hparent
    exact hg.nodes u (hg.wellFormed.parent_mem t u hparent)
  · intro t ht
    exact parent?_congr hg hf hlinks ht
  · exact ht

/-- A type over `V` is resolved through the variables of `V` alone. -/
theorem Over.resolve_congr (hg : g.Over V) (hf : f.WellFormed)
    (hlinks : ∀ v ∈ V, f.parent? (.var v) = g.parent? (.var v)) (ht : t.Over V) :
    f.resolve t = g.resolve t := by
  apply hg.wellFormed.resolve_congr hf (P := fun t => t.Over V)
  · intro t u ht hstep
    cases hstep with
    | parent hparent => exact hg.nodes u (hg.wellFormed.parent_mem t u hparent)
    | dom a b => exact (Ty.over_fn.mp ht).1
    | cod a b => exact (Ty.over_fn.mp ht).2
  · intro t ht
    exact parent?_congr hg hf hlinks ht
  · exact ht

/-- `f` is `g` laid over `old`: what is below `n` has the links of `old`, and the rest
has those of `g`. -/
structure Overlay (old g f : Forest) (n : Nat) : Prop where
  below : old.Over {v | v < n}
  above : g.Over {v | n ≤ v}
  wellFormed : f.WellFormed
  nodes : ∀ t ∈ g.types, t ∈ f.types
  old_links : ∀ v < n, f.parent? (.var v) = old.parent? (.var v)
  new_links : ∀ v, n ≤ v → f.parent? (.var v) = g.parent? (.var v)

/-- Every forest over old variables is the empty one laid over it. -/
theorem overlay_empty (hold : old.Over {v | v < n}) : Overlay old ∅ old n := by
  refine ⟨hold, over_empty _, hold.wellFormed, fun t ht => absurd ht List.not_mem_nil,
    fun v _ => rfl, fun v hv => ?_⟩
  apply parent?_of_not_mem_vars
  intro hin
  have hlt : v < n := hold.mem_of_mem_vars hin
  omega

namespace Overlay

theorem rep_eq (h : Overlay old g f n) (ht : t.Over {v | n ≤ v}) : f.rep t = g.rep t :=
  h.above.rep_congr h.wellFormed h.new_links ht

theorem resolve_eq (h : Overlay old g f n) (ht : t.Over {v | n ≤ v}) : f.resolve t = g.resolve t :=
  h.above.resolve_congr h.wellFormed h.new_links ht

theorem resolve_old (h : Overlay old g f n) (ht : t.Over {v | v < n}) :
    f.resolve t = old.resolve t :=
  h.below.resolve_congr h.wellFormed h.old_links ht

theorem register (h : Overlay old g f n) (ht : t.Over {v | n ≤ v}) :
    Overlay old (g.register t) (f.register t) n where
  below := h.below
  above := h.above.register ht
  wellFormed := h.wellFormed.register t
  nodes u hu := by
    rw [mem_types_register] at hu ⊢
    exact hu.imp_left (h.nodes u)
  old_links v hv := by rw [parent?_register, h.old_links v hv]
  new_links v hv := by rw [parent?_register, parent?_register, h.new_links v hv]

theorem enter (h : Overlay old g f n) (ha : a.Over {v | n ≤ v}) (hb : b.Over {v | n ≤ v}) :
    Overlay old (g.enter a b) (f.enter a b) n :=
  (h.register ha).register hb

theorem setParent (h : Overlay old g f n) {v : Nat} (hv : n ≤ v) (hnode : .var v ∈ g.types)
    (hg : (g.setParent v t).WellFormed) (hf : (f.setParent v t).WellFormed) :
    Overlay old (g.setParent v t) (f.setParent v t) n where
  below := h.below
  above := ⟨hg, by simpa using h.above.nodes⟩
  wellFormed := hf
  nodes := by simpa using h.nodes
  old_links w hw := by
    have hne : Ty.var w ≠ .var v := fun heq => by cases heq; omega
    rw [parent?_setParent (h.nodes _ hnode), if_neg hne, h.old_links w hw]
  new_links w hw := by
    rw [parent?_setParent (h.nodes _ hnode), parent?_setParent hnode, h.new_links w hw]

theorem ofLink (h : Overlay old g f n) {v : Nat} {x y : Ty} (hv : n ≤ v) (hnode : .var v ∈ g.types)
    (ht : t.Over {v | n ≤ v}) (hg : (Attempt.ofLink x y g (g.link v t)).forest.WellFormed)
    (hf : (Attempt.ofLink x y f (f.link v t)).forest.WellFormed) :
    ∃ f', Attempt.ofLink x y f (f.link v t) =
      { Attempt.ofLink x y g (g.link v t) with forest := f' } ∧
      Overlay old (Attempt.ofLink x y g (g.link v t)).forest f' n := by
  simp only [link, h.resolve_eq ht] at hg hf ⊢
  split
  · rename_i hvar
    rw [if_pos hvar] at hg hf
    exact ⟨_, rfl, h.setParent hv hnode hg hf⟩
  · rename_i hvar
    rw [if_neg hvar] at hg hf
    split
    · exact ⟨f, rfl, h⟩
    · rename_i hoccurs
      rw [if_neg hoccurs] at hg hf
      exact ⟨_, rfl, h.setParent hv hnode hg hf⟩

end Overlay

/-- A unification of new types takes the course that it takes without the old forest. -/
theorem Unifies.overlay {attempt : Attempt} (hrun : Unifies g a b attempt) (h : Overlay old g f n)
    (ha : a.Over {v | n ≤ v}) (hb : b.Over {v | n ≤ v}) :
    ∃ f', Unifies f a b { attempt with forest := f' } ∧ Overlay old attempt.forest f' n := by
  induction hrun generalizing f with
  | same hsame =>
    have hboth := h.enter ha hb
    refine ⟨_, .same ?_, hboth⟩
    rw [hboth.rep_eq ha, hboth.rep_eq hb, hsame]
  | @left g a b target v hleft hright hne =>
    have hboth := h.enter ha hb
    have hrun : Unifies g a b _ := .left hleft hright hne
    have hrun' : Unifies f a b _ :=
      .left ((hboth.rep_eq ha).trans hleft) ((hboth.rep_eq hb).trans hright) hne
    have hv : n ≤ v := Ty.over_var.mp (hleft ▸ hboth.above.rep ha)
    have hnode : .var v ∈ (g.enter a b).types :=
      hleft ▸ hboth.above.wellFormed.rep_mem_types (mem_types_enter.mpr (.inr (.inl rfl)))
    obtain ⟨f', heq, hoverlay⟩ :=
      hboth.ofLink hv hnode (hright ▸ hboth.above.rep hb) (hrun.wellFormed h.above.wellFormed)
        (hrun'.wellFormed h.wellFormed)
    exact ⟨f', heq ▸ hrun', hoverlay⟩
  | @right g a b target v head hleft hhead hright =>
    have hboth := h.enter ha hb
    have hrun : Unifies g a b _ := .right hleft hhead hright
    have hrun' : Unifies f a b _ :=
      .right ((hboth.rep_eq ha).trans hleft) hhead ((hboth.rep_eq hb).trans hright)
    have hv : n ≤ v := Ty.over_var.mp (hright ▸ hboth.above.rep hb)
    have hnode : .var v ∈ (g.enter a b).types :=
      hright ▸ hboth.above.wellFormed.rep_mem_types (mem_types_enter.mpr (.inr (.inr rfl)))
    obtain ⟨f', heq, hoverlay⟩ :=
      hboth.ofLink hv hnode (hleft ▸ hboth.above.rep ha) (hrun.wellFormed h.above.wellFormed)
        (hrun'.wellFormed h.wellFormed)
    exact ⟨f', heq ▸ hrun', hoverlay⟩
  | clash hleft hright hclash =>
    have hboth := h.enter ha hb
    exact ⟨_, .clash ((hboth.rep_eq ha).trans hleft) ((hboth.rep_eq hb).trans hright) hclash, hboth⟩
  | domains hleft hright hne hfirst herror ih =>
    have hboth := h.enter ha hb
    have hpair := Ty.over_fn.mp (hleft ▸ hboth.above.rep ha)
    have hpair' := Ty.over_fn.mp (hright ▸ hboth.above.rep hb)
    obtain ⟨f', hfirst', hoverlay⟩ := ih hboth hpair.1 hpair'.1
    exact ⟨f', .domains ((hboth.rep_eq ha).trans hleft) ((hboth.rep_eq hb).trans hright) hne hfirst'
      herror, hoverlay⟩
  | components hleft hright hne hfirst hok hsecond ihfirst ihsecond =>
    have hboth := h.enter ha hb
    have hpair := Ty.over_fn.mp (hleft ▸ hboth.above.rep ha)
    have hpair' := Ty.over_fn.mp (hright ▸ hboth.above.rep hb)
    obtain ⟨f₁, hfirst', hoverlay₁⟩ := ihfirst hboth hpair.1 hpair'.1
    obtain ⟨f₂, hsecond', hoverlay₂⟩ := ihsecond hoverlay₁ hpair.2 hpair'.2
    exact ⟨f₂, .components ((hboth.rep_eq ha).trans hleft) ((hboth.rep_eq hb).trans hright) hne
      hfirst' hok hsecond', hoverlay₂⟩

theorem Overlay.unify (h : Overlay old g f n) (ha : a.Over {v | n ≤ v}) (hb : b.Over {v | n ≤ v}) :
    (f.unify a b).outcome = (g.unify a b).outcome ∧
      (f.unify a b).compared = (g.unify a b).compared ∧
      Overlay old (g.unify a b).forest (f.unify a b).forest n := by
  obtain ⟨f', hrun, hoverlay⟩ := (h.above.wellFormed.unifies_unify a b).overlay h ha hb
  rw [← h.wellFormed.unifies_iff.mp hrun]
  exact ⟨rfl, rfl, hoverlay⟩

end Forest

end HindleyMilner
