import HindleyMilner.Forest.Unification
import HindleyMilner.Proofs.Forest.Resolution
import HindleyMilner.Proofs.Unification

/-!
# Unification in a forest refines unification of types

A forest works lazily, on representatives; the most general unifier works on types with everything
put in. The two agree: unifying `a` and `b` in a well-formed forest ends as the most general unifier
of what `a` and `b` resolve to does, and when there is one, it is what resolution changes by
(`Attempt.Follows`). This holds in every forest that a sequence of requests can lead to, failed
unifications included, because a failed one stops in a well-formed forest too.

The bound on levels suffices because the functions opened on the way down are all different. Links
are made in between, so this is said through what stands on what, which links only add to.
-/

namespace HindleyMilner

/-- Errors of one kind; where a variable would contain itself, the same variable and type. -/
def TypeError.Agrees (e e' : TypeError) : Prop :=
  e.kind = e'.kind ∧ (e'.kind = .occursCheck → e = e')

theorem TypeError.Agrees.refl (e : TypeError) : e.Agrees e := ⟨rfl, fun _ => rfl⟩

namespace Forest

variable {f : Forest} {a b : Ty} {v : Nat}

/-- The attempt, started in `f`, ends as unification of the resolved types does. -/
def Attempt.Follows (f : Forest) (attempt : Attempt) : Except TypeError Subst → Prop
  | .ok s => attempt.outcome = .ok () ∧ ∀ t, attempt.forest.resolve t = (f.resolve t).subst s
  | .error e' => ∃ e, attempt.outcome = .error e ∧ e.Agrees e'

theorem Attempt.Follows.exists_of_ok {attempt : Attempt} {r : Except TypeError Subst}
    (h : attempt.Follows f r) (hok : attempt.outcome = .ok ()) :
    ∃ s, r = .ok s ∧ ∀ t, attempt.forest.resolve t = (f.resolve t).subst s := by
  cases r with
  | ok s => exact ⟨s, rfl, h.2⟩
  | error e' =>
    obtain ⟨e, herror, -⟩ := h
    rw [hok] at herror
    cases herror

/-! ### One comparison -/

/-- Both types made nodes, which is how unification starts. -/
abbrev enter (f : Forest) (a b : Ty) : Forest := (f.register a).register b

private theorem parent?_enter (f : Forest) (a b t : Ty) :
    (f.enter a b).parent? t = f.parent? t := by
  rw [parent?_register, parent?_register]

theorem mem_types_enter {t : Ty} : t ∈ (f.enter a b).types ↔ t ∈ f.types ∨ t = a ∨ t = b := by
  rw [mem_types_register, mem_types_register, or_assoc]

theorem WellFormed.enter (hf : f.WellFormed) (a b : Ty) : (f.enter a b).WellFormed :=
  (hf.register a).register b

theorem WellFormed.resolve_enter (hf : f.WellFormed) (a b t : Ty) :
    (f.enter a b).resolve t = f.resolve t := by
  rw [(hf.register a).resolve_register, hf.resolve_register]

section Equations

variable {levels : Nat} {a₁ a₂ b₁ b₂ : Ty}

theorem unifyWithin_same (h : (f.enter a b).rep a = (f.enter a b).rep b) :
    unifyWithin (levels + 1) a b f = some (.done (f.enter a b)) := by
  rw [unifyWithin]
  exact if_pos h

theorem unifyWithin_fn (ha : (f.enter a b).rep a = .fn a₁ a₂) (hb : (f.enter a b).rep b = .fn b₁ b₂)
    (hne : Ty.fn a₁ a₂ ≠ .fn b₁ b₂) :
    unifyWithin (levels + 1) a b f = (unifyWithin levels a₁ b₁ (f.enter a b)).bind fun first =>
      match first.outcome with
      | .error _ => some (.ofFirst (.fn a₁ a₂) (.fn b₁ b₂) first)
      | .ok () =>
        (unifyWithin levels a₂ b₂ first.forest).bind fun second =>
            some (.ofComponents (.fn a₁ a₂) (.fn b₁ b₂) first second) := by
  rw [unifyWithin, ha, hb, if_neg hne]
  rfl

theorem unifyWithin_left {target : Ty} (ha : (f.enter a b).rep a = .var v)
    (hb : (f.enter a b).rep b = target) (hne : .var v ≠ target) :
    unifyWithin (levels + 1) a b f =
      some (.ofLink (.var v) target (f.enter a b) ((f.enter a b).link v target)) := by
  rw [unifyWithin, ha, hb, if_neg hne]

theorem unifyWithin_right {target : Ty} {head : Ty.Head} (ha : (f.enter a b).rep a = target)
    (hhead : target.head? = some head) (hb : (f.enter a b).rep b = .var v) :
    unifyWithin (levels + 1) a b f =
      some (.ofLink target (.var v) (f.enter a b) ((f.enter a b).link v target)) := by
  rw [unifyWithin, ha, hb]
  cases target with
  | var w => cases hhead
  | _ => rw [if_neg nofun]

theorem unifyWithin_clash {left right : Ty} (ha : (f.enter a b).rep a = left)
    (hb : (f.enter a b).rep b = right) (hclash : left.Clash right) :
    unifyWithin (levels + 1) a b f =
      some ⟨.error (.mismatch left right), f.enter a b, [(left, right)]⟩ := by
  rw [unifyWithin, ha, hb, if_neg hclash.ne]
  obtain ⟨p, q, hp, hq, hne⟩ := hclash
  cases left <;> cases right <;> simp_all [Ty.head?]

end Equations

/-! ### What an attempt keeps -/

/-- The attempt ends as `r` does, in a well-formed forest over `U` that has the links of `f`. -/
structure Attempt.Refines (f : Forest) (U : Finset Ty) (attempt : Attempt)
    (r : Except TypeError Subst) : Prop where
  wellFormed : attempt.forest.WellFormed
  spans : attempt.forest.Spans U
  grows : f.Grows attempt.forest
  follows : attempt.Follows f r

private theorem Attempt.Follows.of_enter {attempt : Attempt} {r : Except TypeError Subst}
    (hf : f.WellFormed) (h : attempt.Follows (f.enter a b) r) :
    attempt.Follows f r := by
  cases r with
  | error e => exact h
  | ok s =>
    refine ⟨h.1, fun t => ?_⟩
    rw [h.2 t, hf.resolve_enter]

private theorem Attempt.Refines.of_enter {U : Finset Ty} {attempt : Attempt}
    {r : Except TypeError Subst} (hf : f.WellFormed) (h : attempt.Refines (f.enter a b) U r) :
    attempt.Refines f U r :=
  ⟨h.wellFormed, h.spans, fun t u hparent => h.grows t u ((parent?_enter f a b t).trans hparent),
    h.follows.of_enter hf⟩

theorem Spans.enter {U : Finset Ty} (hU : f.Spans U) (ha : a ∈ U) (hb : b ∈ U) :
    (f.enter a b).Spans U := by
  refine ⟨fun t ht => ?_, hU.components⟩
  rcases mem_types_enter.mp ht with hin | rfl | rfl
  · exact hU.types t hin
  · exact ha
  · exact hb

theorem WellFormed.rep_mem_types (hf : f.WellFormed) {t : Ty} (ht : t ∈ f.types) :
    f.rep t ∈ f.types := by
  induction t using hf.induction with
  | h t ih =>
    cases hparent : f.parent? t with
    | none => rwa [rep_of_root hparent]
    | some u =>
      rw [hf.rep_of_parent hparent]
      exact ih u (.parent hparent) (hf.parent_mem t u hparent)

section Linking

variable {target : Ty}

theorem WellFormed.link_eq (hf : f.WellFormed) (hroot : f.parent? target = none)
    (hne : target ≠ .var v) :
    f.link v target =
      if v ∈ (f.resolve target).vars then .error (.infinite v (f.resolve target))
      else .ok (f.setParent v target) := by
  cases target with
  | var w =>
    have hnot : v ∉ (f.resolve (.var w)).vars := by
      rw [hf.resolve_of_root hroot, Ty.vars_var, VarSet.mem_singleton]
      exact fun heq => hne (congrArg Ty.var heq.symm)
    rw [if_neg hnot]
    rfl
  | _ => rfl

private theorem refines_ofLink {U : Finset Ty} (hf : f.WellFormed) (hU : f.Spans U)
    (hnode : .var v ∈ f.types) (hroot : f.parent? (.var v) = none) (htarget : target ∈ f.types)
    (htop : f.parent? target = none) (hne : target ≠ .var v) (x y : Ty) :
    (Attempt.ofLink x y f (f.link v target)).Refines f U
      (if v ∈ (f.resolve target).vars then .error (.infinite v (f.resolve target))
      else .ok (.singleton v (f.resolve target))) := by
  rw [hf.link_eq htop hne]
  split
  · exact ⟨hf, hU, fun _ _ h => h, _, rfl, .refl _⟩
  · rename_i hoccurs
    refine ⟨hf.setParent hnode hroot htarget hoccurs, ⟨fun t ht => ?_, hU.components⟩,
      fun t u hparent => ?_, rfl, ?_⟩
    · exact hU.types t (types_setParent f v target ▸ ht)
    · have hother : t ≠ .var v := by
        rintro rfl
        rw [hroot] at hparent
        cases hparent
      exact (parent?_setParent hnode target t).trans ((if_neg hother).trans hparent)
    · exact hf.resolve_setParent hnode hroot htarget hoccurs

end Linking

/-! ### The whole attempt -/

theorem cases_of_ne {x y : Ty} (hne : x ≠ y) :
    (∃ v, x = .var v) ∨ (∃ head v, x.head? = some head ∧ y = .var v) ∨ x.Clash y ∨
      ∃ a₁ a₂ b₁ b₂, x = .fn a₁ a₂ ∧ y = .fn b₁ b₂ := by
  have hclash : ∀ p q, x.head? = some p → y.head? = some q → p ≠ q → x.Clash y :=
    fun p q hp hq hpq => ⟨p, q, hp, hq, hpq⟩
  cases x with
  | var v => exact .inl ⟨v, rfl⟩
  | int =>
    cases y with
    | int => exact absurd rfl hne
    | var w => exact .inr (.inl ⟨.int, w, rfl, rfl⟩)
    | bool => exact .inr (.inr (.inl (hclash .int .bool rfl rfl nofun)))
    | fn c d => exact .inr (.inr (.inl (hclash .int .fn rfl rfl nofun)))
  | bool =>
    cases y with
    | bool => exact absurd rfl hne
    | var w => exact .inr (.inl ⟨.bool, w, rfl, rfl⟩)
    | int => exact .inr (.inr (.inl (hclash .bool .int rfl rfl nofun)))
    | fn c d => exact .inr (.inr (.inl (hclash .bool .fn rfl rfl nofun)))
  | fn a b =>
    cases y with
    | fn c d => exact .inr (.inr (.inr ⟨a, b, c, d, rfl, rfl⟩))
    | var w => exact .inr (.inl ⟨.fn, w, rfl, rfl⟩)
    | int => exact .inr (.inr (.inl (hclash .fn .int rfl rfl nofun)))
    | bool => exact .inr (.inr (.inl (hclash .fn .bool rfl rfl nofun)))

private theorem WellFormed.head?_resolve (hf : f.WellFormed) {t : Ty} {head : Ty.Head}
    (hhead : t.head? = some head) : (f.resolve t).head? = some head := by
  rw [hf.resolve_eq_bind_resolve]
  exact Ty.head?_bind _ hhead

private theorem WellFormed.resolve_ne_var (hf : f.WellFormed) {t : Ty} (hroot : f.parent? t = none)
    (hne : t ≠ .var v) : f.resolve t ≠ .var v := by
  rw [hf.resolve_eq_of_rep, rep_of_root hroot]
  cases t with
  | var w => exact hne
  | _ => nofun

theorem refines_fn {U : Finset Ty} {a₁ a₂ b₁ b₂ : Ty} {levels : Nat} (hf : f.WellFormed)
    (hne : Ty.fn a₁ a₂ ≠ .fn b₁ b₂) (ha : (f.enter a b).rep a = .fn a₁ a₂)
    (hb : (f.enter a b).rep b = .fn b₁ b₂)
    (hfirst : ∃ first, unifyWithin levels a₁ b₁ (f.enter a b) = some first ∧
      first.Refines (f.enter a b) U (((f.enter a b).resolve a₁).mgu ((f.enter a b).resolve b₁)))
    (hsecond : ∀ g : Forest, g.WellFormed → g.Spans U → (f.enter a b).Grows g →
      ∃ second, unifyWithin levels a₂ b₂ g = some second ∧
      second.Refines g U ((g.resolve a₂).mgu (g.resolve b₂))) :
    ∃ attempt, unifyWithin (levels + 1) a b f = some attempt ∧
      attempt.Refines (f.enter a b) U
        (((f.enter a b).resolve (.fn a₁ a₂)).mgu ((f.enter a b).resolve (.fn b₁ b₂))) := by
  have hg := hf.enter a b
  obtain ⟨first, hrun, hrefines⟩ := hfirst
  rw [unifyWithin_fn ha hb hne, hrun, Option.bind_some, hg.resolve_fn, hg.resolve_fn, Ty.mgu_fn]
  have hfollows := hrefines.follows
  cases hmgu : ((f.enter a b).resolve a₁).mgu ((f.enter a b).resolve b₁) with
  | error e =>
    rw [hmgu] at hfollows
    obtain ⟨e', houtcome, hagrees⟩ := hfollows
    rw [houtcome]
    exact ⟨_, rfl, hrefines.wellFormed, hrefines.spans, hrefines.grows, e', houtcome, hagrees⟩
  | ok s =>
    rw [hmgu] at hfollows
    obtain ⟨houtcome, hresolve⟩ := hfollows
    obtain ⟨second, hrun₂, hrefines₂⟩ :=
      hsecond first.forest hrefines.wellFormed hrefines.spans hrefines.grows
    rw [houtcome, hrun₂]
    refine ⟨_, rfl, hrefines₂.wellFormed, hrefines₂.spans,
      fun t u h => hrefines₂.grows t u (hrefines.grows t u h), ?_⟩
    have hfollows₂ := hrefines₂.follows
    rw [hresolve, hresolve] at hfollows₂
    dsimp only
    cases hmgu₂ : (((f.enter a b).resolve a₂).subst s).mgu (((f.enter a b).resolve b₂).subst s) with
    | error e =>
      rw [hmgu₂] at hfollows₂
      exact hfollows₂
    | ok r =>
      rw [hmgu₂] at hfollows₂
      refine ⟨hfollows₂.1, fun t => ?_⟩
      rw [Ty.subst_comp, ← hresolve t]
      exact hfollows₂.2 t

/-- The levels suffice for the same reason as in resolution, here along the first of the two types,
and the attempt does what the unifier says. -/
theorem WellFormed.exists_unifyWithin (hf : f.WellFormed) {U A : Finset Ty} {levels : Nat}
    (hU : f.Spans U) (ha : a ∈ U) (hb : b ∈ U) (hA : f.Visited U A a)
    (hcard : U.card < levels + A.card) :
    ∃ attempt, unifyWithin levels a b f = some attempt ∧
      attempt.Refines f U ((f.resolve a).mgu (f.resolve b)) := by
  induction levels generalizing f a b A with
  | zero =>
    have := Finset.card_le_card hA.subset
    omega
  | succ levels ih =>
    have hg := hf.enter a b
    have hUg := hU.enter ha hb
    have hgrows : f.Grows (f.enter a b) := fun t u h => (parent?_enter f a b t).trans h
    have hAg := hA.mono hgrows
    suffices h : ∃ attempt, unifyWithin (levels + 1) a b f = some attempt ∧
        attempt.Refines (f.enter a b) U
          (((f.enter a b).resolve ((f.enter a b).rep a)).mgu
          ((f.enter a b).resolve ((f.enter a b).rep b))) by
      obtain ⟨attempt, hrun, hrefines⟩ := h
      rw [hg.resolve_rep, hg.resolve_rep, hf.resolve_enter, hf.resolve_enter] at hrefines
      exact ⟨attempt, hrun, hrefines.of_enter hf⟩
    have hnodeA := hg.rep_mem_types (mem_types_enter.mpr (.inr (.inl rfl)))
    have hnodeB := hg.rep_mem_types (mem_types_enter.mpr (.inr (.inr rfl)))
    have hrootA := hg.parent?_rep a
    have hrootB := hg.parent?_rep b
    by_cases hsame : (f.enter a b).rep a = (f.enter a b).rep b
    · refine ⟨_, unifyWithin_same hsame, ?_⟩
      rw [hsame, Ty.mgu_self]
      exact ⟨hg, hUg, fun _ _ h => h, rfl, fun t => (Ty.subst_empty _).symm⟩
    · have hreach := reflTransGen_rep (f.enter a b) a
      rcases cases_of_ne hsame with
        ⟨v, hv⟩ | ⟨head, v, hhead, hv⟩ | hclash | ⟨a₁, a₂, b₁, b₂, hfnA, hfnB⟩
      · rw [hv] at hsame hnodeA hrootA ⊢
        refine ⟨_, unifyWithin_left hv rfl hsame, ?_⟩
        rw [hg.resolve_of_root hrootA, Ty.mgu_var_left,
          if_neg (hg.resolve_ne_var hrootB (Ne.symm hsame))]
        exact refines_ofLink hg hUg hnodeA hrootA hnodeB hrootB (Ne.symm hsame) _ _
      · rw [hv] at hsame hnodeB hrootB ⊢
        refine ⟨_, unifyWithin_right rfl hhead hv, ?_⟩
        rw [hg.resolve_of_root hrootB, Ty.mgu_var_right (hg.head?_resolve hhead)]
        exact refines_ofLink hg hUg hnodeB hrootB hnodeA hrootA hsame _ _
      · refine ⟨_, unifyWithin_clash rfl rfl hclash, hg, hUg, fun _ _ h => h, ?_⟩
        have hresolved := hclash.bind fun v => (f.enter a b).resolve (.var v)
        rw [← hg.resolve_eq_bind_resolve, ← hg.resolve_eq_bind_resolve] at hresolved
        rw [Ty.mgu_of_clash hresolved]
        exact ⟨_, rfl, rfl, nofun⟩
      · rw [hfnA] at hreach
        have hmem := hUg.mem_of_reflTransGen hg ha hreach
        have hmem' := hUg.mem_of_reflTransGen hg hb (hfnB ▸ reflTransGen_rep (f.enter a b) b)
        have hcard' : U.card < levels + (Insert.insert (Ty.fn a₁ a₂) A).card := by
          rw [Finset.card_insert_of_notMem (hAg.not_mem hg hreach)]
          omega
        rw [hfnA, hfnB] at hsame ⊢
        refine refines_fn hf hsame hfnA hfnB ?_ fun g hgwf hgspans hggrows => ?_
        · exact ih hg hUg (hUg.components _ _ hmem).1 (hUg.components _ _ hmem').1
            (hAg.insert hreach hmem (.dom a₁ a₂)) hcard'
        · exact ih hgwf hgspans (hUg.components _ _ hmem).2 (hUg.components _ _ hmem').2
            ((hAg.insert hreach hmem (.cod a₁ a₂)).mono hggrows) hcard'

/-- The bound that unification sets itself suffices, and the attempt does what the unifier says. -/
theorem WellFormed.unifyWithin_eq_some_unify (hf : f.WellFormed) (a b : Ty) :
    unifyWithin (f.weight + a.size + b.size + 1) a b f = some (f.unify a b) ∧
      (f.unify a b).Refines f (f.span [a, b]) ((f.resolve a).mgu (f.resolve b)) := by
  have hcard : (f.span [a, b]).card < f.weight + a.size + b.size + 1 + (∅ : Finset Ty).card := by
    have hle := card_span_le f [a, b]
    rw [List.flatMap_cons, List.length_append, List.flatMap_singleton, Ty.length_parts,
      Ty.length_parts] at hle
    rw [Finset.card_empty]
    omega
  have ha : a ∈ f.span [a, b] := mem_span_of_mem List.mem_cons_self
  have hb : b ∈ f.span [a, b] :=
    mem_span_of_mem (List.mem_cons_of_mem a (List.mem_singleton_self b))
  obtain ⟨attempt, hrun, hrefines⟩ :=
    hf.exists_unifyWithin (spans_span f [a, b]) ha hb (.empty f _ a) hcard
  rw [unify, hrun, Option.getD_some]
  exact ⟨rfl, hrefines⟩

theorem WellFormed.unify_refines (hf : f.WellFormed) (a b : Ty) :
    (f.unify a b).Refines f (f.span [a, b]) ((f.resolve a).mgu (f.resolve b)) :=
  (hf.unifyWithin_eq_some_unify a b).2

/-! ### Forests that requests lead to -/

/-- The forests that finding and unifying lead to, whether unification succeeds or not. -/
inductive Reachable : Forest → Prop
  | empty : Reachable ∅
  | find {f : Forest} (h : Reachable f) (t : Ty) : Reachable (f.find t).2
  | unify {f : Forest} (h : Reachable f) (a b : Ty) : Reachable (f.unify a b).forest

theorem Reachable.wellFormed (h : Reachable f) : f.WellFormed := by
  induction h with
  | empty => exact wellFormed_empty
  | find _ t ih => exact ih.register t
  | unify _ a b ih => exact (ih.unify_refines a b).wellFormed

/-- Unifying in a forest succeeds exactly when the resolved types have a most general unifier, which
is then what resolution changes by. Otherwise the errors are of one kind, and the same if a variable
would contain itself. -/
theorem unify_follows_mgu (hf : f.Reachable) (a b : Ty) :
    ((f.unify a b).outcome = .ok () ↔ ∃ s, (f.resolve a).mgu (f.resolve b) = .ok s) ∧
      (∀ s, (f.resolve a).mgu (f.resolve b) = .ok s →
        ∀ t, (f.unify a b).forest.resolve t = (f.resolve t).subst s) ∧
      ∀ e, (f.unify a b).outcome = .error e →
        ∃ e', (f.resolve a).mgu (f.resolve b) = .error e' ∧ e.kind = e'.kind ∧
          (e'.kind = .occursCheck → e = e') := by
  have hfollows := (hf.wellFormed.unify_refines a b).follows
  cases hmgu : (f.resolve a).mgu (f.resolve b) with
  | ok s =>
    rw [hmgu] at hfollows
    obtain ⟨houtcome, hresolve⟩ := hfollows
    refine ⟨⟨fun _ => ⟨s, rfl⟩, fun _ => houtcome⟩, ?_, fun e herror => ?_⟩
    · rintro s' ⟨⟩
      exact hresolve
    · rw [houtcome] at herror
      cases herror
  | error e' =>
    rw [hmgu] at hfollows
    obtain ⟨e, houtcome, hagrees⟩ := hfollows
    refine ⟨⟨fun hok => ?_, nofun⟩, nofun, fun e₁ herror => ?_⟩
    · rw [houtcome] at hok
      cases hok
    · obtain rfl : e = e₁ := Except.error.inj (houtcome.symm.trans herror)
      exact ⟨e', rfl, hagrees⟩

/-- Two links, and then a unification that failed. -/
def sample : Forest :=
  ((((∅ : Forest).unify (.var 0) (.fn (.var 1) .int)).forest.unify (.var 2) .bool).forest.unify
    (.var 2) (.fn .int .int)).forest

private theorem reachable_sample : Reachable sample := .unify (.unify (.unify .empty _ _) _ _) _ _

theorem unify_follows_mgu_sample :
    (sample.unify (.fn (.var 0) (.var 3)) (.fn (.fn (.var 2) (.var 4)) (.var 1))).outcome = .ok () ∧
      (∃ s, (sample.resolve (.fn (.var 0) (.var 3))).mgu
        (sample.resolve (.fn (.fn (.var 2) (.var 4)) (.var 1))) = .ok s ∧
        ∀ t, (sample.unify (.fn (.var 0) (.var 3))
          (.fn (.fn (.var 2) (.var 4)) (.var 1))).forest.resolve t = (sample.resolve t).subst s) ∧
      ∃ e', (sample.resolve (.var 1)).mgu (sample.resolve (.fn (.var 0) .int)) = .error e' ∧
        TypeError.infinite 1 (.fn (.fn (.var 1) .int) .int) = e' := by
  have hok : (sample.unify (.fn (.var 0) (.var 3)) (.fn (.fn (.var 2) (.var 4)) (.var 1))).outcome =
      .ok () := rfl
  have herror : (sample.unify (.var 1) (.fn (.var 0) .int)).outcome =
      .error (.infinite 1 (.fn (.fn (.var 1) .int) .int)) := rfl
  obtain ⟨hiff, hresolve, -⟩ :=
    unify_follows_mgu reachable_sample (.fn (.var 0) (.var 3))
      (.fn (.fn (.var 2) (.var 4)) (.var 1))
  obtain ⟨-, -, hfails⟩ := unify_follows_mgu reachable_sample (.var 1) (.fn (.var 0) .int)
  obtain ⟨s, hs⟩ := hiff.mp hok
  obtain ⟨e', he', hkind, hsame⟩ := hfails _ herror
  exact ⟨hok, ⟨s, hs, hresolve s hs⟩, e', he', hsame hkind.symm⟩

end Forest

end HindleyMilner
