import HindleyMilner.Forest
import HindleyMilner.Proofs.Substitution
import Mathlib.Data.Finset.Card
import Mathlib.Logic.Relation

/-!
# Resolution in well-formed forests

A type stands on its parent and, if it is a function, on its components. A forest is well-formed
when only variables have parents, parents are nodes, and no type stands on itself; the last is said
by a rank that falls with every step.

In a well-formed forest the bounds on climbing and resolving suffice, and resolution is what it is
meant to be: it replaces each variable by the one function on variables that leaves roots alone and
takes a variable with a parent to what its parent resolves to (`resolve_eq_bind`). From this it
follows what the operations do to resolution. Registering changes nothing, and hanging a root below
a type substitutes for it (`resolve_setParent`).
-/

namespace HindleyMilner.Forest

variable {f g : Forest} {t u : Ty} {v : Nat}

/-! ### Nodes and parents -/

def types (f : Forest) : List Ty := f.nodes.map Node.ty

theorem node?_eq_none_iff : f.node? t = none ↔ t ∉ f.types := by
  rw [node?, List.find?_eq_none, types, List.mem_map]
  constructor
  · rintro h ⟨node, hnode, rfl⟩
    exact h node hnode (decide_eq_true rfl)
  · intro h node hnode heq
    exact h ⟨node, hnode, of_decide_eq_true heq⟩

theorem mem_types_of_parent? (h : f.parent? t = some u) : t ∈ f.types := by
  by_contra hnot
  rw [parent?, node?_eq_none_iff.mpr hnot] at h
  cases h

theorem mem_types_register : u ∈ (f.register t).types ↔ u ∈ f.types ∨ u = t := by
  rw [register]
  cases hnode : f.node? t with
  | some node =>
    have hmem : t ∈ f.types := by
      by_contra hnot
      rw [node?_eq_none_iff.mpr hnot] at hnode
      cases hnode
    exact ⟨.inl, fun h => h.elim id fun heq => heq ▸ hmem⟩
  | none => simp [types]

@[simp] theorem parent?_register (f : Forest) (t u : Ty) :
    (f.register t).parent? u = f.parent? u := by
  rw [register]
  cases hnode : f.node? t with
  | some node => rfl
  | none =>
    dsimp only
    rw [parent?, node?, List.find?_append, parent?, node?]
    cases hfind : f.nodes.find? (·.ty = u) with
    | some node => rfl
    | none =>
      rw [Option.none_or, List.find?_singleton]
      split <;> rfl

@[simp] theorem types_setParent (f : Forest) (v : Nat) (target : Ty) :
    (f.setParent v target).types = f.types := by
  rw [types, setParent, List.map_map, types]
  refine List.map_congr_left fun node _ => ?_
  rw [Function.comp_apply]
  split <;> rfl

theorem parent?_setParent (hnode : .var v ∈ f.types) (target u : Ty) :
    (f.setParent v target).parent? u = if u = .var v then some target else f.parent? u := by
  have htypes : ∀ node : Node,
      (if node.ty = .var v then { node with parent := some target } else node).ty = node.ty := by
    intro node
    split <;> rfl
  have hfind : (f.setParent v target).node? u =
      (f.node? u).map fun node =>
        if node.ty = .var v then { node with parent := some target } else node := by
    rw [node?, setParent, List.find?_map, node?]
    refine congrArg (Option.map _) (congrArg (List.find? · f.nodes) ?_)
    funext node
    rw [Function.comp_apply, htypes]
  rw [parent?, hfind, parent?]
  cases hu : f.node? u with
  | none =>
    have hne : u ≠ .var v := fun heq => node?_eq_none_iff.mp hu (heq ▸ hnode)
    rw [if_neg hne]
    rfl
  | some node =>
    have hfound : f.nodes.find? (fun node => decide (node.ty = u)) = some node := hu
    have hty : node.ty = u := by simpa using List.find?_some hfound
    rw [Option.map_some, Option.bind_some, Option.bind_some, hty]
    split <;> rfl

/-! ### Standing on -/

/-- `u` is the parent of `t` or a component of it. -/
inductive Step (f : Forest) : Ty → Ty → Prop
  | parent {t u : Ty} (h : f.parent? t = some u) : Step f t u
  | dom (a b : Ty) : Step f (.fn a b) a
  | cod (a b : Ty) : Step f (.fn a b) b

structure WellFormed (f : Forest) : Prop where
  var_of_parent : ∀ t u, f.parent? t = some u → ∃ v, t = .var v
  parent_mem : ∀ t u, f.parent? t = some u → u ∈ f.types
  ranked : ∃ rank : Ty → Nat, ∀ t u, f.Step t u → rank u < rank t

theorem wellFormed_empty : WellFormed ∅ := by
  refine ⟨fun t u h => (nomatch h), fun t u h => (nomatch h), Ty.size, fun t u h => ?_⟩
  cases h with
  | parent h => nomatch h
  | dom a b =>
    rw [Ty.size]
    omega
  | cod a b =>
    rw [Ty.size]
    omega

/-- Every link of `f` is one of `g`. -/
def Grows (f g : Forest) : Prop := ∀ t u, f.parent? t = some u → g.parent? t = some u

private theorem Grows.step (h : f.Grows g) (hstep : f.Step t u) : g.Step t u := by
  cases hstep with
  | parent hparent => exact .parent (h _ _ hparent)
  | dom => exact .dom _ _
  | cod => exact .cod _ _

namespace WellFormed

theorem induction (hf : f.WellFormed) {P : Ty → Prop} (h : ∀ t, (∀ u, f.Step t u → P u) → P t)
    (t : Ty) : P t := by
  obtain ⟨rank, hrank⟩ := hf.ranked
  exact (InvImage.wf rank Nat.lt_wfRel.wf).induction t fun t ih => h t fun u hu =>
    ih u (hrank t u hu)

theorem not_transGen_self (hf : f.WellFormed) (t : Ty) : ¬ Relation.TransGen f.Step t t := by
  obtain ⟨rank, hrank⟩ := hf.ranked
  have hfalls : ∀ u, Relation.TransGen f.Step t u → rank u < rank t := by
    intro u hu
    induction hu with
    | single hstep => exact hrank _ _ hstep
    | tail _ hstep ih => exact Nat.lt_trans (hrank _ _ hstep) ih
  exact fun h => Nat.lt_irrefl _ (hfalls t h)

theorem parent?_eq_none (hf : f.WellFormed) (hne : ∀ v, t ≠ .var v) : f.parent? t = none := by
  cases h : f.parent? t with
  | none => rfl
  | some u =>
    obtain ⟨v, heq⟩ := hf.var_of_parent t u h
    exact absurd heq (hne v)

end WellFormed

/-! ### Counting the types that were left behind -/

/-- All of `A` is among `U` and strictly above `t`. -/
structure Visited (f : Forest) (U A : Finset Ty) (t : Ty) : Prop where
  subset : A ⊆ U
  above : ∀ p ∈ A, Relation.TransGen f.Step p t

namespace Visited

variable {U A : Finset Ty}

theorem empty (f : Forest) (U : Finset Ty) (t : Ty) : f.Visited U ∅ t :=
  ⟨Finset.empty_subset U, fun p hp => absurd hp (Finset.notMem_empty p)⟩

theorem mono (h : f.Visited U A t) (hgrows : f.Grows g) : g.Visited U A t :=
  ⟨h.subset, fun p hp => Relation.TransGen.mono (r := f.Step) (p := g.Step)
    (fun _ _ hstep => hgrows.step hstep) _ _ (h.above p hp)⟩

/-- A type on the way down is new, because nothing stands on itself. -/
theorem not_mem (h : f.Visited U A t) (hf : f.WellFormed) (hu : Relation.ReflTransGen f.Step t u) :
    u ∉ A :=
  fun hmem => hf.not_transGen_self u ((h.above u hmem).trans_left hu)

theorem insert (h : f.Visited U A t) (hu : Relation.ReflTransGen f.Step t u) (hmem : u ∈ U) {w : Ty}
    (hstep : f.Step u w) :
    f.Visited U (Insert.insert u A) w := by
  refine ⟨Finset.insert_subset hmem h.subset, fun p hp => ?_⟩
  rcases Finset.mem_insert.mp hp with rfl | hp
  · exact .single hstep
  · exact ((h.above p hp).trans_left hu).tail hstep

private theorem card_lt (h : f.Visited U A t) (hf : f.WellFormed)
    (hu : Relation.ReflTransGen f.Step t u) (hmem : u ∈ U) : A.card < U.card :=
  Finset.card_lt_card (Finset.ssubset_iff_of_subset h.subset |>.mpr ⟨u, hmem, h.not_mem hf hu⟩)

end Visited

/-! ### Representatives -/

theorem climb_of_root (hroot : f.parent? t = none) (steps : Nat) : f.climb steps t = t := by
  cases steps with
  | zero => rfl
  | succ steps => rw [climb, hroot]

theorem climb_of_parent (hparent : f.parent? t = some u) (steps : Nat) :
    f.climb (steps + 1) t = f.climb steps u := by
  rw [climb, hparent]

private theorem climb_succ_of_root {steps : Nat} (hroot : f.parent? (f.climb steps t) = none) :
    f.climb (steps + 1) t = f.climb steps t := by
  induction steps generalizing t with
  | zero => exact climb_of_root hroot 1
  | succ steps ih =>
    cases hparent : f.parent? t with
    | none => rw [climb_of_root hparent, climb_of_root hparent]
    | some u =>
      rw [climb_of_parent hparent] at hroot ⊢
      rw [climb_of_parent hparent, ih hroot]

private theorem reflTransGen_climb (f : Forest) (steps : Nat) (t : Ty) :
    Relation.ReflTransGen f.Step t (f.climb steps t) := by
  induction steps generalizing t with
  | zero => exact .refl
  | succ steps ih =>
    cases hparent : f.parent? t with
    | none =>
      rw [climb_of_root hparent]
    | some u =>
      rw [climb_of_parent hparent]
      exact .head (.parent hparent) (ih u)

theorem reflTransGen_rep (f : Forest) (t : Ty) : Relation.ReflTransGen f.Step t (f.rep t) :=
  reflTransGen_climb f f.size t

theorem rep_of_root (hroot : f.parent? t = none) : f.rep t = t := climb_of_root hroot f.size

namespace WellFormed

private theorem parent?_climb (hf : f.WellFormed) {steps : Nat} {A : Finset Ty}
    (hA : f.Visited f.types.toFinset A t) (hcard : f.types.toFinset.card ≤ steps + A.card) :
    f.parent? (f.climb steps t) = none := by
  induction steps generalizing t A with
  | zero =>
    cases hparent : f.parent? (f.climb 0 t) with
    | none => rfl
    | some u =>
      have hlt := hA.card_lt hf .refl (List.mem_toFinset.mpr (mem_types_of_parent? hparent))
      omega
  | succ steps ih =>
    cases hparent : f.parent? t with
    | none => rwa [climb_of_root hparent]
    | some u =>
      have hmem : t ∈ f.types.toFinset := List.mem_toFinset.mpr (mem_types_of_parent? hparent)
      rw [climb_of_parent hparent]
      refine ih (hA.insert .refl hmem (.parent hparent)) ?_
      rw [Finset.card_insert_of_notMem (hA.not_mem hf .refl)]
      omega

theorem parent?_rep (hf : f.WellFormed) (t : Ty) : f.parent? (f.rep t) = none := by
  refine hf.parent?_climb (.empty f _ t) ?_
  rw [Finset.card_empty, Nat.add_zero]
  exact (List.toFinset_card_le _).trans (List.length_map _).le

theorem rep_of_parent (hf : f.WellFormed) (hparent : f.parent? t = some u) : f.rep t = f.rep u := by
  have hroot := hf.parent?_rep t
  obtain ⟨steps, hsteps⟩ : ∃ steps, f.size = steps + 1 := by
    have hpos : 0 < f.types.length := List.length_pos_of_mem (mem_types_of_parent? hparent)
    rw [types, List.length_map] at hpos
    exact ⟨f.size - 1, (Nat.sub_add_cancel hpos).symm⟩
  rw [rep, hsteps, climb_of_parent hparent] at hroot
  rw [rep, hsteps, climb_of_parent hparent, rep, hsteps, climb_succ_of_root hroot]

end WellFormed

/-! ### The types that a forest spans -/

/-- A set with all nodes in it and with the components of its functions. -/
structure Spans (f : Forest) (U : Finset Ty) : Prop where
  types : ∀ t ∈ f.types, t ∈ U
  components : ∀ a b, .fn a b ∈ U → a ∈ U ∧ b ∈ U

theorem Spans.mem_of_reflTransGen {U : Finset Ty} (hU : f.Spans U) (hf : f.WellFormed) (ht : t ∈ U)
    (hu : Relation.ReflTransGen f.Step t u) : u ∈ U := by
  induction hu with
  | refl => exact ht
  | tail _ hstep ih =>
    cases hstep with
    | parent hparent => exact hU.types _ (hf.parent_mem _ _ hparent)
    | dom => exact (hU.components _ _ ih).1
    | cod => exact (hU.components _ _ ih).2

end HindleyMilner.Forest

namespace HindleyMilner.Ty

/-- The type and all that it is made of, once for each occurrence. -/
def parts : Ty → List Ty
  | int => [int]
  | bool => [bool]
  | var v => [var v]
  | fn a b => fn a b :: (a.parts ++ b.parts)

theorem length_parts (t : Ty) : t.parts.length = t.size := by
  induction t with
  | fn a b iha ihb => rw [parts, List.length_cons, List.length_append, iha, ihb, size]
  | _ => rfl

private theorem self_mem_parts (t : Ty) : t ∈ t.parts := by
  cases t <;> exact List.mem_cons_self

private theorem components_mem_parts {t a b : Ty} (h : fn a b ∈ t.parts) :
    a ∈ t.parts ∧ b ∈ t.parts := by
  induction t with
  | fn c d ihc ihd =>
    rw [parts, List.mem_cons, List.mem_append] at h
    rw [parts]
    simp only [List.mem_cons, List.mem_append]
    rcases h with heq | hin | hin
    · obtain ⟨rfl, rfl⟩ := Ty.fn.inj heq
      exact ⟨.inr (.inl (self_mem_parts a)), .inr (.inr (self_mem_parts b))⟩
    · exact ⟨.inr (.inl (ihc hin).1), .inr (.inl (ihc hin).2)⟩
    · exact ⟨.inr (.inr (ihd hin).1), .inr (.inr (ihd hin).2)⟩
  | _ => nomatch List.mem_singleton.mp h

end HindleyMilner.Ty

namespace HindleyMilner.Forest

variable {f g : Forest} {t u : Ty} {v : Nat}

/-- The parts of all nodes and of the listed types. -/
def span (f : Forest) (ts : List Ty) : Finset Ty := ((f.types ++ ts).flatMap Ty.parts).toFinset

theorem mem_span {ts : List Ty} : u ∈ f.span ts ↔ ∃ t, (t ∈ f.types ∨ t ∈ ts) ∧ u ∈ t.parts := by
  rw [span, List.mem_toFinset, List.mem_flatMap]
  simp only [List.mem_append]

theorem mem_span_of_mem {ts : List Ty} (ht : t ∈ ts) : t ∈ f.span ts :=
  mem_span.mpr ⟨t, .inr ht, t.self_mem_parts⟩

theorem spans_span (f : Forest) (ts : List Ty) : f.Spans (f.span ts) := by
  refine ⟨fun t ht => mem_span.mpr ⟨t, .inl ht, t.self_mem_parts⟩, fun a b h => ?_⟩
  obtain ⟨t, ht, hin⟩ := mem_span.mp h
  exact ⟨mem_span.mpr ⟨t, ht, (Ty.components_mem_parts hin).1⟩,
    mem_span.mpr ⟨t, ht, (Ty.components_mem_parts hin).2⟩⟩

theorem card_span_le (f : Forest) (ts : List Ty) :
    (f.span ts).card ≤ f.weight + (ts.flatMap Ty.parts).length := by
  have hnodes : ∀ nodes : List Node, ((nodes.map Node.ty).flatMap Ty.parts).length =
      nodes.foldr (fun node total => node.ty.size + total) 0 := by
    intro nodes
    induction nodes with
    | nil => rfl
    | cons node rest ih =>
      rw [List.map_cons, List.flatMap_cons, List.length_append, ih, Ty.length_parts,
        List.foldr_cons]
  refine (List.toFinset_card_le _).trans ?_
  rw [List.flatMap_append, List.length_append, types, hnodes, weight]

/-! ### Resolution -/

namespace WellFormed

/-- The levels suffice: each function on the way down is new to `A`, which would outgrow `U` before
they are used up. -/
theorem exists_resolveWithin (hf : f.WellFormed) {U : Finset Ty} (hU : f.Spans U) {levels : Nat}
    {A : Finset Ty} (ht : t ∈ U) (hA : f.Visited U A t) (hcard : U.card < levels + A.card) :
    ∃ r, f.resolveWithin levels t = some r := by
  induction levels generalizing t A with
  | zero =>
    have := Finset.card_le_card hA.subset
    omega
  | succ levels ih =>
    have hreach := reflTransGen_rep f t
    rw [resolveWithin]
    cases hrep : f.rep t with
    | int | bool | var _ => exact ⟨_, rfl⟩
    | fn a b =>
      rw [hrep] at hreach
      have hmem := hU.mem_of_reflTransGen hf ht hreach
      have hcard' : U.card < levels + (Insert.insert (Ty.fn a b) A).card := by
        rw [Finset.card_insert_of_notMem (hA.not_mem hf hreach)]
        omega
      obtain ⟨dom, hdom⟩ := ih (hU.components a b hmem).1 (hA.insert hreach hmem (.dom a b)) hcard'
      obtain ⟨cod, hcod⟩ := ih (hU.components a b hmem).2 (hA.insert hreach hmem (.cod a b)) hcard'
      refine ⟨.fn dom cod, ?_⟩
      dsimp only
      rw [hdom, hcod]
      rfl

theorem resolveWithin_eq_some_resolve (hf : f.WellFormed) (t : Ty) :
    f.resolveWithin (f.weight + t.size + 1) t = some (f.resolve t) := by
  have hcard : (f.span [t]).card < f.weight + t.size + 1 + (∅ : Finset Ty).card := by
    have hle := card_span_le f [t]
    rw [List.flatMap_singleton, Ty.length_parts] at hle
    rw [Finset.card_empty]
    omega
  obtain ⟨r, hr⟩ :=
    hf.exists_resolveWithin (spans_span f [t]) (mem_span_of_mem (List.mem_singleton_self t))
      (.empty f _ t) hcard
  rw [resolve, hr, Option.getD_some]

end WellFormed

theorem resolveWithin_mono {levels more : Nat} {r : Ty} (h : f.resolveWithin levels t = some r)
    (hle : levels ≤ more) :
    f.resolveWithin more t = some r := by
  induction levels generalizing t r more with
  | zero => cases h
  | succ levels ih =>
    obtain ⟨more, rfl⟩ : ∃ k, more = k + 1 := ⟨more - 1, by omega⟩
    rw [resolveWithin] at h ⊢
    cases hrep : f.rep t with
    | int | bool | var _ => rwa [hrep] at h
    | fn a b =>
      rw [hrep] at h
      obtain ⟨dom, hdom, hrest⟩ := Option.bind_eq_some_iff.mp h
      obtain ⟨cod, hcod, hpure⟩ := Option.bind_eq_some_iff.mp hrest
      dsimp only
      rw [ih hdom (by omega), ih hcod (by omega)]
      exact hpure

namespace WellFormed

private theorem resolve_eq_of_resolveWithin (hf : f.WellFormed) {levels : Nat} {r : Ty}
    (h : f.resolveWithin levels t = some r) : f.resolve t = r := by
  have hmore := resolveWithin_mono h (Nat.le_max_left levels (f.weight + t.size + 1))
  have hfull :=
    resolveWithin_mono (hf.resolveWithin_eq_some_resolve t)
      (Nat.le_max_right levels (f.weight + t.size + 1))
  exact Option.some.inj (hfull.symm.trans hmore)

theorem resolve_eq_of_rep (hf : f.WellFormed) (t : Ty) :
    f.resolve t = match f.rep t with
      | .fn a b => .fn (f.resolve a) (f.resolve b)
      | r => r := by
  have hfull := hf.resolveWithin_eq_some_resolve t
  rw [resolveWithin] at hfull
  cases hrep : f.rep t with
  | int | bool | var _ =>
    rw [hrep] at hfull
    exact (Option.some.inj hfull).symm
  | fn a b =>
    rw [hrep] at hfull
    obtain ⟨dom, hdom, hrest⟩ := Option.bind_eq_some_iff.mp hfull
    obtain ⟨cod, hcod, hpure⟩ := Option.bind_eq_some_iff.mp hrest
    dsimp only
    rw [hf.resolve_eq_of_resolveWithin hdom, hf.resolve_eq_of_resolveWithin hcod]
    exact (Option.some.inj hpure).symm

theorem resolve_int (hf : f.WellFormed) : f.resolve .int = .int := by
  rw [hf.resolve_eq_of_rep, rep_of_root (hf.parent?_eq_none (t := .int) nofun)]

theorem resolve_bool (hf : f.WellFormed) : f.resolve .bool = .bool := by
  rw [hf.resolve_eq_of_rep, rep_of_root (hf.parent?_eq_none (t := .bool) nofun)]

theorem resolve_fn (hf : f.WellFormed) (a b : Ty) :
    f.resolve (.fn a b) = .fn (f.resolve a) (f.resolve b) := by
  rw [hf.resolve_eq_of_rep, rep_of_root (hf.parent?_eq_none (t := .fn a b) nofun)]

theorem resolve_of_root (hf : f.WellFormed) (hroot : f.parent? (.var v) = none) :
    f.resolve (.var v) = .var v := by
  rw [hf.resolve_eq_of_rep, rep_of_root hroot]

theorem resolve_of_parent (hf : f.WellFormed) (hparent : f.parent? t = some u) :
    f.resolve t = f.resolve u := by
  rw [hf.resolve_eq_of_rep t, hf.rep_of_parent hparent, ← hf.resolve_eq_of_rep u]

theorem resolve_rep (hf : f.WellFormed) (t : Ty) : f.resolve (f.rep t) = f.resolve t := by
  rw [hf.resolve_eq_of_rep (f.rep t), rep_of_root (hf.parent?_rep t), ← hf.resolve_eq_of_rep t]

/-! ### Resolution as the solution of the links -/

/-- The only function on variables that leaves roots alone and agrees with the links. -/
theorem resolve_eq_bind (hf : f.WellFormed) {h : Nat → Ty}
    (hroot : ∀ v, f.parent? (.var v) = none → h v = .var v)
    (hlink : ∀ v u, f.parent? (.var v) = some u → h v = u.bind h) (t : Ty) :
    f.resolve t = t.bind h := by
  induction t using hf.induction with
  | h t ih =>
    cases t with
    | int => exact hf.resolve_int
    | bool => exact hf.resolve_bool
    | var v =>
      cases hparent : f.parent? (.var v) with
      | none => rw [hf.resolve_of_root hparent, Ty.bind, hroot v hparent]
      | some u =>
        rw [hf.resolve_of_parent hparent, ih u (.parent hparent), Ty.bind, hlink v u hparent]
    | fn a b => rw [hf.resolve_fn, ih a (.dom a b), ih b (.cod a b), Ty.bind]

theorem resolve_eq_bind_resolve (hf : f.WellFormed) (t : Ty) :
    f.resolve t = t.bind fun v => f.resolve (.var v) := by
  induction t with
  | int => exact hf.resolve_int
  | bool => exact hf.resolve_bool
  | var v => rfl
  | fn a b iha ihb => rw [hf.resolve_fn, iha, ihb, Ty.bind]

theorem root_of_mem_vars_resolve (hf : f.WellFormed) {w : Nat} (hw : w ∈ (f.resolve t).vars) :
    f.parent? (.var w) = none := by
  induction t using hf.induction with
  | h t ih =>
    cases t with
    | int =>
      rw [hf.resolve_int] at hw
      exact absurd hw (VarSet.not_mem_empty w)
    | bool =>
      rw [hf.resolve_bool] at hw
      exact absurd hw (VarSet.not_mem_empty w)
    | var v =>
      cases hparent : f.parent? (.var v) with
      | none =>
        rw [hf.resolve_of_root hparent, Ty.vars_var, VarSet.mem_singleton] at hw
        exact hw ▸ hparent
      | some u =>
        rw [hf.resolve_of_parent hparent] at hw
        exact ih u (.parent hparent) hw
    | fn a b =>
      rw [hf.resolve_fn, Ty.vars_fn, VarSet.mem_union] at hw
      exact hw.elim (ih a (.dom a b)) (ih b (.cod a b))

theorem resolve_resolve (hf : f.WellFormed) (t : Ty) : f.resolve (f.resolve t) = f.resolve t := by
  rw [hf.resolve_eq_bind_resolve (f.resolve t)]
  exact Ty.bind_eq_self fun w hw => hf.resolve_of_root (hf.root_of_mem_vars_resolve hw)

private theorem mem_vars_resolve_of_step (hf : f.WellFormed) (hstep : f.Step t u) {w : Nat}
    (hw : w ∈ (f.resolve u).vars) : w ∈ (f.resolve t).vars := by
  cases hstep with
  | parent hparent => rwa [hf.resolve_of_parent hparent]
  | dom =>
    rw [hf.resolve_fn, Ty.vars_fn, VarSet.mem_union]
    exact .inl hw
  | cod =>
    rw [hf.resolve_fn, Ty.vars_fn, VarSet.mem_union]
    exact .inr hw

/-! ### Forests with the same links -/

section Congruence

variable {P : Ty → Prop}

/-- Representatives depend only on the parents that are met on the way up. -/
theorem rep_congr (hf : f.WellFormed) (hg : g.WellFormed)
    (hclosed : ∀ t u, P t → f.parent? t = some u → P u)
    (hagree : ∀ t, P t → g.parent? t = f.parent? t) (ht : P t) : g.rep t = f.rep t := by
  induction t using hf.induction with
  | h t ih =>
    cases hparent : f.parent? t with
    | none => rw [rep_of_root hparent, rep_of_root ((hagree t ht).trans hparent)]
    | some u =>
      rw [hf.rep_of_parent hparent, hg.rep_of_parent ((hagree t ht).trans hparent)]
      exact ih u (.parent hparent) (hclosed t u ht hparent)

/-- Resolution depends only on the parents that are met on the way up and down. -/
theorem resolve_congr (hf : f.WellFormed) (hg : g.WellFormed)
    (hclosed : ∀ t u, P t → f.Step t u → P u) (hagree : ∀ t, P t → g.parent? t = f.parent? t)
    (ht : P t) : g.resolve t = f.resolve t := by
  induction t using hf.induction with
  | h t ih =>
    cases t with
    | int => rw [hf.resolve_int, hg.resolve_int]
    | bool => rw [hf.resolve_bool, hg.resolve_bool]
    | var v =>
      cases hparent : f.parent? (.var v) with
      | none => rw [hf.resolve_of_root hparent, hg.resolve_of_root ((hagree _ ht).trans hparent)]
      | some u =>
        rw [hf.resolve_of_parent hparent, hg.resolve_of_parent ((hagree _ ht).trans hparent)]
        exact ih u (.parent hparent) (hclosed _ u ht (.parent hparent))
    | fn a b =>
      rw [hf.resolve_fn, hg.resolve_fn, ih a (.dom a b) (hclosed _ a ht (.dom a b)),
        ih b (.cod a b) (hclosed _ b ht (.cod a b))]

end Congruence

/-! ### Registering -/

theorem register (hf : f.WellFormed) (t : Ty) : (f.register t).WellFormed := by
  obtain ⟨rank, hrank⟩ := hf.ranked
  refine ⟨fun a b h => ?_, fun a b h => ?_, rank, fun a b h => hrank a b ?_⟩
  · rw [parent?_register] at h
    exact hf.var_of_parent a b h
  · rw [parent?_register] at h
    exact mem_types_register.mpr (.inl (hf.parent_mem a b h))
  · cases h with
    | parent h => exact .parent ((parent?_register f t _).symm.trans h)
    | dom => exact .dom _ _
    | cod => exact .cod _ _

theorem rep_register (hf : f.WellFormed) (t u : Ty) : (f.register t).rep u = f.rep u :=
  hf.rep_congr (P := fun _ => True) (hf.register t) (fun _ _ _ _ => trivial)
    (fun w _ => parent?_register f t w) trivial

theorem resolve_register (hf : f.WellFormed) (t u : Ty) : (f.register t).resolve u = f.resolve u :=
  hf.resolve_congr (P := fun _ => True) (hf.register t) (fun _ _ _ _ => trivial)
    (fun w _ => parent?_register f t w) trivial

/-! ### Linking -/

section Linking

variable {target : Ty}

/-- A root may be hung below a node that does not resolve to something with the root in it. -/
theorem setParent (hf : f.WellFormed) (hnode : .var v ∈ f.types) (hroot : f.parent? (.var v) = none)
    (htarget : target ∈ f.types) (hoccurs : v ∉ (f.resolve target).vars) :
    (f.setParent v target).WellFormed := by
  obtain ⟨rank, hrank⟩ := hf.ranked
  have hparent := parent?_setParent hnode target
  refine ⟨fun t u h => ?_, fun t u h => ?_, ?_⟩
  · rw [hparent] at h
    split at h
    · exact ⟨v, by assumption⟩
    · exact hf.var_of_parent t u h
  · rw [hparent] at h
    rw [types_setParent]
    split at h
    · exact Option.some.inj h ▸ htarget
    · exact hf.parent_mem t u h
  · -- Everything that resolves to a type with `v` in it moves above `target`; nothing that `target`
    -- stands on does.
    refine ⟨fun t => if v ∈ (f.resolve t).vars then rank t + rank target + 1 else rank t,
      fun t u hstep => ?_⟩
    have hold : f.Step t u → (if v ∈ (f.resolve u).vars then rank u + rank target + 1 else rank u) <
        if v ∈ (f.resolve t).vars then rank t + rank target + 1 else rank t := by
      intro hstep
      have hlt := hrank t u hstep
      by_cases hu : v ∈ (f.resolve u).vars
      · rw [if_pos hu, if_pos (hf.mem_vars_resolve_of_step hstep hu)]
        omega
      · rw [if_neg hu]
        split <;> omega
    cases hstep with
    | parent h =>
      rw [hparent] at h
      split at h
      · rename_i heq
        obtain rfl := Option.some.inj h
        dsimp only
        rw [heq, if_neg hoccurs, hf.resolve_of_root hroot, Ty.vars_var,
          if_pos (VarSet.mem_singleton.mpr rfl)]
        omega
      · exact hold (.parent h)
    | dom => exact hold (.dom _ _)
    | cod => exact hold (.cod _ _)

theorem resolve_setParent (hf : f.WellFormed) (hnode : .var v ∈ f.types)
    (hroot : f.parent? (.var v) = none) (htarget : target ∈ f.types)
    (hoccurs : v ∉ (f.resolve target).vars) (t : Ty) :
    (f.setParent v target).resolve t = (f.resolve t).subst (.singleton v (f.resolve target)) := by
  have hparent := parent?_setParent hnode target
  let h : Nat → Ty := fun w => (f.resolve (.var w)).subst (.singleton v (f.resolve target))
  have hbind : ∀ u : Ty, u.bind h = (f.resolve u).subst (.singleton v (f.resolve target)) := by
    intro u
    rw [hf.resolve_eq_bind_resolve u, Ty.subst, Ty.bind_bind]
    rfl
  rw [← hbind t]
  refine (hf.setParent hnode hroot htarget hoccurs).resolve_eq_bind (fun w hw => ?_)
    (fun w u hw => ?_) t
  · rw [hparent] at hw
    split at hw
    · cases hw
    · rename_i hne
      change (f.resolve (.var w)).subst _ = .var w
      rw [hf.resolve_of_root hw]
      refine (Subst.image_singleton _ _ _).trans (if_neg fun heq => hne (congrArg Ty.var heq.symm))
  · rw [hparent] at hw
    rw [hbind u]
    split at hw
    · rename_i heq
      obtain rfl := Ty.var.inj heq
      obtain rfl := Option.some.inj hw
      change (f.resolve (.var w)).subst _ = _
      have hfix : (f.resolve target).subst (.singleton w (f.resolve target)) =
          f.resolve target := by
        refine Ty.subst_eq_self fun x hx => Subst.image_of_not_mem fun hmem => ?_
        exact hoccurs (Subst.mem_singleton.mp hmem ▸ hx)
      rw [hfix, hf.resolve_of_root hroot]
      exact (Subst.image_singleton _ _ _).trans (if_pos rfl)
    · change (f.resolve (.var w)).subst _ = _
      rw [hf.resolve_of_parent hw]

end Linking

end WellFormed

end HindleyMilner.Forest
