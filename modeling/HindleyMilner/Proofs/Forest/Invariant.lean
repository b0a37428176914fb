import HindleyMilner.Proofs.Forest.Registry

/-!
# The invariant of a registry

What holds of every registry that requests lead to, of those that a failed unification has left
halfway too. The index is the inverse of the row of nodes. Parents are in the row, only variables
have one, and going up never leads back; hence a class has at most one member that is not a
variable, and every member finds it. Beyond the links, no variable is reached from itself through
links and components, so nothing resolves to a function that contains it.

That the index and the row stay in step was shown operation by operation (`Coherent`). The rest is
known of the forest that the registry stands for, and is read here at the positions. The forests of
these registries are those that inference works on (`Forest.Reachable.exists_registry`), and every
operation has the same result on both (`Registry.Reachable.operations_eq`).
-/

namespace HindleyMilner

theorem Forest.WellFormed.rep_of_not_isVar {f : Forest} {t : Ty} (hf : f.WellFormed)
    (ht : t.isVar = false) :
    f.rep t = t := by
  apply Forest.rep_of_root
  apply hf.parent?_eq_none
  intro v heq
  subst heq
  cases ht

namespace Registry

variable {r : Registry} {t u : Ty} {i j p : Nat}

/-! ### Links and classes -/

/-- The node at position `p` is the parent of the one at position `i`. -/
def Link (r : Registry) (i p : Nat) : Prop := r.parentAt? i = some p

/-- Links, followed in either direction, lead from one position to the other: the two
are in one class. -/
def Joined (r : Registry) : Nat → Nat → Prop := Relation.EqvGen r.Link

/-- `u` is the type at the parent of `t`, or a component of `t`. -/
inductive Step (r : Registry) : Ty → Ty → Prop
  | parent {i p : Nat} {t u : Ty} (hi : r.typeAt? i = some t) (hlink : r.Link i p)
      (hp : r.typeAt? p = some u) : Step r t u
  | dom (a b : Ty) : Step r (.fn a b) a
  | cod (a b : Ty) : Step r (.fn a b) b

theorem Link.exists_typeAt? (hlink : r.Link i p) : ∃ t, r.typeAt? i = some t := by
  obtain ⟨node, hnode, -⟩ := Option.bind_eq_some_iff.mp hlink
  exact ⟨node.ty, typeAt?_eq_some.mpr ⟨node, hnode, rfl⟩⟩

namespace Coherent

private theorem parent?_of_link (h : r.Coherent) (hlink : r.Link i p) (hi : r.typeAt? i = some t)
    (hp : r.typeAt? p = some u) :
    r.forest.parent? t = some u := by
  rw [h.parent?_forest hi, show r.parentAt? i = some p from hlink, Option.bind_some, hp]

private theorem step_forest (h : r.Coherent) (hstep : r.Step t u) : r.forest.Step t u := by
  cases hstep with
  | parent hi hlink hp => exact .parent (h.parent?_of_link hlink hi hp)
  | dom => exact .dom _ _
  | cod => exact .cod _ _

/-- A way up through the positions is one through their types. -/
theorem exists_transGen (h : r.Coherent) (hup : Relation.TransGen r.Link i j)
    (hi : r.typeAt? i = some t) :
    ∃ u, r.typeAt? j = some u ∧ Relation.TransGen r.Step t u := by
  induction hup with
  | single hlink =>
    obtain ⟨u, hu⟩ := h.exists_parent hlink
    exact ⟨u, hu, .single (.parent hi hlink hu)⟩
  | tail _ hlink ih =>
    obtain ⟨w, hw, hsteps⟩ := ih
    obtain ⟨u, hu⟩ := h.exists_parent hlink
    exact ⟨u, hu, hsteps.tail (.parent hw hlink hu)⟩

theorem rep_of_joined (h : r.Coherent) (hf : r.forest.WellFormed) (hjoined : r.Joined i j) :
    (r.typeAt? i).map r.forest.rep = (r.typeAt? j).map r.forest.rep := by
  induction hjoined with
  | rel i p hlink =>
    obtain ⟨t, hi⟩ := hlink.exists_typeAt?
    obtain ⟨u, hp⟩ := h.exists_parent hlink
    rw [hi, hp, Option.map_some, Option.map_some, hf.rep_of_parent (h.parent?_of_link hlink hi hp)]
  | refl i => rfl
  | symm i j _ ih => exact ih.symm
  | trans i j k _ _ ih ih' => exact ih.trans ih'

theorem rep_of_joined_not_isVar (h : r.Coherent) (hf : r.forest.WellFormed) (hjoined : r.Joined i j)
    (hi : r.typeAt? i = some t) (hj : r.typeAt? j = some u) (hu : u.isVar = false) :
    r.forest.rep t = u := by
  have hreps := h.rep_of_joined hf hjoined
  rw [hi, hj, Option.map_some, Option.map_some, Option.some.injEq] at hreps
  rw [hreps, hf.rep_of_not_isVar hu]

private theorem var_of_link (h : r.Coherent) (hf : r.forest.WellFormed) (hlink : r.Link i p) :
    ∃ v, r.typeAt? i = some (.var v) := by
  obtain ⟨t, hi⟩ := hlink.exists_typeAt?
  obtain ⟨u, hp⟩ := h.exists_parent hlink
  obtain ⟨v, rfl⟩ := hf.var_of_parent t u (h.parent?_of_link hlink hi hp)
  exact ⟨v, hi⟩

end Coherent

/-! ### The invariant -/

structure Invariant (r : Registry) : Prop where
  /-- No type is at two positions. -/
  distinct : ∀ i j t, r.typeAt? i = some t → r.typeAt? j = some t → i = j
  /-- A type is indexed where it stands, and nothing else is indexed. -/
  indexed : ∀ t i, r.index.get? t = some i ↔ r.typeAt? i = some t
  /-- A link stays in the row and starts at a variable. -/
  links : ∀ i p, r.parentAt? i = some p → p < r.size ∧ ∃ v, r.typeAt? i = some (.var v)
  /-- `Int`, `Bool` and functions are roots. -/
  roots : ∀ i t, r.typeAt? i = some t → t.isVar = false → r.parentAt? i = none
  /-- Going up never leads back. -/
  acyclic : ∀ i, ¬ Relation.TransGen r.Link i i
  /-- A class has at most one member that is not a variable. -/
  single : ∀ i j t u, r.Joined i j → r.typeAt? i = some t → r.typeAt? j = some u → t.isVar = false →
    u.isVar = false → i = j
  /-- Every member of a class finds the one that is not a variable. -/
  found : ∀ i j t u, r.Joined i j → r.typeAt? i = some t → r.typeAt? j = some u → u.isVar = false →
    ∃ r', r.find? t = some (u, r')
  /-- No variable is reached from itself through links and components. -/
  founded : ∀ v, ¬ Relation.TransGen r.Step (.var v) (.var v)
  /-- A variable resolves to something, and does not occur in a function that it resolves to. -/
  finite : ∀ v, ∃ t, r.resolve? (.var v) = some t ∧ (t.isFn = true → v ∉ t.vars)

/-- The invariant holds whatever has been found and unified before, and however the
unifications have ended. -/
theorem Reachable.invariant (h : r.Reachable) : r.Invariant := by
  obtain ⟨hr, hforest⟩ := h.coherent_and_forest
  have hf := hforest.wellFormed
  have hsteps : ∀ t, ¬ Relation.TransGen r.Step t t := by
    intro t hcycle
    exact hf.not_transGen_self t (Relation.TransGen.mono (fun _ _ => hr.step_forest) _ _ hcycle)
  constructor
  · exact fun i j t => hr.inj
  · exact hr.index
  · intro i p hlink
    exact ⟨hr.parents i p hlink, hr.var_of_link hf hlink⟩
  · intro i t hi ht
    cases hlink : r.parentAt? i with
    | none => rfl
    | some p =>
      obtain ⟨v, hv⟩ := hr.var_of_link hf hlink
      obtain rfl : t = .var v := Option.some.inj (hi.symm.trans hv)
      cases ht
  · intro i hcycle
    obtain ⟨p, hlink, -⟩ := Relation.TransGen.head'_iff.mp hcycle
    obtain ⟨t, hi⟩ := Link.exists_typeAt? hlink
    obtain ⟨u, hi', hup⟩ := hr.exists_transGen hcycle hi
    obtain rfl : t = u := Option.some.inj (hi.symm.trans hi')
    exact hsteps t hup
  · intro i j t u hjoined hi hj ht hu
    have heq : t = u := by
      rw [← hf.rep_of_not_isVar ht, hr.rep_of_joined_not_isVar hf hjoined hi hj hu]
    exact hr.inj hi (heq ▸ hj)
  · intro i j t u hjoined hi hj hu
    have hrep : (r.forest.find t).1 = u :=
      (hf.rep_register t t).trans (hr.rep_of_joined_not_isVar hf hjoined hi hj hu)
    exact ⟨_, hrep ▸ hr.find?_eq hf t⟩
  · exact fun v => hsteps (.var v)
  · intro v
    refine ⟨_, hr.resolve?_eq hf (.var v), fun hfn hoccurs => ?_⟩
    -- A variable of a resolved type is a root, and a root resolves to itself.
    have hroot := hf.root_of_mem_vars_resolve hoccurs
    rw [hf.resolve_of_root hroot] at hfn
    cases hfn

/-- One variable is linked to another. -/
def oneLink : Registry where
  nodes := [⟨.var 5, some 1⟩, ⟨.var 0, none⟩]
  index := .ofList [(.var 5, 0), (.var 0, 1)]

/-- After `oneLink` two functions fail to unify at their last components: the links
made before stay. -/
def halfway : Registry where
  nodes :=
    [⟨.var 5, some 1⟩, ⟨.var 0, some 4⟩, ⟨.fn (.var 0) (.fn (.var 1) .int), none⟩,
      ⟨.fn (.fn (.var 2) (.var 3)) (.fn .bool .bool), none⟩, ⟨.fn (.var 2) (.var 3), none⟩,
      ⟨.fn (.var 1) .int, none⟩, ⟨.fn .bool .bool, none⟩, ⟨.var 1, some 8⟩, ⟨.bool, none⟩,
      ⟨.int, none⟩]
  index := .ofList
    [(.var 5, 0), (.var 0, 1), (.fn (.var 0) (.fn (.var 1) .int), 2),
      (.fn (.fn (.var 2) (.var 3)) (.fn .bool .bool), 3), (.fn (.var 2) (.var 3), 4),
      (.fn (.var 1) .int, 5), (.fn .bool .bool, 6), (.var 1, 7), (.bool, 8), (.int, 9)]

theorem invariant_halfway :
    (∃ compared, (∅ : Registry).unify? (.var 5) (.var 0) = some ⟨.ok (), oneLink, compared⟩) ∧
      (∃ compared, oneLink.unify? (.fn (.var 0) (.fn (.var 1) .int))
        (.fn (.fn (.var 2) (.var 3)) (.fn .bool .bool)) =
          some ⟨.error (.mismatch .int .bool), halfway, compared⟩) ∧
      halfway.Invariant ∧ ∃ r', halfway.find? (.var 5) = some (.fn (.var 2) (.var 3), r') := by
  have hlinked : ∃ compared, (∅ : Registry).unify? (.var 5) (.var 0) =
      some ⟨.ok (), oneLink, compared⟩ := ⟨_, rfl⟩
  have hfailed : ∃ compared, oneLink.unify? (.fn (.var 0) (.fn (.var 1) .int))
      (.fn (.fn (.var 2) (.var 3)) (.fn .bool .bool)) =
        some ⟨.error (.mismatch .int .bool), halfway, compared⟩ := ⟨_, rfl⟩
  obtain ⟨_, hfirst⟩ := hlinked
  obtain ⟨_, hsecond⟩ := hfailed
  have hinvariant : halfway.Invariant := Reachable.invariant (.unify (.unify .empty hfirst) hsecond)
  have hjoined : halfway.Joined 0 4 := .trans _ _ _ (.rel 0 1 rfl) (.rel 1 4 rfl)
  exact ⟨⟨_, hfirst⟩, ⟨_, hsecond⟩, hinvariant, hinvariant.found 0 4 (.var 5) _ hjoined rfl rfl rfl⟩

end Registry

end HindleyMilner
