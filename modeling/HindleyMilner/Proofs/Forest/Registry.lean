import HindleyMilner.Forest.Registry
import HindleyMilner.Proofs.Forest.Course

/-!
# Registries stand for forests

A registry is coherent when its index is the inverse of its row of nodes and every parent is a
position in the row. It then stands for the forest that has the type at the parent's position
wherever the registry has the position.
-/

namespace HindleyMilner

private theorem Forest.parent?_of_mem {f : Forest} (hdistinct : f.types.Nodup) {node : Forest.Node}
    (hnode : node ∈ f.nodes) :
    f.parent? node.ty = node.parent := by
  have hfind : f.nodes.find? (fun other => other.ty = node.ty) = some node := by
    obtain ⟨nodes⟩ := f
    induction nodes with
    | nil => cases hnode
    | cons first rest ih =>
      obtain ⟨hnew, hrest⟩ := List.nodup_cons.mp hdistinct
      cases List.mem_cons.mp hnode with
      | inl heq => simp [heq]
      | inr hin =>
        have hne : first.ty ≠ node.ty := fun heq => hnew (heq ▸ List.mem_map_of_mem hin)
        rw [List.find?_cons_of_neg (by simpa using hne)]
        exact ih hrest hin
  rw [Forest.parent?, Forest.node?, hfind, Option.bind_some]

namespace Registry

variable {r : Registry} {a b t u : Ty} {i j p v : Nat}

/-! ### Positions -/

theorem typeAt?_eq_some : r.typeAt? i = some t ↔ ∃ node, r.nodes[i]? = some node ∧ node.ty = t :=
  Option.map_eq_some_iff

private theorem lt_size_of_typeAt? (hi : r.typeAt? i = some t) : i < r.size := by
  obtain ⟨node, hnode, -⟩ := typeAt?_eq_some.mp hi
  exact (List.getElem?_eq_some_iff.mp hnode).1

theorem exists_typeAt? (hi : i < r.size) : ∃ t, r.typeAt? i = some t :=
  ⟨_, typeAt?_eq_some.mpr ⟨_, List.getElem?_eq_getElem hi, rfl⟩⟩

/-- The index is the inverse of the row, and parents are in the row. -/
structure Coherent (r : Registry) : Prop where
  index : ∀ t i, r.index.get? t = some i ↔ r.typeAt? i = some t
  parents : ∀ i p, r.parentAt? i = some p → p < r.size

theorem coherent_empty : Coherent ∅ := by
  constructor
  · intro t i
    constructor <;> intro h <;> cases h
  · intro i p hp
    cases hp

namespace Coherent

theorem inj (h : r.Coherent) (hi : r.typeAt? i = some t) (hj : r.typeAt? j = some t) : i = j :=
  Option.some.inj (((h.index t i).mpr hi).symm.trans ((h.index t j).mpr hj))

theorem exists_parent (h : r.Coherent) (hp : r.parentAt? i = some p) : ∃ u, r.typeAt? p = some u :=
  exists_typeAt? (h.parents i p hp)

end Coherent

/-! ### Registering -/

private theorem getElem?_concat (nodes : List Node) (node : Node) (i : Nat) :
    (nodes ++ [node])[i]? = if i = nodes.length then some node else nodes[i]? := by
  grind

private theorem typeAt?_concat (r : Registry) (node : Node) (index : OrderedMap Ty Nat) (i : Nat) :
    (⟨r.nodes ++ [node], index⟩ : Registry).typeAt? i =
      if i = r.size then some node.ty else r.typeAt? i := by
  rw [typeAt?, getElem?_concat, typeAt?, size]
  split <;> rfl

private theorem parentAt?_concat (r : Registry) (t : Ty) (index : OrderedMap Ty Nat) (i : Nat) :
    (⟨r.nodes ++ [⟨t, none⟩], index⟩ : Registry).parentAt? i = r.parentAt? i := by
  rw [parentAt?, getElem?_concat, parentAt?]
  by_cases hi : i = r.nodes.length
  · rw [if_pos hi, hi, List.getElem?_eq_none (Nat.le_refl _)]
    rfl
  · rw [if_neg hi]

theorem typeAt?_register (hi : r.typeAt? i = some u) (t : Ty) :
    (r.register t).2.typeAt? i = some u := by
  rw [register]
  cases hget : r.index.get? t with
  | some j => exact hi
  | none =>
    dsimp only
    rw [typeAt?_concat, if_neg (Nat.ne_of_lt (lt_size_of_typeAt? hi)), hi]

@[simp] theorem parentAt?_register (r : Registry) (t : Ty) (i : Nat) :
    (r.register t).2.parentAt? i = r.parentAt? i := by
  rw [register]
  cases hget : r.index.get? t with
  | some j => rfl
  | none => exact parentAt?_concat r t _ i

private theorem size_le_register (r : Registry) (t : Ty) : r.size ≤ (r.register t).2.size := by
  rw [register]
  cases hget : r.index.get? t with
  | some j => exact Nat.le_refl _
  | none => simp [size]

private theorem Coherent.typeAt?_registered (h : r.Coherent) (t : Ty) :
    (r.register t).2.typeAt? (r.register t).1 = some t := by
  rw [register]
  cases hget : r.index.get? t with
  | some j => exact (h.index t j).mp hget
  | none =>
    dsimp only
    rw [typeAt?_concat, if_pos rfl]

theorem Coherent.register (h : r.Coherent) (t : Ty) : (r.register t).2.Coherent := by
  constructor
  · intro u i
    rw [Registry.register]
    cases hget : r.index.get? t with
    | some j => exact h.index u i
    | none =>
      dsimp only
      rw [OrderedMap.get?_insert, typeAt?_concat]
      by_cases hu : t = u
      · -- Nothing else in the row holds the new type.
        subst hu
        have hnew : r.typeAt? i ≠ some t := fun hi => by simp [(h.index t i).mpr hi] at hget
        rw [if_pos rfl, Option.some.injEq]
        constructor
        · intro hi
          rw [if_pos hi.symm]
        · intro hi
          by_contra hne
          rw [if_neg fun heq => hne heq.symm] at hi
          exact hnew hi
      · rw [if_neg hu, h.index]
        constructor
        · intro hi
          rw [if_neg (Nat.ne_of_lt (lt_size_of_typeAt? hi)), hi]
        · intro hi
          split at hi
          · exact absurd (Option.some.inj hi) hu
          · exact hi
  · intro i p hp
    rw [parentAt?_register] at hp
    exact Nat.lt_of_lt_of_le (h.parents i p hp) (size_le_register r t)

/-! ### The forest of a registry -/

/-- The forest that a registry stands for: parents are the types at their positions. -/
def forest (r : Registry) : Forest :=
  ⟨r.nodes.map fun node => ⟨node.ty, node.parent.bind r.typeAt?⟩⟩

theorem types_forest (r : Registry) : r.forest.types = r.nodes.map Node.ty := by
  rw [forest, Forest.types, List.map_map]
  rfl

theorem size_forest (r : Registry) : r.forest.size = r.size := List.length_map _

theorem weight_forest (r : Registry) : r.forest.weight = r.weight := by
  rw [Forest.weight, forest, List.foldr_map, weight]

private theorem getElem?_types_forest (r : Registry) (i : Nat) :
    r.forest.types[i]? = r.typeAt? i := by
  rw [types_forest, List.getElem?_map, typeAt?]

theorem mem_types_forest : t ∈ r.forest.types ↔ ∃ i, r.typeAt? i = some t := by
  rw [List.mem_iff_getElem?]
  simp only [getElem?_types_forest]

theorem Coherent.nodup (h : r.Coherent) : r.forest.types.Nodup := by
  rw [List.nodup_iff_getElem?_ne_getElem?]
  intro i j hij hj heq
  rw [getElem?_types_forest, getElem?_types_forest] at heq
  rw [types_forest, List.length_map] at hj
  obtain ⟨t, ht⟩ := exists_typeAt? (r := r) hj
  exact Nat.ne_of_lt hij (h.inj (heq.trans ht) ht)

theorem Coherent.node?_eq_none_iff (h : r.Coherent) :
    r.forest.node? t = none ↔ r.index.get? t = none := by
  rw [Forest.node?_eq_none_iff, mem_types_forest, Option.eq_none_iff_forall_ne_some]
  simp only [ne_eq, h.index, not_exists]

theorem Coherent.parent?_forest (h : r.Coherent) (hi : r.typeAt? i = some t) :
    r.forest.parent? t = (r.parentAt? i).bind r.typeAt? := by
  obtain ⟨node, hnode, rfl⟩ := typeAt?_eq_some.mp hi
  have hmem : (⟨node.ty, node.parent.bind r.typeAt?⟩ : Forest.Node) ∈ r.forest.nodes := by
    rw [forest, List.mem_map]
    exact ⟨node, List.mem_of_getElem? hnode, rfl⟩
  rw [Forest.parent?_of_mem h.nodup hmem, parentAt?, hnode, Option.bind_some]

theorem Coherent.forest_register (h : r.Coherent) (t : Ty) :
    (r.register t).2.forest = r.forest.register t := by
  rw [Registry.register, Forest.register]
  cases hget : r.index.get? t with
  | some j =>
    have hnode : r.forest.node? t ≠ none := by simp [h.node?_eq_none_iff, hget]
    cases hfound : r.forest.node? t with
    | none => exact absurd hfound hnode
    | some node => rfl
  | none =>
    rw [h.node?_eq_none_iff.mpr hget]
    simp only [forest, List.map_append, List.map_cons, List.map_nil, Option.bind_none,
      Forest.mk.injEq, List.append_left_inj]
    apply List.map_congr_left
    intro node hnode
    -- A parent is where it was, since it was in the row.
    obtain ⟨i, hi⟩ := List.mem_iff_getElem?.mp hnode
    cases hparent : node.parent with
    | none => rfl
    | some p =>
      have hp : r.parentAt? i = some p := by rw [parentAt?, hi, Option.bind_some, hparent]
      rw [Option.bind_some, Option.bind_some, typeAt?_concat,
        if_neg (Nat.ne_of_lt (h.parents i p hp))]

/-! ### Linking -/

private theorem getElem?_setParent (r : Registry) (i p j : Nat) :
    (r.setParent i p).nodes[j]? =
      (r.nodes[j]?).map fun node => if i = j then { node with parent := some p } else node := by
  rw [setParent, List.getElem?_modify]
  rfl

@[simp] theorem typeAt?_setParent (r : Registry) (i p j : Nat) :
    (r.setParent i p).typeAt? j = r.typeAt? j := by
  rw [typeAt?, getElem?_setParent, Option.map_map, typeAt?]
  congr 1
  funext node
  rw [Function.comp_apply]
  split <;> rfl

private theorem parentAt?_setParent (hi : i < r.size) (p j : Nat) :
    (r.setParent i p).parentAt? j = if i = j then some p else r.parentAt? j := by
  rw [parentAt?, getElem?_setParent]
  by_cases hj : i = j
  · subst hj
    rw [List.getElem?_eq_getElem hi]
    simp
  · simp [hj, parentAt?]

private theorem size_setParent (r : Registry) (i p : Nat) : (r.setParent i p).size = r.size :=
  List.length_modify _ _ _

theorem Coherent.setParent (h : r.Coherent) (hi : i < r.size) (hp : p < r.size) :
    (r.setParent i p).Coherent := by
  constructor
  · intro t j
    rw [typeAt?_setParent]
    exact h.index t j
  · intro j q hq
    rw [parentAt?_setParent hi] at hq
    rw [size_setParent]
    split at hq
    · exact Option.some.inj hq ▸ hp
    · exact h.parents j q hq

theorem Coherent.forest_setParent (h : r.Coherent) (hi : r.typeAt? i = some (.var v))
    (hp : r.typeAt? p = some u) :
    (r.setParent i p).forest = r.forest.setParent v u := by
  have htypes : (r.setParent i p).typeAt? = r.typeAt? := funext (typeAt?_setParent r i p)
  rw [forest, htypes, Forest.setParent, forest, Forest.mk.injEq]
  apply List.ext_getElem?
  intro j
  rw [List.getElem?_map, getElem?_setParent, List.getElem?_map, List.getElem?_map]
  cases hj : r.nodes[j]? with
  | none => rfl
  | some node =>
    have htype : r.typeAt? j = some node.ty := typeAt?_eq_some.mpr ⟨node, hj, rfl⟩
    have hiff : i = j ↔ node.ty = .var v := by
      constructor
      · intro heq
        subst heq
        exact Option.some.inj (htype.symm.trans hi)
      · intro heq
        exact h.inj hi (heq ▸ htype)
    simp only [Option.map_some, Option.some.injEq]
    by_cases heq : i = j
    · rw [if_pos heq, if_pos (hiff.mp heq)]
      simp [hp]
    · rw [if_neg heq, if_neg fun hty => heq (hiff.mpr hty)]

/-! ### Climbing and resolving -/

namespace Coherent

/-- The registry goes up as the forest does, and comes to a root if the forest does. -/
theorem exists_climb? (h : r.Coherent) {steps : Nat} (hi : r.typeAt? i = some t)
    (hroot : r.forest.parent? (r.forest.climb steps t) = none) :
    ∃ j, r.climb? (steps + 1) i = some j ∧ r.typeAt? j = some (r.forest.climb steps t) ∧
      r.parentAt? j = none := by
  induction steps generalizing i t with
  | zero =>
    have hparent : r.parentAt? i = none := by
      cases hp : r.parentAt? i with
      | none => rfl
      | some p =>
        obtain ⟨u, hu⟩ := h.exists_parent hp
        rw [Forest.climb, h.parent?_forest hi, hp, Option.bind_some, hu] at hroot
        cases hroot
    obtain ⟨node, hnode, rfl⟩ := typeAt?_eq_some.mp hi
    have hnone : node.parent = none := by simpa [parentAt?, hnode] using hparent
    exact ⟨i, by simp [climb?, hnode, hnone], hi, hparent⟩
  | succ steps ih =>
    obtain ⟨node, hnode, rfl⟩ := typeAt?_eq_some.mp hi
    cases hp : node.parent with
    | none =>
      have hparent : r.parentAt? i = none := by simp [parentAt?, hnode, hp]
      have htop : r.forest.parent? node.ty = none := by
        rw [h.parent?_forest hi, hparent, Option.bind_none]
      rw [Forest.climb_of_root htop]
      exact ⟨i, by simp [climb?, hnode, hp], hi, hparent⟩
    | some p =>
      have hparent : r.parentAt? i = some p := by simp [parentAt?, hnode, hp]
      obtain ⟨u, hu⟩ := h.exists_parent hparent
      have hup : r.forest.parent? node.ty = some u := by
        rw [h.parent?_forest hi, hparent, Option.bind_some, hu]
      rw [Forest.climb_of_parent hup] at hroot ⊢
      obtain ⟨j, hclimb, hj, htop⟩ := ih hu hroot
      exact ⟨j, by rw [climb?]; simp [hnode, hp, hclimb], hj, htop⟩

theorem exists_rootOf? (h : r.Coherent) (hf : r.forest.WellFormed) (hi : r.typeAt? i = some t) :
    ∃ j, r.rootOf? i = some j ∧ r.typeAt? j = some (r.forest.rep t) ∧ r.parentAt? j = none := by
  have hroot := hf.parent?_rep t
  rw [Forest.rep, size_forest] at hroot ⊢
  exact h.exists_climb? hi hroot

theorem rep?_eq (h : r.Coherent) (hf : r.forest.WellFormed) (t : Ty) :
    r.rep? t = some (r.forest.rep t) := by
  rw [rep?]
  cases hget : r.index.get? t with
  | none =>
    have hroot : r.forest.parent? t = none := by
      rw [Forest.parent?, h.node?_eq_none_iff.mpr hget, Option.bind_none]
    rw [Forest.rep_of_root hroot]
  | some i =>
    obtain ⟨j, hroot, hj, -⟩ := h.exists_rootOf? hf ((h.index t i).mp hget)
    dsimp only
    rw [hroot, Option.bind_some, hj]

theorem resolveWithin?_eq (h : r.Coherent) (hf : r.forest.WellFormed) (levels : Nat) (t : Ty) :
    r.resolveWithin? levels t = r.forest.resolveWithin levels t := by
  induction levels generalizing t with
  | zero => rfl
  | succ levels ih =>
    rw [resolveWithin?, Forest.resolveWithin, h.rep?_eq hf, Option.bind_eq_bind, Option.bind_some]
    cases r.forest.rep t with
    | fn a b => simp only [ih]
    | _ => rfl

theorem resolve?_eq (h : r.Coherent) (hf : r.forest.WellFormed) (t : Ty) :
    r.resolve? t = some (r.forest.resolve t) := by
  rw [resolve?, ← weight_forest, h.resolveWithin?_eq hf, hf.resolveWithin_eq_some_resolve]

/-! ### Finding -/

theorem exists_findRoot? (h : r.Coherent) (hf : r.forest.WellFormed) (t : Ty) :
    ∃ i, r.findRoot? t = some (i, (r.register t).2) ∧
      (r.register t).2.typeAt? i = some ((r.forest.register t).rep t) := by
  have hforest := h.forest_register t
  have hg : (r.register t).2.forest.WellFormed := hforest ▸ hf.register t
  obtain ⟨i, hroot, hi, -⟩ := (h.register t).exists_rootOf? hg (h.typeAt?_registered t)
  exact ⟨i, by simp [findRoot?, hroot], hforest ▸ hi⟩

theorem find?_eq (h : r.Coherent) (hf : r.forest.WellFormed) (t : Ty) :
    r.find? t = some ((r.forest.find t).1, (r.register t).2) := by
  obtain ⟨i, hroot, hi⟩ := h.exists_findRoot? hf t
  simp [find?, hroot, hi, Forest.find]

/-- Entering two types gives the positions of their representatives. -/
theorem exists_enter? (h : r.Coherent) (hf : r.forest.WellFormed) (a b : Ty) :
    ∃ i j r', r.enter? a b = some (i, j, r') ∧ r'.Coherent ∧ r'.forest = r.forest.enter a b ∧
      r'.typeAt? i = some ((r.forest.enter a b).rep a) ∧
        r'.typeAt? j = some ((r.forest.enter a b).rep b) := by
  have hfirst := h.forest_register a
  have hf₁ : (r.register a).2.forest.WellFormed := hfirst ▸ hf.register a
  obtain ⟨i, hroot, hi⟩ := h.exists_findRoot? hf a
  obtain ⟨j, hroot', hj⟩ := (h.register a).exists_findRoot? hf₁ b
  have hboth : ((r.register a).2.register b).2.forest = r.forest.enter a b := by
    rw [(h.register a).forest_register, hfirst]
  rw [hfirst] at hj
  rw [← (hf.register a).rep_register b] at hi
  have henter : r.enter? a b = some (i, j, ((r.register a).2.register b).2) := by
    simp [enter?, hroot, hroot']
  exact ⟨i, j, _, henter, (h.register a).register b, hboth, typeAt?_register hi b, hj⟩

end Coherent

/-! ### Unifying -/

namespace Attempt

/-- What the attempt does to the forest. -/
def onForest (attempt : Attempt) : Forest.Attempt :=
  ⟨attempt.outcome, attempt.registry.forest, attempt.compared⟩

end Attempt

/-- The attempt is the forest's, in a registry that is coherent. -/
def Follows (attempt : Attempt) (model : Forest.Attempt) : Prop :=
  attempt.onForest = model ∧ attempt.registry.Coherent

theorem Coherent.exists_link? (h : r.Coherent) (hf : r.forest.WellFormed)
    (hi : r.typeAt? i = some (.var v)) (hp : r.typeAt? p = some t) (a b : Ty) :
    ∃ result, r.link? v i p = some result ∧
      Follows (.ofLink a b r result) (.ofLink a b r.forest (r.forest.link v t)) := by
  have hlinked : Follows (.ofLink a b r (.ok (r.setParent i p)))
      (.ofLink a b r.forest (.ok (r.forest.setParent v t))) := by
    rw [← h.forest_setParent hi hp]
    exact ⟨rfl, h.setParent (lt_size_of_typeAt? hi) (lt_size_of_typeAt? hp)⟩
  rw [Forest.link, link?, hp, Option.bind_eq_bind, Option.bind_some]
  cases hvar : t.isVar with
  | true => exact ⟨_, rfl, hlinked⟩
  | false =>
    simp only [Bool.false_eq_true, if_false, h.resolve?_eq hf, Option.bind_some]
    by_cases hoccurs : v ∈ (r.forest.resolve t).vars
    · rw [if_pos hoccurs, if_pos hoccurs]
      exact ⟨_, rfl, rfl, h⟩
    · rw [if_neg hoccurs, if_neg hoccurs]
      exact ⟨_, rfl, hlinked⟩

section Equations

variable {levels : Nat} {r' : Registry}

private theorem unifyWithin?_same (henter : r.enter? a b = some (i, i, r')) :
    unifyWithin? (levels + 1) a b r = some ⟨.ok (), r', []⟩ := by
  simp [unifyWithin?, henter]

private theorem unifyWithin?_fn {a₁ a₂ b₁ b₂ : Ty} (henter : r.enter? a b = some (i, j, r'))
    (hne : i ≠ j) (hi : r'.typeAt? i = some (.fn a₁ a₂)) (hj : r'.typeAt? j = some (.fn b₁ b₂)) :
    unifyWithin? (levels + 1) a b r = (unifyWithin? levels a₁ b₁ r').bind fun first =>
      match first.outcome with
      | .error e => some ⟨.error e, first.registry, (.fn a₁ a₂, .fn b₁ b₂) :: first.compared⟩
      | .ok () => (unifyWithin? levels a₂ b₂ first.registry).bind fun second =>
        some ⟨second.outcome, second.registry,
            (.fn a₁ a₂, .fn b₁ b₂) :: (first.compared ++ second.compared)⟩ := by
  simp only [unifyWithin?, henter, Option.bind_eq_bind, Option.bind_some, if_neg hne, hi, hj]
  rfl

private theorem unifyWithin?_left (henter : r.enter? a b = some (i, j, r')) (hne : i ≠ j)
    (hi : r'.typeAt? i = some (.var v)) (hj : r'.typeAt? j = some t) :
    unifyWithin? (levels + 1) a b r = (r'.link? v i j).map (.ofLink (.var v) t r') := by
  simp only [unifyWithin?, henter, Option.bind_eq_bind, Option.bind_some, if_neg hne, hi, hj]

private theorem unifyWithin?_right {head : Ty.Head} (henter : r.enter? a b = some (i, j, r'))
    (hne : i ≠ j) (hi : r'.typeAt? i = some t) (hhead : t.head? = some head)
    (hj : r'.typeAt? j = some (.var v)) :
    unifyWithin? (levels + 1) a b r = (r'.link? v j i).map (.ofLink t (.var v) r') := by
  simp only [unifyWithin?, henter, Option.bind_eq_bind, Option.bind_some, if_neg hne, hi, hj]
  cases t with
  | var w => cases hhead
  | _ => rfl

private theorem unifyWithin?_clash {left right : Ty} (henter : r.enter? a b = some (i, j, r'))
    (hne : i ≠ j) (hi : r'.typeAt? i = some left) (hj : r'.typeAt? j = some right)
    (hclash : left.Clash right) :
    unifyWithin? (levels + 1) a b r =
      some ⟨.error (.mismatch left right), r', [(left, right)]⟩ := by
  simp only [unifyWithin?, henter, Option.bind_eq_bind, Option.bind_some, if_neg hne, hi, hj]
  obtain ⟨p, q, hp, hq, hpq⟩ := hclash
  cases left <;> cases right <;> simp_all [Ty.head?]

end Equations

private theorem exists_unifyWithin?_fn {levels : Nat} {r' : Registry} {a₁ a₂ b₁ b₂ : Ty}
    {model : Forest.Attempt} (h : r'.Coherent) (hf : r'.forest.WellFormed)
    (henter : r.enter? a b = some (i, j, r')) (hne : i ≠ j)
    (hi : r'.typeAt? i = some (.fn a₁ a₂)) (hj : r'.typeAt? j = some (.fn b₁ b₂))
    (ih : ∀ {r : Registry} {a b : Ty}, r.Coherent → r.forest.WellFormed →
      ∀ {model : Forest.Attempt}, Forest.unifyWithin levels a b r.forest = some model →
        ∃ attempt, unifyWithin? levels a b r = some attempt ∧ Follows attempt model)
    (hrun : ((Forest.unifyWithin levels a₁ b₁ r'.forest).bind fun first =>
      match first.outcome with
      | .error _ => some (.ofFirst (.fn a₁ a₂) (.fn b₁ b₂) first)
      | .ok () => (Forest.unifyWithin levels a₂ b₂ first.forest).bind fun second =>
        some (.ofComponents (.fn a₁ a₂) (.fn b₁ b₂) first second)) = some model) :
    ∃ attempt, unifyWithin? (levels + 1) a b r = some attempt ∧ Follows attempt model := by
  obtain ⟨first, hfirst, hrest⟩ := Option.bind_eq_some_iff.mp hrun
  obtain ⟨attempt₁, hrun₁, rfl, h₁⟩ := ih h hf hfirst
  have hf₁ : attempt₁.registry.forest.WellFormed :=
    (Forest.unifies_of_unifyWithin hfirst).wellFormed hf
  rw [unifyWithin?_fn henter hne hi hj, hrun₁, Option.bind_some]
  cases houtcome : attempt₁.outcome with
  | error e =>
    have houtcome' : attempt₁.onForest.outcome = .error e := houtcome
    rw [houtcome'] at hrest
    cases hrest
    exact ⟨_, rfl, by simp [Attempt.onForest, Forest.Attempt.ofFirst, houtcome], h₁⟩
  | ok _ =>
    have houtcome' : attempt₁.onForest.outcome = .ok () := houtcome
    rw [houtcome'] at hrest
    obtain ⟨second, hsecond, hpure⟩ := Option.bind_eq_some_iff.mp hrest
    cases hpure
    obtain ⟨attempt₂, hrun₂, rfl, h₂⟩ := ih h₁ hf₁ hsecond
    dsimp only
    rw [hrun₂, Option.bind_some]
    exact ⟨_, rfl, rfl, h₂⟩

/-- Where the forest has an answer within so many levels, the registry has the same. -/
theorem Coherent.exists_unifyWithin? (h : r.Coherent) (hf : r.forest.WellFormed) {levels : Nat}
    {model : Forest.Attempt} (hrun : Forest.unifyWithin levels a b r.forest = some model) :
    ∃ attempt, unifyWithin? levels a b r = some attempt ∧ Follows attempt model := by
  induction levels generalizing a b r model with
  | zero => cases hrun
  | succ levels ih =>
    obtain ⟨i, j, r', henter, h', hforest, hi, hj⟩ := h.exists_enter? hf a b
    have hf' : r'.forest.WellFormed := hforest ▸ hf.enter a b
    by_cases hsame : (r.forest.enter a b).rep a = (r.forest.enter a b).rep b
    · -- One type has one position.
      obtain rfl : i = j := h'.inj hi (hsame ▸ hj)
      rw [Forest.unifyWithin_same hsame] at hrun
      cases hrun
      exact ⟨_, unifyWithin?_same henter, by rw [← hforest]; rfl, h'⟩
    · have hne : i ≠ j := by
        intro heq
        subst heq
        exact hsame (Option.some.inj (hi.symm.trans hj))
      rcases Forest.cases_of_ne hsame with
        ⟨v, hv⟩ | ⟨head, v, hhead, hv⟩ | hclash | ⟨a₁, a₂, b₁, b₂, ha, hb⟩
      · rw [hv] at hi hsame
        rw [Forest.unifyWithin_left hv rfl hsame, ← hforest] at hrun
        cases hrun
        rw [← hforest] at hj
        obtain ⟨result, hlink, hfollows⟩ := h'.exists_link? hf' hi hj (.var v) (r'.forest.rep b)
        exact ⟨_, by rw [unifyWithin?_left henter hne hi hj, hlink, Option.map_some], hfollows⟩
      · rw [hv] at hj
        rw [Forest.unifyWithin_right rfl hhead hv, ← hforest] at hrun
        cases hrun
        rw [← hforest] at hi hhead
        obtain ⟨result, hlink, hfollows⟩ := h'.exists_link? hf' hj hi (r'.forest.rep a) (.var v)
        exact ⟨_, by rw [unifyWithin?_right henter hne hi hhead hj, hlink, Option.map_some],
          hfollows⟩
      · rw [Forest.unifyWithin_clash rfl rfl hclash] at hrun
        cases hrun
        exact ⟨_, unifyWithin?_clash henter hne hi hj hclash, by rw [← hforest]; rfl, h'⟩
      · rw [ha] at hi hsame
        rw [hb] at hj hsame
        rw [Forest.unifyWithin_fn ha hb hsame, ← hforest] at hrun
        exact exists_unifyWithin?_fn h' hf' henter hne hi hj ih hrun

theorem Coherent.exists_unify? (h : r.Coherent) (hf : r.forest.WellFormed) (a b : Ty) :
    ∃ attempt, r.unify? a b = some attempt ∧ Follows attempt (r.forest.unify a b) := by
  have hrun := (hf.unifyWithin_eq_some_unify a b).1
  rw [weight_forest] at hrun
  exact h.exists_unifyWithin? hf hrun

/-! ### Registries that requests lead to -/

/-- The registries that finding and unifying lead to, whether unification succeeds or not. -/
inductive Reachable : Registry → Prop
  | empty : Reachable ∅
  | find {r r' : Registry} {t rep : Ty} (h : Reachable r) (hfind : r.find? t = some (rep, r')) :
      Reachable r'
  | unify {r : Registry} {a b : Ty} {attempt : Attempt} (h : Reachable r)
      (hunify : r.unify? a b = some attempt) : Reachable attempt.registry

theorem Reachable.coherent_and_forest (h : r.Reachable) : r.Coherent ∧ r.forest.Reachable := by
  induction h with
  | empty => exact ⟨coherent_empty, .empty⟩
  | @find r r' t rep _ hfind ih =>
    obtain ⟨hr, hforest⟩ := ih
    rw [hr.find?_eq hforest.wellFormed, Option.some.injEq, Prod.mk.injEq] at hfind
    rw [← hfind.2, hr.forest_register]
    exact ⟨hr.register t, hforest.find t⟩
  | @unify r a b attempt _ hunify ih =>
    obtain ⟨hr, hforest⟩ := ih
    obtain ⟨attempt', hrun, hmodel, hcoherent⟩ := hr.exists_unify? hforest.wellFormed a b
    obtain rfl : attempt = attempt' := Option.some.inj (hunify.symm.trans hrun)
    have hafter : attempt.registry.forest = (r.forest.unify a b).forest :=
      congrArg Forest.Attempt.forest hmodel
    exact ⟨hcoherent, hafter ▸ hforest.unify a b⟩

/-- On a registry that requests lead to every operation has a result, and it is the one that the
operation has on the forest. -/
theorem Reachable.operations_eq (h : r.Reachable) :
    (∀ t, ∃ r', r.find? t = some ((r.forest.find t).1, r') ∧ r'.forest = (r.forest.find t).2) ∧
      (∀ t, r.resolve? t = some (r.forest.resolve t)) ∧
        ∀ a b, ∃ attempt, r.unify? a b = some attempt ∧ attempt.onForest = r.forest.unify a b := by
  obtain ⟨hr, hforest⟩ := h.coherent_and_forest
  have hf := hforest.wellFormed
  refine ⟨fun t => ⟨_, hr.find?_eq hf t, hr.forest_register t⟩, hr.resolve?_eq hf, fun a b => ?_⟩
  obtain ⟨attempt, hrun, hmodel, -⟩ := hr.exists_unify? hf a b
  exact ⟨attempt, hrun, hmodel⟩

end Registry

namespace Forest

variable {f : Forest}

/-- Every forest that requests lead to is the forest of a registry that they lead to. -/
theorem Reachable.exists_registry (h : f.Reachable) :
    ∃ r : Registry, r.Reachable ∧ r.forest = f := by
  induction h with
  | empty => exact ⟨∅, .empty, rfl⟩
  | find _ t ih =>
    obtain ⟨r, hr, rfl⟩ := ih
    obtain ⟨r', hfind, hforest⟩ := hr.operations_eq.1 t
    exact ⟨r', .find hr hfind, hforest⟩
  | unify _ a b ih =>
    obtain ⟨r, hr, rfl⟩ := ih
    obtain ⟨attempt, hunify, hmodel⟩ := hr.operations_eq.2.2 a b
    exact ⟨attempt.registry, .unify hr hunify, congrArg Attempt.forest hmodel⟩

theorem Reachable.nodup (h : f.Reachable) : f.types.Nodup := by
  obtain ⟨r, hr, rfl⟩ := h.exists_registry
  exact hr.coherent_and_forest.1.nodup

end Forest

end HindleyMilner
