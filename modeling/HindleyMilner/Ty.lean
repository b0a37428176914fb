import HindleyMilner.OrderedMap
import HindleyMilner.VarSet

/-!
# Types

The types of the calculus: two base types, variables and functions. A variable is its index.
`render` is the written form, in which arrows associate to the right and only a function on the left
of an arrow is put in parentheses; `spell` spells the constructors out. `canonical` is the form in
which types are compared when the names of their variables do not matter.
-/

namespace HindleyMilner

inductive Ty where
  | int
  | bool
  | var (index : Nat)
  | fn (dom cod : Ty)
  deriving DecidableEq, Repr, Inhabited

namespace Ty

def vars : Ty → VarSet
  | int => ∅
  | bool => ∅
  | var v => {v}
  | fn a b => a.vars ∪ b.vars

def size : Ty → Nat
  | int => 1
  | bool => 1
  | var _ => 1
  | fn a b => a.size + b.size + 1

def isVar : Ty → Bool
  | var _ => true
  | _ => false

def isFn : Ty → Bool
  | fn _ _ => true
  | _ => false

/-- The index of a bare variable. -/
def var? : Ty → Option Nat
  | var v => some v
  | _ => none

/-- Replaces every variable at once. -/
def bind (f : Nat → Ty) : Ty → Ty
  | int => int
  | bool => bool
  | var v => f v
  | fn a b => fn (a.bind f) (b.bind f)

def rename (f : Nat → Nat) (t : Ty) : Ty := t.bind fun v => var (f v)

/-! ### Canonical numbering -/

/-- Numbers the variables from left to right. The numbers given so far are passed on from one part
to the next, and a variable without one gets the next number. -/
def renumber (numbers : OrderedMap Nat Nat) : Ty → Ty × OrderedMap Nat Nat
  | int => (int, numbers)
  | bool => (bool, numbers)
  | var v =>
    match numbers.get? v with
    | some n => (var n, numbers)
    | none => (var numbers.size, numbers.insert v numbers.size)
  | fn a b =>
    let (dom, numbers) := a.renumber numbers
    let (cod, numbers) := b.renumber numbers
    (fn dom cod, numbers)

/-- The type with its variables numbered from zero. -/
def canonical (t : Ty) : Ty := (t.renumber ∅).1

/-! ### Written forms -/

def varName (v : Nat) : String := "a" ++ toString v

def render : Ty → String
  | int => "Int"
  | bool => "Bool"
  | var v => varName v
  | fn a b => (if a.isFn then "(" ++ a.render ++ ")" else a.render) ++ " -> " ++ b.render

/-- A type variable with its constructor spelled out. -/
def spellVar (v : Nat) : String := "TypeVar(" ++ toString v ++ ")"

/-- A type with all its constructors spelled out. -/
def spell : Ty → String
  | int => "Int"
  | bool => "Bool"
  | var v => "Var(" ++ spellVar v ++ ")"
  | fn a b => "Fn(" ++ a.spell ++ ", " ++ b.spell ++ ")"

/-! ### Variables and replacement -/

@[simp] theorem vars_int : int.vars = ∅ := rfl

@[simp] theorem vars_bool : bool.vars = ∅ := rfl

@[simp] theorem vars_var (v : Nat) : (var v).vars = {v} := rfl

@[simp] theorem vars_fn (a b : Ty) : (fn a b).vars = a.vars ∪ b.vars := rfl

theorem bind_congr {f g : Nat → Ty} {t : Ty} (hagree : ∀ v ∈ t.vars, f v = g v) :
    t.bind f = t.bind g := by
  induction t with
  | int => rfl
  | bool => rfl
  | var v => exact hagree v (by simp)
  | fn a b iha ihb =>
    rw [bind, bind, iha fun v hv => hagree v (by simp [hv]),
      ihb fun v hv => hagree v (by simp [hv])]

@[simp] theorem bind_var (t : Ty) : t.bind var = t := by
  induction t with
  | int => rfl
  | bool => rfl
  | var v => rfl
  | fn a b iha ihb => rw [bind, iha, ihb]

theorem bind_bind (f g : Nat → Ty) (t : Ty) : (t.bind f).bind g = t.bind fun v => (f v).bind g := by
  induction t with
  | int => rfl
  | bool => rfl
  | var v => rfl
  | fn a b iha ihb => simp only [bind, iha, ihb]

theorem mem_vars_bind {f : Nat → Ty} {t : Ty} {w : Nat} :
    w ∈ (t.bind f).vars ↔ ∃ v ∈ t.vars, w ∈ (f v).vars := by
  induction t with
  | int => simp [bind]
  | bool => simp [bind]
  | var v => simp [bind]
  | fn a b iha ihb =>
    simp only [bind, vars_fn, VarSet.mem_union, iha, ihb]
    constructor
    · rintro (⟨v, hv, hw⟩ | ⟨v, hv, hw⟩)
      · exact ⟨v, .inl hv, hw⟩
      · exact ⟨v, .inr hv, hw⟩
    · rintro ⟨v, hv | hv, hw⟩
      · exact .inl ⟨v, hv, hw⟩
      · exact .inr ⟨v, hv, hw⟩

end Ty

end HindleyMilner
