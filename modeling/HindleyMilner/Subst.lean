import HindleyMilner.OrderedMap
import HindleyMilner.Ty

/-!
# Substitutions

A substitution maps finitely many type variables to types and every other variable to itself.
Applying one replaces all variables at once: the types it puts in are not looked at again. `s.comp
r` is "`s` after `r`", which `subst_comp` states.
-/

namespace HindleyMilner

abbrev Subst := OrderedMap Nat Ty

namespace Subst

def singleton (v : Nat) (t : Ty) : Subst := OrderedMap.singleton v t

def image (s : Subst) (v : Nat) : Ty := (s.get? v).getD (.var v)

/-- Forgets what the substitution does to the variables of `vs`. -/
def without (s : Subst) (vs : VarSet) : Subst := s.filterKeys (· ∉ vs)

end Subst

def Ty.subst (s : Subst) (t : Ty) : Ty := t.bind s.image

namespace Subst

/-- First `r`, then `s`: the entries of `r` under `s`, then the entries of `s` for variables that
`r` leaves alone. -/
def comp (s r : Subst) : Subst := (r.mapValues (Ty.subst s)).orElse s

def render (s : Subst) : String :=
  "\x7b" ++ ", ".intercalate
    (s.entries.map fun entry => Ty.varName entry.1 ++ " ↦ " ++ entry.2.render) ++ "\x7d"

end Subst

/-! ### Laws -/

namespace Ty

@[simp] theorem subst_int (s : Subst) : int.subst s = int := rfl

@[simp] theorem subst_bool (s : Subst) : bool.subst s = bool := rfl

@[simp] theorem subst_var (s : Subst) (v : Nat) : (var v).subst s = s.image v := rfl

@[simp] theorem subst_fn (s : Subst) (a b : Ty) : (fn a b).subst s = fn (a.subst s) (b.subst s) :=
  rfl

theorem mem_vars_subst {s : Subst} {t : Ty} {w : Nat} :
    w ∈ (t.subst s).vars ↔ ∃ v ∈ t.vars, w ∈ (s.image v).vars :=
  mem_vars_bind

end Ty

namespace Subst

@[simp] theorem image_empty (v : Nat) : (∅ : Subst).image v = .var v := rfl

theorem image_singleton (v w : Nat) (t : Ty) :
    (singleton v t).image w = if v = w then t else .var w := by
  simp only [image, singleton, OrderedMap.singleton, OrderedMap.get?_insert, OrderedMap.get?_empty]
  split <;> rfl

theorem image_comp (s r : Subst) (v : Nat) : (s.comp r).image v = (r.image v).subst s := by
  simp only [image, comp, OrderedMap.get?_orElse, OrderedMap.get?_mapValues]
  cases r.get? v <;> rfl

end Subst

namespace Ty

@[simp] theorem subst_empty (t : Ty) : t.subst ∅ = t := by
  rw [subst, show Subst.image ∅ = var from funext Subst.image_empty, bind_var]

theorem subst_comp (s r : Subst) (t : Ty) : t.subst (s.comp r) = (t.subst r).subst s := by
  simp only [subst, bind_bind]
  exact bind_congr fun v _ => Subst.image_comp s r v

end Ty

end HindleyMilner
