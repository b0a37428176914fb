import HindleyMilner.Scheme

/-!
# Contexts

A context gives a type scheme to each of finitely many names, in the order in which
the names came in.
-/

namespace HindleyMilner

abbrev Context := OrderedMap String Scheme

namespace Context

def subst (s : Subst) (Γ : Context) : Context := Γ.mapValues (Scheme.subst s)

/-- The variables that some scheme leaves free. -/
def free (Γ : Context) : VarSet := .unionOf (fun entry => entry.2.free) Γ.entries

/-- The variables of the bodies, quantified or not; binders that occur in no body are
not among them. -/
def bodyVars (Γ : Context) : VarSet := .unionOf (fun entry => entry.2.body.vars) Γ.entries

/-- Quantifies the variables of `t` that the context does not know. -/
def generalize (Γ : Context) (t : Ty) : Scheme := ⟨t.vars \ Γ.free, t⟩

/-- Keeps later draws above every variable of the bodies. -/
def reserve (Γ : Context) : Draw Unit :=
  match Γ.bodyVars.max? with
  | some v => Draw.reserve v
  | none => pure ()

def render (Γ : Context) : String :=
  "\x7b" ++ ", ".intercalate (Γ.entries.map fun entry => entry.1 ++ ": " ++ entry.2.render) ++
    "\x7d"

@[simp] theorem get?_subst (s : Subst) (Γ : Context) (x : String) :
    (Γ.subst s).get? x = (Γ.get? x).map (Scheme.subst s) :=
  OrderedMap.get?_mapValues _ Γ x

theorem mem_free {Γ : Context} {v : Nat} : v ∈ Γ.free ↔ ∃ entry ∈ Γ.entries, v ∈ entry.2.free :=
  VarSet.mem_unionOf

theorem mem_bodyVars {Γ : Context} {v : Nat} :
    v ∈ Γ.bodyVars ↔ ∃ entry ∈ Γ.entries, v ∈ entry.2.body.vars :=
  VarSet.mem_unionOf

end Context

end HindleyMilner
