import HindleyMilner.Session

/-!
# Inference with a forest

Algorithm J. What typing a term demands is recorded in the forest of the session, and the result is
a type that is to be read through the forest. The context stays as it is: its variables are read
through the forest too.
-/

namespace HindleyMilner

namespace Context

/-- The variables that are left of the context when it is read through the forest. -/
def known (Γ : Context) (forest : Forest) : VarSet :=
  VarSet.unionOf (fun v => (forest.resolve (.var v)).vars) Γ.free.toList

theorem mem_known {Γ : Context} {forest : Forest} {w : Nat} :
    w ∈ Γ.known forest ↔ ∃ v ∈ Γ.free, w ∈ (forest.resolve (.var v)).vars := VarSet.mem_unionOf

/-- Quantifies the variables of a resolved type that the context, read through the
forest, does not know. -/
def generalizeIn (Γ : Context) (forest : Forest) (t : Ty) : Scheme :=
  let body := forest.resolve t
  ⟨body.vars \ Γ.known forest, body⟩

def concludeJ (form : Term.Form) (t : Ty) : Infer Ty := do
  Infer.report (.typedJ form t)
  return t

/-- The type of a term, to be read through the forest; every subterm that has a type is reported. -/
def typeByLinks (Γ : Context) : Term → Infer Ty
  | .int _ => concludeJ .int .int
  | .bool _ => concludeJ .bool .bool
  | .var name => do
    let t ← Infer.lookup Γ name
    concludeJ .var t
  | .app func arg => do
    let t₁ ← typeByLinks Γ func
    let t₂ ← typeByLinks Γ arg
    let result ← Infer.fresh
    Infer.unify t₁ (.fn t₂ result)
    let t ← Infer.find result
    concludeJ .app t
  | .abs param body => do
    let t ← Infer.fresh
    let t' ← typeByLinks (Γ.insert param (.mono t)) body
    let dom ← Infer.find t
    let cod ← Infer.find t'
    concludeJ .abs (.fn dom cod)
  | .letIn name init body => do
    let t₁ ← typeByLinks Γ init
    let scheme := Γ.generalizeIn (← get).forest t₁
    Infer.report (.bound .j name scheme)
    let t₂ ← typeByLinks (Γ.insert name scheme) body
    concludeJ .letIn t₂

/-- Algorithm J, with variables above all that the bodies of the context mention. -/
def inferJ (Γ : Context) (term : Term) : Infer Ty := do
  Infer.draw Γ.reserve
  Γ.typeByLinks term

end Context

end HindleyMilner
