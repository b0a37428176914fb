import HindleyMilner.Session
import HindleyMilner.Unification

/-!
# Inference with substitutions

Algorithm W. The result for a term is a substitution, which says what typing the term demands of
the variables of the context, together with the type of the term under it. Each subterm is typed
in the context under the substitutions of the subterms before it, and the substitutions are
composed in that order.
-/

namespace HindleyMilner

namespace Infer

def mgu (a b : Ty) : Infer Subst :=
  match a.mgu b with
  | .ok s => return s
  | .error e => throw (.illTyped e)

end Infer

namespace Context

def concludeW (form : Term.Form) (s : Subst) (t : Ty) : Infer (Subst × Ty) := do
  Infer.report (.typedW form t s)
  return (s, t)

/-- The substitution and the type of a term; every subterm that has a type is reported. -/
def typeBySubst (Γ : Context) : Term → Infer (Subst × Ty)
  | .int _ => concludeW .int ∅ .int
  | .bool _ => concludeW .bool ∅ .bool
  | .var name => do
    let t ← Infer.lookup Γ name
    concludeW .var ∅ t
  | .app func arg => do
    let result ← Infer.fresh
    let (s₁, t₁) ← typeBySubst Γ func
    let (s₂, t₂) ← typeBySubst (Γ.subst s₁) arg
    let u ← Infer.mgu (t₁.subst s₂) (.fn t₂ result)
    concludeW .app (u.comp (s₂.comp s₁)) (result.subst u)
  | .abs param body => do
    let t ← Infer.fresh
    -- A binding that is hidden gives up its place in the order of the context.
    -- No run depends on that order.
    let (s, t') ← typeBySubst (Γ.insert param (.mono t)) body
    concludeW .abs s (.fn (t.subst s) t')
  | .letIn name init body => do
    let (s₁, t₁) ← typeBySubst Γ init
    let scheme := generalize (Γ.subst s₁) t₁
    Infer.report (.bound .w name scheme)
    let (s₂, t₂) ← typeBySubst (subst s₁ (Γ.insert name scheme)) body
    concludeW .letIn (s₂.comp s₁) t₂

/-- Algorithm W, with variables above all that the bodies of the context mention. -/
def inferW (Γ : Context) (term : Term) : Infer (Subst × Ty) := do
  Infer.draw Γ.reserve
  Γ.typeBySubst term

end Context

end HindleyMilner
