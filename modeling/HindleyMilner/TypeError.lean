import HindleyMilner.Ty

/-!
# Type errors

Why a term has no type: a name without a binding, two types with different heads, or a variable that
would have to contain itself.
-/

namespace HindleyMilner

inductive TypeError where
  | unbound (name : String)
  | mismatch (left right : Ty)
  | infinite (var : Nat) (ty : Ty)
  deriving DecidableEq, Repr

namespace TypeError

inductive Kind where
  | unboundVariable
  | typeMismatch
  | occursCheck
  deriving DecidableEq, Repr

def kind : TypeError → Kind
  | unbound _ => .unboundVariable
  | mismatch _ _ => .typeMismatch
  | infinite _ _ => .occursCheck

def Kind.label : Kind → String
  | unboundVariable => "unbound-variable"
  | typeMismatch => "type-mismatch"
  | occursCheck => "occurs-check"

def message : TypeError → String
  | unbound name => "Unbound variable: " ++ name
  | mismatch left right =>
    "Type mismatch: " ++ left.render ++ " and " ++ right.render ++ " do not unify"
  | infinite v ty => "Infinite type: " ++ Ty.varName v ++ " occurs in " ++ ty.render

end TypeError

end HindleyMilner
