/-!
# Terms

The terms of the calculus, with names for variables. In the written form an application
binds tightest and to the left, and the bodies of abstractions and lets reach as far to the
right as they can.
-/

namespace HindleyMilner

inductive Term where
  | int (value : Int)
  | bool (value : Bool)
  | var (name : String)
  | app (func arg : Term)
  | abs (param : String) (body : Term)
  | letIn (name : String) (init body : Term)
  deriving DecidableEq, Repr, Inhabited

namespace Term

/-- The outermost constructor of a term. -/
inductive Form where
  | int
  | bool
  | var
  | app
  | abs
  | letIn
  deriving DecidableEq, Repr

def form : Term → Form
  | int _ => .int
  | bool _ => .bool
  | var _ => .var
  | app _ _ => .app
  | abs _ _ => .abs
  | letIn _ _ _ => .letIn

def Form.label : Form → String
  | int => "int"
  | bool => "bool"
  | var => "var"
  | app => "app"
  | abs => "abs"
  | letIn => "let"

/-- Literals and variables are written without parentheses as arguments. -/
def isAtomic : Term → Bool
  | int _ => true
  | bool _ => true
  | var _ => true
  | _ => false

/-- Abstractions and lets are written in parentheses as functions. -/
def isOpenEnded : Term → Bool
  | abs _ _ => true
  | letIn _ _ _ => true
  | _ => false

def render : Term → String
  | int value => toString value
  | bool value => toString value
  | var name => name
  | app func arg =>
    (if func.isOpenEnded then "(" ++ func.render ++ ")" else func.render) ++ " " ++
      (if arg.isAtomic then arg.render else "(" ++ arg.render ++ ")")
  | abs param body => "λ" ++ param ++ "." ++ body.render
  | letIn name init body => "let " ++ name ++ " = " ++ init.render ++ " in " ++ body.render

end Term

end HindleyMilner
