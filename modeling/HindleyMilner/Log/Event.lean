import HindleyMilner.Context
import HindleyMilner.Settings
import HindleyMilner.Term
import HindleyMilner.Text.Escaped
import HindleyMilner.TypeError

/-!
# Events

What inference reports while it works. Steps of the algorithms are events at level trace; results
for a whole term are events at level debug.
-/

namespace HindleyMilner.Log

inductive Event where
  /-- Algorithm W has typed a subterm. -/
  | typedW (form : Term.Form) (ty : Ty) (subst : Subst)
  /-- Algorithm J has typed a subterm. -/
  | typedJ (form : Term.Form) (ty : Ty)
  /-- A `let` has given a name a scheme. -/
  | bound (algorithm : Algorithm) (name : String) (scheme : Scheme)
  /-- Two different representatives are about to be unified. -/
  | unifying (left right : Ty)
  /-- The engine has found a type for a term, or that it has none. -/
  | inferred (context : Context) (term : Term) (result : Except TypeError Ty)
      (algorithm : Algorithm)
  /-- The engine has found a scheme for a term. -/
  | generalized (context : Context) (term : Term) (scheme : Scheme)
  /-- The two algorithms differ on a term. -/
  | disagreed (term : Term) (w j : Except TypeError Ty)

namespace Event

def level : Event → Level
  | typedW _ _ _ => .trace
  | typedJ _ _ => .trace
  | bound _ _ _ => .trace
  | unifying _ _ => .trace
  | inferred _ _ _ _ => .debug
  | generalized _ _ _ => .debug
  | disagreed _ _ _ => .debug

def spellError : TypeError → String
  | .unbound name => "UnboundVariable \x7b name: " ++ Text.quoted name ++ " \x7d"
  | .mismatch left right =>
    "TypeMismatch \x7b left: " ++ left.spell ++ ", right: " ++ right.spell ++ " \x7d"
  | .infinite v ty => "OccursCheck \x7b var: " ++ Ty.spellVar v ++ ", ty: " ++ ty.spell ++ " \x7d"

def spellResult : Except TypeError Ty → String
  | .ok t => "Ok(" ++ t.spell ++ ")"
  | .error e => "Err(" ++ spellError e ++ ")"

def message : Event → String
  | typedW form ty subst => "W: " ++ form.label ++ " : " ++ ty.render ++ " with " ++ subst.render
  | typedJ form ty => "J: " ++ form.label ++ " : " ++ ty.render
  | bound algorithm name scheme => algorithm.label ++ ": let " ++ name ++ " : " ++ scheme.render
  | unifying left right => "unify " ++ left.render ++ " ~ " ++ right.render
  | inferred context term (.ok ty) algorithm =>
    context.render ++ " ⊢ " ++ term.render ++ " : " ++ ty.render ++ " (algorithm " ++
      algorithm.label ++ ")"
  | inferred context term (.error e) algorithm =>
    context.render ++ " ⊢ " ++ term.render ++ " failed: " ++ e.message ++ " (algorithm " ++
      algorithm.label ++ ")"
  | generalized context term scheme =>
    context.render ++ " ⊢ " ++ term.render ++ " : " ++ scheme.render
  | disagreed term w j =>
    "W and J disagree on " ++ term.render ++ ": " ++ spellResult w ++ " vs " ++ spellResult j

/-- The text to print: the level, then the message. -/
def line (event : Event) : String := event.level.label ++ " " ++ event.message

end Event

end HindleyMilner.Log
