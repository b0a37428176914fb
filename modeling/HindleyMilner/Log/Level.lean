/-!
# Log levels

Levels from the most to the least talkative. An event is printed when its level is at least
the level in force.
-/

namespace HindleyMilner.Log

inductive Level where
  | trace
  | debug
  | info
  | warn
  | error
  deriving DecidableEq, Repr, Inhabited

namespace Level

def rank : Level → Nat
  | trace => 0
  | debug => 1
  | info => 2
  | warn => 3
  | error => 4

/-- The word for a level in settings. -/
def keyword : Level → String
  | trace => "trace"
  | debug => "debug"
  | info => "info"
  | warn => "warn"
  | error => "error"

/-- The word for a level at the head of a log line. -/
def label : Level → String
  | trace => "TRACE"
  | debug => "DEBUG"
  | info => "INFO"
  | warn => "WARN"
  | error => "ERROR"

def all : List Level := [trace, debug, info, warn, error]

def ofKeyword? (text : String) : Option Level := all.find? (·.keyword = text)

/-- Lower case for ASCII letters; all other characters stay. -/
def lowered (text : String) : String := text.map Char.toLower

/-- Reads a level in any mixture of cases, `warning` included; otherwise quotes the
text in lower case. -/
def ofText (text : String) : Except String Level :=
  match ofKeyword? (lowered text) with
  | some level => .ok level
  | none =>
    if lowered text = "warning" then .ok warn
    else .error ("unknown log level '" ++ lowered text ++ "'")

end Level

end HindleyMilner.Log
