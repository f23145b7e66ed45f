import ScriptInject.Arena.Basic
/-! Why a text is not a script. -/
namespace ScriptInject

inductive ParseError where
  | unexpectedToken (position : Nat) (expected found : String)
  | unexpectedEnd (expected : String)
  | invalidToken (position : Nat) (text : String)
  | unclosedDelimiter (delimiter : String) (position : Nat)
  | invalidForm (position : Nat) (reason : String)
  /-- Constructs are nested deeper than the limit. -/
  | tooDeep (depth limit : Nat)
  | arena (cause : ArenaError)
deriving DecidableEq, Repr

namespace ParseError

def message : ParseError → String
  | .unexpectedToken position expected found =>
    "Unexpected token at position " ++ toString position ++ ": expected " ++ expected ++
      ", found " ++ found
  | .unexpectedEnd expected => "Unexpected end of input: expected " ++ expected
  | .invalidToken position text => "Invalid token at position " ++ toString position ++ ": " ++ text
  | .unclosedDelimiter delimiter position =>
    "Unclosed delimiter " ++ delimiter ++ " starting at position " ++ toString position
  | .invalidForm position reason =>
    "Invalid syntax at position " ++ toString position ++ ": " ++ reason
  | .tooDeep depth limit =>
    "Maximum parsing depth exceeded: depth " ++ toString depth ++ " exceeds limit of " ++
      toString limit
  | .arena cause => "Syntax tree error: " ++ cause.message

/-- The byte of the text that the error points at, where it points at one. -/
def position? : ParseError → Option Nat
  | .unexpectedToken position _ _ | .invalidToken position _ | .unclosedDelimiter _ position
  | .invalidForm position _ => some position
  | .unexpectedEnd _ | .tooDeep _ _ | .arena _ => none

/-- The same error in a text that lacks the first `offset` bytes; no position falls below zero. -/
def shiftBack (offset : Nat) : ParseError → ParseError
  | .unexpectedToken position expected found => .unexpectedToken (position - offset) expected found
  | .invalidToken position text => .invalidToken (position - offset) text
  | .unclosedDelimiter delimiter position => .unclosedDelimiter delimiter (position - offset)
  | .invalidForm position reason => .invalidForm (position - offset) reason
  | e => e

end ParseError

end ScriptInject
