import ScriptInject.ParseError
import ScriptInject.Token.Scan
/-! The tokens of a text, with or without tolerance for what is no token. -/
namespace ScriptInject

/-- What a piece contributes: nothing, a token, or the error of what is no token. -/
def Token.Cut.reading? (cut : Token.Cut) : Option (Except ParseError Lexeme) :=
  match cut.piece with
  | .token t => some (.ok ⟨t, cut.span⟩)
  | .trivia => none
  | .invalid => some (.error (.invalidToken cut.start (String.ofList cut.text)))
  | .unclosed delimiter => some (.error (.unclosedDelimiter delimiter cut.start))

namespace Lexeme

def readings (cs : List Char) : List (Except ParseError Lexeme) :=
  (Token.cuts cs).filterMap Token.Cut.reading?

/-- The tokens of a text, or its first error. -/
def ofText? (cs : List Char) : Except ParseError (List Lexeme) := (readings cs).mapM id

/-- The tokens of a text and all its errors, each in order. -/
def ofBrokenText (cs : List Char) : List Lexeme × List ParseError :=
  ((readings cs).filterMap fun r => r.toOption,
    (readings cs).filterMap fun
      | .ok _ => none
      | .error e => some e)

end Lexeme

end ScriptInject
