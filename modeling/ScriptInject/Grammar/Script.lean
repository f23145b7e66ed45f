import ScriptInject.Grammar.Statement
/-! Scripts: the grammar tied together, and readings of whole texts. -/
namespace ScriptInject
namespace Grammar
open ScriptInject.Grammar.Parser

/-- The rules that contain themselves, with at most `n` levels of nesting. The depth that is counted
while reading and `n` add up to the limit, so the limit is what refuses a deeper text. -/
def nested : Nat → Nested
  | 0 =>
    { statement := guarded (throw .stalled)
      expression := fun _ => guarded (throw .stalled)
      unary := guarded (throw .stalled) }
  | n + 1 =>
    { statement := fun i s => guarded (statement (nested n)) i s
      expression := fun commas i s => guarded (ternary (nested n) commas) i s
      unary := fun i s => guarded (unary (nested n)) i s }

/-- Reads the tokens to the end. -/
def script (i : Input) (s : State) : EStateM.Result Failure State NodeId :=
  scriptBlock (nested i.maxDepth) .endOfText i s

end Grammar

namespace Script
open Grammar

/-- How deep constructs are nested unless another limit is given. -/
def defaultMaxDepth : Nat := 128

/-- Reads a text, or tells the first error in it. -/
def parseWithin (maxDepth : Nat) (source : String) : Except Failure Arena :=
  let text := source.toList
  match Lexeme.ofText? text with
  | .error e => .error (.refused e)
  | .ok lexemes =>
    match script ⟨text, maxDepth⟩ { place := { rest := lexemes } } with
    | .ok root s => .ok (s.arena.withRoot root)
    | .error f _ => .error f

def parse (source : String) : Except Failure Arena := parseWithin defaultMaxDepth source

/-- Reads what can be read of a text and keeps broken statements as error nodes. The errors of the
tokens come before those of the grammar. Without a root, what was read is all there is. -/
def parseRecovering (source : String) : Except Failure (Arena × List ParseError) :=
  let text := source.toList
  let (lexemes, tokenErrors) := Lexeme.ofBrokenText text
  match script ⟨text, defaultMaxDepth⟩ { place := { rest := lexemes }, recovering := true } with
  | .ok root s => .ok (s.arena.withRoot root, tokenErrors ++ s.errors)
  | .error (.refused e) s => .ok (s.arena, tokenErrors ++ s.errors ++ [e])
  | .error f _ => .error f

/-- The source with a line before it for each namespace it is to use. -/
def prepare (source : String) (namespaces : List String) : String :=
  String.join (namespaces.map fun name => "using namespace " ++ name ++ ";\n") ++ source

end Script

end ScriptInject
