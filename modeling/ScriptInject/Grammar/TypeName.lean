import ScriptInject.Grammar.Parser
/-! Names of types. -/
namespace ScriptInject.Grammar
open ScriptInject.Grammar.Parser

/-- Words with dots between them; blanks around the dots do not matter. -/
def dottedName : Parser String := do
  let some (.word first) ← peek | unexpected "type name"
  advance
  let others ← many do
    match ← peek, ← peekNext with
    | some (.mark .dot), some (.word segment) =>
      advanceBy 2
      return some segment
    | _, _ => return none
  return ".".intercalate (first :: others)

/-- An argument of a generic type, which may stand in brackets of its own. -/
def typeArgument (typeName : Parser TypeName) : Parser TypeName := do
  if ← eat .lbracket then
    let t ← typeName
    expect .rbracket
    return t
  typeName

/-- One bracket after a type name: a rank, or the generic arguments of a plain name. -/
def typeBracket (typeName : Parser TypeName) (t : TypeName × Nat) :
    Parser (Option (TypeName × Nat)) := do
  let some (.mark .lbracket) ← peek | return none
  match ← peekNext, t with
  | some (.mark .rbracket), (t, rank) =>
    advanceBy 2
    return some (t, rank + 1)
  | some (.mark .comma), _ =>
    refuse (.invalidForm (← start) "multi-dimensional array types are not supported")
  | _, (.simple name, 0) =>
    advance
    let first ← typeArgument typeName
    let others ← afterCommas (typeArgument typeName)
    expect .rbracket
    return some (.generic name (first :: others), 0)
  | _, _ => return none

/-- A type name whose arguments are nested at most `n` deep. -/
def typeNameUpTo : Nat → Parser TypeName
  | 0 => throw .stalled
  | n + 1 => do
    let name ← dottedName
    let (t, rank) ← iterate (typeBracket (typeNameUpTo n)) (.simple name, 0)
    return if rank = 0 then t else .array t rank

/-- A dotted name with generic arguments and ranks, without outer brackets. Each level of arguments
reads a token. -/
def typeName : Parser TypeName := do
  typeNameUpTo ((← place).rest.length + 1)

/-- A type in brackets. -/
def typeConstraint : Parser NodeId := do
  let start ← start
  expect .lbracket
  let t ← typeName
  expect .rbracket
  add (.typeConstraint t) start

end ScriptInject.Grammar
