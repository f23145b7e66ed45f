import ScriptInject.Grammar.TypeName
/-! Variables, annotations and parameters. -/
namespace ScriptInject.Grammar
open ScriptInject.Grammar.Parser

/-- The rules that may contain themselves. The grammar is written over them, so that each of its
rules is an ordinary definition; they are tied together at the end, one level of nesting at a
time. -/
structure Nested where
  statement : Parser NodeId
  /-- An expression, in which commas build a list or end it. -/
  expression : (commas : Bool) → Parser NodeId
  unary : Parser NodeId

/-- What stands between square brackets. -/
inductive BracketHead where
  | type (t : TypeName)
  | attributeSpec (id : NodeId)

/-- An argument of an annotation. -/
inductive Argument where
  | positional (id : NodeId)
  | named (id : NodeId)

def Argument.positional? : Argument → Option NodeId
  | .positional id => some id
  | .named _ => none

def Argument.named? : Argument → Option NodeId
  | .positional _ => none
  | .named id => some id

/-- The variable of a path that has just been read. `using:` before a name, in any case, makes it a
reference to a variable outside. -/
def variableRef (path : String) (start : Nat) : Parser NodeId := do
  let cs := path.toList
  if 6 < Text.size cs then
    match Text.slice? cs 0 6 with
    | none => throw .cut
    | some scope =>
      if Text.caselessEq (String.ofList scope) "using:" then
        let target ← add (.variableRef (String.ofList (cs.drop scope.length)) false) start
        add (.usingExpression target) start
      else add (.variableRef path false) start
  else add (.variableRef path false) start

/-- A variable, where nothing else may stand. -/
def bareVariable (expected : String) : Parser NodeId := do
  let start ← start
  let some (.variableName path) ← peek | unexpected expected
  advance
  variableRef path start

variable (g : Nested)

/-- `Name = value`, a lone name or an expression. -/
def annotationArgument : Parser Argument := do
  let start ← start
  match ← peek, ← peekNext with
  | some (.word name), some (.mark .assign) =>
    advanceBy 2
    skipNewlines
    let value ← g.expression false
    return .named (← add (.namedArgument name (some value)) start)
  | some (.word name), some (.mark .comma)
  | some (.word name), some (.mark .rparen)
  | some (.word name), some .newline =>
    advance
    return .named (← add (.namedArgument name none) start)
  | _, _ => return .positional (← g.expression false)

/-- A type in brackets, or an annotation: a type with arguments. -/
def bracketHead : Parser BracketHead := do
  let start ← start
  expect .lbracket
  let t ← typeName
  if ← eat .lparen then
    let arguments ← untilParen (annotationArgument g)
    expect .rbracket
    let id ← add (.attributeSpec t (arguments.filterMap Argument.positional?)
      (arguments.filterMap Argument.named?)) start
    return .attributeSpec id
  expect .rbracket
  return .type t

/-- One annotation or type constraint before a parameter. -/
def parameterHead : Parser (Option NodeId) := do
  let start ← start
  let some (.mark .lbracket) ← peek | return none
  let id ← match ← bracketHead g with
    | .attributeSpec id => pure id
    | .type t => add (.typeConstraint t) start
  skipNewlines
  return some id

def parameter : Parser NodeId := do
  let start ← start
  let annotations ← many (parameterHead g)
  let name ← bareVariable "parameter variable"
  if ← eat .assign then
    skipNewlines
    let value ← g.expression false
    add (.parameter annotations name (some value)) start
  else add (.parameter annotations name none) start

/-- The annotations that stand here, if nothing but annotations stands in brackets here. -/
def annotationsUpTo : Nat → Parser (Option (List NodeId))
  | 0 => throw .stalled
  | n + 1 => do
    let some (.mark .lbracket) ← peek | return some []
    match ← attempt (bracketHead g) with
    | some (.attributeSpec id) =>
      skipNewlines
      return (← annotationsUpTo n).map (id :: ·)
    | _ => return none

def annotations : Parser (Option (List NodeId)) := do
  annotationsUpTo g ((← place).rest.length + 1)

/-- Annotations and `param (...)`. If no such block stands here, nothing has been read; errors in
what turns out not to be one are not errors of the script. -/
def paramBlock? : Parser (Option NodeId) := do
  let before ← place
  let start ← start
  let found ← speculatively (annotations g)
  match found, ← atWord "param", (← place).nextSignificant? with
  | some annotations, true, some (.mark .lparen) =>
    advance
    skipNewlines
    expect .lparen
    let parameters ← untilParen (parameter g)
    return some (← add (.paramBlock annotations parameters) start)
  | _, _, _ =>
    goto before
    return none

end ScriptInject.Grammar
