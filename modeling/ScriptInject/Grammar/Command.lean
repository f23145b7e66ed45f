import ScriptInject.Grammar.Attribute
/-! Pipelines: commands and expressions, one after the other. -/
namespace ScriptInject.Grammar
open ScriptInject.Grammar.Parser

/-- Tokens that go on with a bare word when they follow it without a gap. -/
def isBareWordPart : Token → Bool
  | .word _ | .number _ | .dashWord _ => true
  | .mark m =>
    match m with
    | .dot | .dotDot | .colon | .backslash | .slash | .minus | .star => true
    | _ => false
  | _ => false

/-- How many tokens go on with a bare word that ends at byte `stop`, and where it ends then. -/
def glued : Nat → List Lexeme → Nat × Nat
  | stop, [] => (0, stop)
  | stop, l :: ls =>
    if l.span.start == stop && isBareWordPart l.token then
      let (n, stop) := glued l.span.stop ls
      (n + 1, stop)
    else (0, stop)

/-- Reads the current token and all that is glued to it, as one text. -/
def bareWordText : Parser String := do
  match (← place).rest with
  | [] => return ""
  | l :: ls =>
    let (n, stop) := glued l.span.stop ls
    advanceBy (n + 1)
    slice l.span.start stop

def bareWord : Parser NodeId := do
  let start ← start
  let value ← bareWordText
  add (.stringConstant value .bareWord) start

variable (g : Nested)

/-- Operands with commas between them make a list. -/
def operands (start : Nat) : Parser NodeId := do
  let first ← g.unary
  let some (.mark .comma) ← peek | return first
  let others ← afterCommas do
    skipNewlines
    g.unary
  add (.arrayLiteral (first :: others)) start

def commandArgument : Parser NodeId := do
  let start ← start
  match ← peek with
  | some (.word _) | some (.mark .dot) | some (.mark .backslash) | some (.mark .slash)
  | some (.mark .star) => bareWord
  | _ => operands g start

/-- `-Name`, or `-Name:` and an argument. -/
def commandParameter (dashWord : String) : Parser NodeId := do
  let start ← start
  advance
  let cs := dashWord.toList
  if cs.getLast? = some ':' then
    let argument ← commandArgument g
    add (.commandParameter (String.ofList (cs.dropLast.drop 1)) (some argument)) start
  else add (.commandParameter (String.ofList (cs.drop 1)) none) start

/-- One more element of a command, unless the command ends here. -/
def commandElement : Parser (Option NodeId) := do
  match ← peek with
  | none | some .newline | some (.mark .semicolon) | some (.mark .pipe) | some (.mark .rparen)
  | some (.mark .rbrace) => return none
  | some (.dashWord w) => return some (← commandParameter g w)
  | some _ => return some (← commandArgument g)

/-- The mark of an invocation. A dot with something glued to it belongs to a bare word. -/
def invocation? : Parser (Option Invocation) := do
  match ← peek with
  | some (.mark .ampersand) =>
    advance
    return some .call
  | some (.mark .dot) =>
    if (← place).isNextAdjacent then
      return none
    advance
    return some .dotSource
  | _ => return none

def command : Parser NodeId := do
  let start ← start
  let invocation ← invocation?
  let name ← if invocation.isSome then commandArgument g else bareWord
  let others ← many (commandElement g)
  add (.command invocation (name :: others)) start

/-- Whether a command starts here rather than an expression. -/
def atCommand (afterPipe : Bool) : Parser Bool := do
  match ← peek with
  | some (.word _) | some (.mark .ampersand) | some (.mark .dot) | some (.mark .backslash) =>
    return true
  | some (.mark .question) | some (.mark .percent) => return afterPipe
  | _ => return false

def assignmentOperator? : Token → Option AssignmentOperator
  | .mark .assign => some .assign
  | .mark .plusAssign => some .add
  | .mark .minusAssign => some .subtract
  | .mark .starAssign => some .multiply
  | .mark .slashAssign => some .divide
  | .mark .percentAssign => some .remainder
  | _ => none

/-- An expression in the place of a command; it keeps the expression's span. -/
def expressionElement (expression : NodeId) : Parser NodeId := do
  let span := ((← get).arena.span? expression).getD {}
  addAt (.commandExpression expression) span

/-- An element after a pipe. -/
def laterElement : Parser NodeId := do
  skipNewlines
  if ← atCommand true then command g
  else expressionElement (← g.expression true)

/-- The elements after the first one. -/
def pipelineFrom (start : Nat) (first : NodeId) : Parser NodeId := do
  let others ← many do
    if ← eat .pipe then
      return some (← laterElement g)
    return none
  add (.pipeline (first :: others)) start

/-- Commands and expressions with pipes between them, or an assignment. -/
def pipeline : Parser NodeId := do
  let start ← start
  if ← atCommand false then
    pipelineFrom g start (← command g)
  else
    let expression ← g.expression true
    match (← peek).bind assignmentOperator? with
    | some operator =>
      advance
      skipNewlines
      let right ← g.statement
      add (.assignment expression operator right) start
    | none => pipelineFrom g start (← expressionElement expression)

end ScriptInject.Grammar
