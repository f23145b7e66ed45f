import ScriptInject.Grammar.Block
/-! Expressions, from the operands outwards. -/
namespace ScriptInject.Grammar
open ScriptInject.Grammar.Parser

/-- Double-quoted text in which something may be replaced. -/
def isExpandable (body : String) : Bool := body.toList.any fun c => c == '$' || c == '\x60'

def doubleQuoted (body : String) (kind : StringKind) (start : Nat) : Parser NodeId :=
  if isExpandable body then add (.expandableString body kind) start
  else add (.stringConstant body kind) start

/-- The array literal that is all there is to a statement. -/
def loneArray? (a : Arena) (statement : NodeId) : Option NodeId :=
  match a.get? statement with
  | some (.pipeline [element]) =>
    match a.get? element with
    | some (.commandExpression expression) =>
      match a.get? expression with
      | some (.arrayLiteral _) => some expression
      | _ => none
    | _ => none
  | _ => none

/-- Tokens that start the operand of a conversion. -/
def startsOperand : Token → Bool
  | .variableName _ | .splat _ | .number _ | .singleQuoted _ | .doubleQuoted _
  | .singleHereString _ | .doubleHereString _ => true
  | .mark m =>
    match m with
    | .lparen | .dollarParen | .atParen | .atBrace | .lbracket => true
    | _ => false
  | _ => false

def unaryOperator? : Token → Option UnaryOperator
  | .mark .bang => some .bang
  | .mark .minus => some .negate
  | .mark .plus => some .plus
  | .mark .plusPlus => some .preIncrement
  | .mark .minusMinus => some .preDecrement
  | .dashWord w => UnaryOperator.ofDashWord? w
  | _ => none

def binaryOperator? : Token → Option BinaryOperator
  | .mark .plus => some .add
  | .mark .minus => some .subtract
  | .mark .star => some .multiply
  | .mark .slash => some .divide
  | .mark .percent => some .remainder
  | .mark .dotDot => some .range
  | .dashWord w => BinaryOperator.ofDashWord? (String.ofList (w.toList.drop 1))
  | _ => none

variable (g : Nested)

/-- A statement in parentheses. Parentheses around a list alone are the list's own. -/
def paren (start : Nat) : Parser NodeId := do
  advance
  skipNewlines
  let statement ← pipeline g
  skipNewlines
  expect .rparen
  match loneArray? (← get).arena statement with
  | some array => return array
  | none => add (.paren statement) start

/-- Statements up to and with a closing parenthesis, after the mark that opens them. -/
def statementsInParens : Parser (List NodeId) := do
  advance
  let statements ← statementList g .paren
  expect .rparen
  return statements

/-- A key and its value, unless the table ends here. -/
def hashtablePair : Parser (Option (NodeId × NodeId)) := do
  skipTerminators
  if ← eat .rbrace then
    return none
  let key ← match ← peek with
    | some (.word _) => bareWord
    | _ => g.unary
  skipNewlines
  expect .assign
  skipNewlines
  let value ← g.statement
  match ← peek with
  | some .newline | some (.mark .semicolon) | some (.mark .rbrace) => return some (key, value)
  | _ => unexpected "';' or '\x7d'"

def hashtable (start : Nat) : Parser NodeId := do
  advance
  let pairs ← many (hashtablePair g)
  add (.hashtable pairs) start

def scriptBlockExpression (start : Nat) : Parser NodeId := do
  advance
  let body ← scriptBlock g .brace
  expect .rbrace
  add (.scriptBlockExpression body) start

/-- A member after its mark, and the arguments if it is called. -/
def memberAccess (primary : Parser NodeId) (begin : Nat) (target : NodeId)
    (isStatic nullConditional : Bool) : Parser NodeId := do
  advance
  let start ← start
  let name ← match ← peek with
    | some (.word w) =>
      advance
      add (.stringConstant w .bareWord) start
    | _ => primary
  let p ← place
  if p.current? = some (.mark .lparen) ∧ p.isAdjacent then
    advance
    let arguments ← untilParen (g.expression false)
    add (.invokeMember target name arguments isStatic nullConditional) begin
  else add (.member target name isStatic nullConditional) begin

def indexAccess (begin : Nat) (target : NodeId) (nullConditional : Bool) : Parser NodeId := do
  advance
  skipNewlines
  let key ← g.expression true
  skipNewlines
  expect .rbracket
  add (.index target key nullConditional) begin

def trailingUnary (begin : Nat) (operator : UnaryOperator) (target : NodeId) : Parser NodeId := do
  advance
  add (.unary operator target) begin

/-- One access, call or trailing operator that is glued to what stands before it. -/
def access (primary : Parser NodeId) (begin : Nat) (target : NodeId) : Parser (Option NodeId) := do
  let p ← place
  if !p.isAdjacent then
    return none
  match p.current? with
  | some (.mark .dot) => return some (← memberAccess g primary begin target false false)
  | some (.mark .colonColon) => return some (← memberAccess g primary begin target true false)
  | some (.mark .questionDot) => return some (← memberAccess g primary begin target false true)
  | some (.mark .lbracket) => return some (← indexAccess g begin target false)
  | some (.mark .questionBracket) => return some (← indexAccess g begin target true)
  | some (.mark .plusPlus) => return some (← trailingUnary begin .postIncrement target)
  | some (.mark .minusMinus) => return some (← trailingUnary begin .postDecrement target)
  | _ => return none

def accesses (primary : Parser NodeId) (begin : Nat) (target : NodeId) : Parser NodeId :=
  iterate (access g primary begin) target

/-- `[Note()]operand`, `[type]operand` or a type alone. -/
def bracketExpression (primary : Parser NodeId) : Parser NodeId := do
  let start ← start
  match ← bracketHead g with
  | .attributeSpec id =>
    let child ← g.unary
    add (.annotated id child) start
  | .type t =>
    if (← peek).any startsOperand then
      let type ← add (.typeConstraint t) start
      let child ← g.unary
      add (.convert type child) start
    else
      let expression ← add (.typeExpression t) start
      accesses g primary start expression

/-- The innermost operands. Only a member of a type may be such an operand again, without an
expression around it. -/
def primaryUpTo : Nat → Parser NodeId
  | 0 => throw .stalled
  | n + 1 => do
    let start ← start
    match ← peek with
    | some (.variableName path) =>
      advance
      variableRef path start
    | some (.splat name) =>
      advance
      add (.variableRef name true) start
    | some (.number text) =>
      advance
      add (.number text) start
    | some (.singleQuoted value) =>
      advance
      add (.stringConstant value .singleQuoted) start
    | some (.singleHereString value) =>
      advance
      add (.stringConstant value .singleQuotedHereString) start
    | some (.doubleQuoted body) =>
      advance
      doubleQuoted body .doubleQuoted start
    | some (.doubleHereString body) =>
      advance
      doubleQuoted body .doubleQuotedHereString start
    | some (.word w) =>
      advance
      add (.stringConstant w .bareWord) start
    | some (.mark .lparen) => paren g start
    | some (.mark .dollarParen) => add (.subExpression (← statementsInParens g)) start
    | some (.mark .atParen) => add (.arrayExpression (← statementsInParens g)) start
    | some (.mark .atBrace) => hashtable g start
    | some (.mark .lbrace) => scriptBlockExpression g start
    | some (.mark .lbracket) => bracketExpression g (primaryUpTo n)
    | _ => unexpected "expression"

def primary : Parser NodeId := do
  primaryUpTo g ((← place).rest.length + 1)

/-- An operand with its leading operators, or with what is glued to it. -/
def unary : Parser NodeId := do
  let start ← start
  match ← peek with
  | some (.mark .lbracket) => bracketExpression g (primary g)
  | t =>
    match t.bind unaryOperator? with
    | some operator =>
      advance
      let child ← g.unary
      add (.unary operator child) start
    | none =>
      let target ← primary g
      accesses g (primary g) start target

/-- An operand or, where commas build lists, a list. A leading comma makes a list of one. -/
def listOrOperand (commas : Bool) : Parser NodeId := do
  let start ← start
  if commas then
    if ← eat .comma then
      skipNewlines
      let element ← g.unary
      add (.arrayLiteral [element]) start
    else operands g start
  else g.unary

/-- One operator of the given precedence and its right side. -/
def binaryStep (operand : Parser NodeId) (precedence begin : Nat) (left : NodeId) :
    Parser (Option NodeId) := do
  match (← peek).bind binaryOperator? with
  | some operator =>
    if operator.precedence = precedence then
      advance
      skipNewlines
      let right ← operand
      return some (← add (.binary operator left right) begin)
    return none
  | none => return none

/-- Operands joined by the operators of the `levels` tightest of the seven levels. -/
def binary (operand : Parser NodeId) : Nat → Parser NodeId
  | 0 => operand
  | levels + 1 => do
    let start ← start
    let left ← binary operand levels
    iterate (binaryStep (binary operand levels) (6 - levels) start) left

/-- A condition with its two outcomes, or an expression without one. -/
def ternary (commas : Bool) : Parser NodeId := do
  let start ← start
  let condition ← binary (listOrOperand g commas) 7
  if ← eat .question then
    skipNewlines
    let whenTrue ← g.expression commas
    skipNewlines
    expect .colon
    skipNewlines
    let whenFalse ← g.expression commas
    add (.ternary condition whenTrue whenFalse) start
  else return condition

end ScriptInject.Grammar
