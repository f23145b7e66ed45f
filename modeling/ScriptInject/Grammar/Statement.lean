import ScriptInject.Grammar.Expression
/-! Statements. -/
namespace ScriptInject.Grammar
open ScriptInject.Grammar.Parser

/-- `:name` without a gap. -/
def label? : Parser (Option String) := do
  let p ← place
  match p.current?, p.next? with
  | some (.mark .colon), some (.word w) =>
    if p.isNextAdjacent then
      advanceBy 2
      return some w
    return none
  | _, _ => return none

def jumpLabel? : Parser (Option String) := do
  let some (.word w) ← peek | return none
  advance
  return some w

variable (g : Nested)

/-- The value after `return` or `throw`, if there is one. -/
def optionalPipeline : Parser (Option NodeId) := do
  match ← peek with
  | none | some .newline | some (.mark .semicolon) | some (.mark .rbrace) | some (.mark .rparen) =>
    return none
  | _ => return some (← pipeline g)

/-- `( pipeline )` -/
def condition : Parser NodeId := do
  skipNewlines
  expect .lparen
  skipNewlines
  let id ← pipeline g
  skipNewlines
  expect .rparen
  return id

/-- A condition and the block it guards. -/
def clause : Parser (NodeId × NodeId) := do
  let test ← condition g
  let body ← statementBlock g
  return (test, body)

/-- Runs `p` after a certain word; line ends before the word do not matter. Without the word,
nothing is read. -/
def afterWord? {α : Type} (keyword : String) (p : Parser α) : Parser (Option α) := do
  let before ← place
  skipNewlines
  if ← atWord keyword then
    return some (← p)
  goto before
  return none

def ifStatement (start : Nat) : Parser NodeId := do
  advance
  let first ← clause g
  let others ← many (afterWord? "elseif" (do advance; clause g))
  let elseBody ← afterWord? "else" (do advance; statementBlock g)
  add (.ifStatement (first :: others) elseBody) start

def whileLoop (label : Option String) (start : Nat) : Parser NodeId := do
  advance
  let (test, body) ← clause g
  add (.whileLoop label test body) start

def doLoop (label : Option String) (start : Nat) : Parser NodeId := do
  advance
  let body ← statementBlock g
  skipNewlines
  if ← atWord "while" then
    advance
    let test ← condition g
    add (.doWhile label body test) start
  else if ← atWord "until" then
    advance
    let test ← condition g
    add (.doUntil label body test) start
  else unexpected "'while' or 'until'"

/-- A part of a `for` header and the mark after it; the part may be left out. -/
def forPart (stop : Mark) : Parser (Option NodeId) := do
  skipNewlines
  let part ← if (← peek) = some (.mark stop) then pure none else some <$> pipeline g
  skipNewlines
  expect stop
  return part

def forLoop (label : Option String) (start : Nat) : Parser NodeId := do
  advance
  skipNewlines
  expect .lparen
  let first ← forPart g .semicolon
  let test ← forPart g .semicolon
  let step ← forPart g .rparen
  let body ← statementBlock g
  add (.forLoop label first test step body) start

def forEach (label : Option String) (start : Nat) : Parser NodeId := do
  advance
  skipNewlines
  expect .lparen
  skipNewlines
  let item ← bareVariable "loop variable"
  skipNewlines
  if ← atWord "in" then
    advance
    skipNewlines
    let items ← pipeline g
    skipNewlines
    expect .rparen
    let body ← statementBlock g
    add (.forEach label item items body) start
  else unexpected "'in'"

/-- The types before a block that handles their errors. -/
def caughtTypesUpTo : Nat → Parser (List NodeId)
  | 0 => throw .stalled
  | n + 1 => do
    let some (.mark .lbracket) ← peek | return []
    let type ← typeConstraint
    skipNewlines
    if ← eat .comma then
      skipNewlines
      return type :: (← caughtTypesUpTo n)
    return [type]

def caughtTypes : Parser (List NodeId) := do
  caughtTypesUpTo ((← place).rest.length + 1)

def catchClause : Parser NodeId := do
  let start ← start
  advance
  let types ← caughtTypes
  let body ← statementBlock g
  add (.catchClause types body) start

def tryStatement (start : Nat) : Parser NodeId := do
  advance
  let body ← statementBlock g
  let catches ← many (afterWord? "catch" (catchClause g))
  let cleanup ← afterWord? "finally" (do advance; statementBlock g)
  if catches.isEmpty && cleanup.isNone then
    refuse (.invalidForm start "a try statement needs a catch or finally block")
  else add (.tryStatement body catches cleanup) start

def trap (start : Nat) : Parser NodeId := do
  advance
  let type ← match ← peek with
    | some (.mark .lbracket) => some <$> typeConstraint
    | _ => pure none
  let body ← statementBlock g
  add (.trap type body) start

def functionDefinition (isFilter : Bool) (start : Nat) : Parser NodeId := do
  advance
  let some (.word _) ← peek | unexpected "function name"
  let name ← bareWordText
  let parameters ← if ← eat .lparen then untilParen (parameter g) else pure []
  skipNewlines
  expect .lbrace
  let body ← scriptBlock g .brace
  expect .rbrace
  add (.functionDefinition name isFilter parameters body) start

/-- The rule for a word that starts a loop, with or without a label. -/
def loopRule? (keyword : String) (next : Option Token) (label : Option String) (start : Nat) :
    Option (Parser NodeId) :=
  match keyword with
  | "while" => some (whileLoop g label start)
  | "do" => some (doLoop g label start)
  | "for" => some (forLoop g label start)
  | "foreach" => if next = some (.mark .lparen) then some (forEach g label start) else none
  | _ => none

/-- The rule for any other word that starts a statement of its own. -/
def statementRule? (keyword : String) (start : Nat) : Option (Parser NodeId) :=
  match keyword with
  | "function" => some (functionDefinition g false start)
  | "filter" => some (functionDefinition g true start)
  | "if" => some (ifStatement g start)
  | "try" => some (tryStatement g start)
  | "trap" => some (trap g start)
  | "return" => some do
    advance
    let value ← optionalPipeline g
    add (.returnStatement value) start
  | "throw" => some do
    advance
    let value ← optionalPipeline g
    add (.throwStatement value) start
  | "break" => some do
    advance
    let label ← jumpLabel?
    add (.breakStatement label) start
  | "continue" => some do
    advance
    let label ← jumpLabel?
    add (.continueStatement label) start
  | _ => none

def statement : Parser NodeId := do
  let start ← start
  let label ← label?
  let p ← place
  let keyword? := match p.current? with
    | some (.word w) => some (Text.lower w)
    | _ => none
  match keyword?.bind (loopRule? g · p.next? label start) with
  | some rule => rule
  | none =>
    if label.isSome then
      refuse (.invalidForm start "a label must be followed by a loop statement")
    else
      match keyword?.bind (statementRule? g · start) with
      | some rule => rule
      | none => pipeline g

end ScriptInject.Grammar
