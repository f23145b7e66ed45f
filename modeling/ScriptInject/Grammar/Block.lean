import ScriptInject.Grammar.Command
/-! Lists of statements and the blocks that hold them. -/
namespace ScriptInject.Grammar
open ScriptInject.Grammar.Parser

/-- How many tokens belong to a broken statement: up to a terminator or the closer of the enclosing
list, both outside of all brackets that the statement opens. -/
def brokenLength (closer : Closer) : List Closer → List Lexeme → Nat
  | _, [] => 0
  | inner, l :: ls =>
    match l.token with
    | .newline | .mark .semicolon => if inner.isEmpty then 0 else brokenLength closer inner ls + 1
    | .mark .lparen | .mark .dollarParen | .mark .atParen =>
      brokenLength closer (.paren :: inner) ls + 1
    | .mark .lbrace | .mark .atBrace => brokenLength closer (.brace :: inner) ls + 1
    | .mark .lbracket | .mark .questionBracket => brokenLength closer (.bracket :: inner) ls + 1
    | .mark .rparen | .mark .rbrace | .mark .rbracket =>
      if inner.head?.any (·.isAt (some l.token)) then brokenLength closer inner.tail ls + 1
      else if closer.isAt (some l.token) then 0
      else brokenLength closer inner ls + 1
    | _ => brokenLength closer inner ls + 1

/-- How many tokens a broken statement takes: at least one, and no line ends at its end. -/
def errorLength (closer : Closer) (ls : List Lexeme) : Nat :=
  let n := max 1 (brokenLength closer [] ls)
  let trailing := ((ls.take n).reverse.takeWhile (·.token == .newline)).length
  max 1 (n - trailing)

/-- Keeps a broken statement as the text it has. -/
def errorStatement (closer : Closer) : Parser NodeId := do
  let start ← start
  advanceBy (errorLength closer (← place).rest)
  let text ← slice start (max (← place).stop start)
  add (.error text) start

/-- Whether a refusal can be made good by keeping the broken statement. -/
def isRecoverable : ParseError → Bool
  | .arena _ => false
  | _ => true

/-- Runs a rule; a recovering reading notes what it refuses and goes back to run `other`. -/
def orElseKeep {α : Type} (p other : Parser α) : Parser α := fun i s =>
  match p i s with
  | .ok a t => .ok a t
  | .error (.refused e) t =>
    if t.recovering && isRecoverable e then
      other i { t with errors := t.errors ++ [e], place := s.place }
    else .error (.refused e) t
  | .error f t => .error f t

variable (g : Nested)

/-- A statement up to its end: a terminator, the closer of the list, or its own closing brace. -/
def terminatedStatement (closer : Closer) : Parser NodeId := do
  let id ← g.statement
  let p ← place
  let closedByBrace := p.last?.any fun l => l.token == .mark .rbrace
  match p.current? with
  | none | some .newline | some (.mark .semicolon) => return id
  | t => if closer.isAt t || closedByBrace then return id else unexpected "end of statement"

/-- One more statement, unless the list ends here. -/
def listedStatement (closer : Closer) : Parser (Option NodeId) := do
  skipTerminators
  let t ← peek
  if t.isNone || closer.isAt t then
    return none
  return some (← orElseKeep (terminatedStatement g closer) (errorStatement closer))

def statementList (closer : Closer) : Parser (List NodeId) := many (listedStatement g closer)

/-- `{ statements }` -/
def statementBlock : Parser NodeId := do
  skipNewlines
  let start ← start
  expect .lbrace
  let statements ← statementList g .brace
  expect .rbrace
  add (.statementBlock statements) start

/-- Traps belong to their block and not to its statements. -/
def isTrap (a : Arena) (id : NodeId) : Bool :=
  match a.get? id with
  | some (.trap ..) => true
  | _ => false

def addNamedBlock (kind : BlockKind) (unnamed : Bool) (statements : List NodeId) (start : Nat) :
    Parser NodeId := do
  let a := (← get).arena
  add (.namedBlock kind unnamed (statements.filter (!isTrap a ·)) (statements.filter (isTrap a)))
    start

/-- The kind of named block that starts here. -/
def atNamedBlock? : Parser (Option BlockKind) := do
  let p ← place
  match p.current?, p.nextSignificant? with
  | some (.word w), some (.mark .lbrace) => return BlockKind.ofKeyword? w
  | _, _ => return none

def namedBlock (kind : BlockKind) : Parser NodeId := do
  let start ← start
  advance
  skipNewlines
  expect .lbrace
  let statements ← statementList g .brace
  expect .rbrace
  addNamedBlock kind false statements start

/-- One more named block, and the terminators after it. -/
def listedNamedBlock : Parser (Option NodeId) := do
  let some kind ← atNamedBlock? | return none
  let id ← namedBlock g kind
  skipTerminators
  return some id

/-- How far the target of a `using` statement reaches, as a number of tokens and the end of the last
one. -/
def usingTarget : Nat → List Lexeme → Nat × Nat
  | stop, [] => (0, stop)
  | stop, l :: ls =>
    if l.token == .newline || l.token == .mark .semicolon then (0, stop)
    else
      let (n, stop) := usingTarget l.span.stop ls
      (n + 1, stop)

/-- One more `using` statement, and the terminators after it. -/
def listedUsing : Parser (Option NodeId) := do
  let start ← start
  unless ← atWord "using" do
    return none
  let some (.word w) ← peekNext | return none
  let some kind := UsingKind.ofKeyword? w | return none
  advanceBy 2
  let nameStart ← Parser.start
  let (n, nameStop) := usingTarget nameStart (← place).rest
  advanceBy n
  if nameStop = nameStart then
    unexpected "using target name"
  else
    let name ← slice nameStart nameStop
    let id ← add (.usingStatement kind name) start
    skipTerminators
    return some id

/-- The sections of a script block, or its statements as one section without a name. -/
def blocks (closer : Closer) : Parser (List NodeId) := do
  match ← atNamedBlock? with
  | some _ =>
    let ids ← many (listedNamedBlock g)
    if closer.isAt (← peek) then return ids else unexpected "named block"
  | none =>
    let start ← start
    let statements ← statementList g closer
    if statements.isEmpty then
      return []
    return [← addNamedBlock .endBlock true statements start]

/-- `using` statements, which only a whole script has, a param block and the sections. -/
def scriptBlock (closer : Closer) : Parser NodeId := do
  let start ← start
  skipTerminators
  let usings ← if closer = .endOfText then many listedUsing else pure []
  let params ← paramBlock? g
  skipTerminators
  let blocks ← blocks g closer
  add (.scriptBlock usings params blocks) start

end ScriptInject.Grammar
