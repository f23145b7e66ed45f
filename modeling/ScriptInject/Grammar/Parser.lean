import ScriptInject.Text.Caseless
import ScriptInject.Token.Lexeme
/-! Reading a list of tokens into an arena: the state of a reading, the steps every rule of the
grammar is made of, and repetition. -/
namespace ScriptInject.Grammar

/-- Why a reading ends without a result. -/
inductive Failure where
  /-- The text is no script. -/
  | refused (e : ParseError)
  /-- A range of bytes was asked for that is no range or that splits a character. -/
  | cut
  /-- A repetition went on without reading a token. -/
  | stalled
deriving DecidableEq, Repr

structure Input where
  text : List Char
  /-- How many statements, expressions and operands may be open at once. -/
  maxDepth : Nat

/-- Where a reading stands: the token just read and those to come. -/
structure Place where
  last? : Option Lexeme := none
  rest : List Lexeme
deriving DecidableEq, Repr

structure State where
  place : Place
  arena : Arena := {}
  depth : Nat := 0
  /-- Whether a broken statement is kept as an error node. -/
  recovering : Bool := false
  errors : List ParseError := []

abbrev Parser := ReaderT Input (EStateM Failure State)

/-- What ends a list of statements or a bracketed construct. -/
inductive Closer where
  | endOfText | brace | paren | bracket
deriving DecidableEq, Repr

def Closer.isAt : Closer → Option Token → Bool
  | .endOfText, t => t.isNone
  | .brace, t => t == some (.mark .rbrace)
  | .paren, t => t == some (.mark .rparen)
  | .bracket, t => t == some (.mark .rbracket)

namespace Place

def current? (p : Place) : Option Token := p.rest.head?.map (·.token)

def next? (p : Place) : Option Token := p.rest.tail.head?.map (·.token)

/-- The first token after the current one that is no line end. -/
def nextSignificant? (p : Place) : Option Token :=
  (p.rest.tail.map (·.token)).find? (· != .newline)

/-- The place one token further, or the same place at the end. -/
def advance (p : Place) : Place :=
  match p.rest with
  | [] => p
  | l :: ls => ⟨some l, ls⟩

def advanceBy : Nat → Place → Place
  | 0, p => p
  | n + 1, p => advanceBy n p.advance

/-- The byte at which the current token starts, or the end of the text. -/
def start (p : Place) (text : List Char) : Nat :=
  match p.rest with
  | [] => Text.size text
  | l :: _ => l.span.start

/-- The byte after the token just read. -/
def stop (p : Place) : Nat :=
  match p.last? with
  | none => 0
  | some l => l.span.stop

/-- The current token follows the one before it without a gap. -/
def isAdjacent (p : Place) : Bool :=
  match p.last?, p.rest with
  | some l, m :: _ => l.span.stop == m.span.start
  | _, _ => false

/-- The token after the current one follows it without a gap. -/
def isNextAdjacent (p : Place) : Bool :=
  match p.rest with
  | l :: m :: _ => l.span.stop == m.span.start
  | _ => false

end Place

namespace Parser
variable {α β : Type}

def place : Parser Place := return (← get).place

def goto (p : Place) : Parser Unit := modify ({ · with place := p })

def peek : Parser (Option Token) := return (← place).current?

def peekNext : Parser (Option Token) := return (← place).next?

def advance : Parser Unit := modify fun s => { s with place := s.place.advance }

def advanceBy (n : Nat) : Parser Unit := modify fun s => { s with place := s.place.advanceBy n }

def start : Parser Nat := return (← place).start (← read).text

def refuse (e : ParseError) : Parser α := throw (.refused e)

/-- Refuses the current token, or the end of the text, for lack of what is expected here. -/
def unexpected (expected : String) : Parser α := do
  match (← place).rest with
  | l :: _ => refuse (.unexpectedToken l.span.start expected l.token.describe)
  | [] => refuse (.unexpectedEnd expected)

/-- Reads the mark if it stands here. -/
def eat (m : Mark) : Parser Bool := do
  if (← peek) = some (.mark m) then
    advance
    return true
  return false

def expect (m : Mark) : Parser Unit := do
  unless ← eat m do
    unexpected (Token.mark m).describe

/-- Reads the tokens of a class up to the first that is not in it. -/
def skipWhile (p : Token → Bool) : Parser Unit := do
  advanceBy ((← place).rest.takeWhile fun l => p l.token).length

def skipNewlines : Parser Unit := skipWhile (· == .newline)

def skipTerminators : Parser Unit := skipWhile fun t => t == .newline || t == .mark .semicolon

/-- Whether a certain word, in any case, stands here. -/
def atWord (keyword : String) : Parser Bool := do
  match ← peek with
  | some (.word w) => return Text.caselessEq w keyword
  | _ => return false

/-- The text between two bytes. -/
def slice (start stop : Nat) : Parser String := do
  match Text.slice? (← read).text start stop with
  | some cs => return String.ofList cs
  | none => throw .cut

/-- Adds a node with the given span. -/
def addAt (n : Node NodeId) (span : Span) : Parser NodeId := do
  match (← get).arena.add n span with
  | .ok (id, arena) =>
    modify ({ · with arena })
    return id
  | .error e => refuse (.arena e)

/-- Adds a node that reaches from byte `start` to the end of the token just read. -/
def add (n : Node NodeId) (start : Nat) : Parser NodeId := do
  addAt n ⟨start, max (← place).stop start⟩

/-- The outcome of a rule, or nothing if it refuses the text. What it did stays done. -/
def attempt (p : Parser α) : Parser (Option α) := fun i s =>
  match p i s with
  | .ok a t => .ok (some a) t
  | .error (.refused _) t => .ok none t
  | .error f t => .error f t

/-- Counts one more open construct while the rule runs, unless the limit is reached. -/
def guarded (p : Parser α) : Parser α := fun i s =>
  if i.maxDepth ≤ s.depth then .error (.refused (.tooDeep s.depth i.maxDepth)) s
  else match p i { s with depth := s.depth + 1 } with
    | .ok a t => .ok a { t with depth := t.depth - 1 }
    | .error f t => .error f { t with depth := t.depth - 1 }

/-- Runs the rule without recovery, whatever becomes of it. -/
def speculatively (p : Parser α) : Parser α := fun i s =>
  match p i { s with recovering := false } with
  | .ok a t => .ok a { t with recovering := s.recovering }
  | .error f t => .error f { t with recovering := s.recovering }

/-- Runs `item` until it yields nothing, at most `n` times. -/
def manyUpTo (item : Parser (Option α)) : Nat → Parser (List α)
  | 0 => throw .stalled
  | n + 1 => do
    match ← item with
    | none => return []
    | some a => return a :: (← manyUpTo item n)

/-- Runs `item` until it yields nothing. Each item reads a token, so the tokens to come bound the
repetition. -/
def many (item : Parser (Option α)) : Parser (List α) := do
  manyUpTo item ((← place).rest.length + 1)

/-- Passes a value through `step` until it yields nothing, at most `n` times. -/
def iterateUpTo (step : α → Parser (Option α)) : Nat → α → Parser α
  | 0, _ => throw .stalled
  | n + 1, a => do
    match ← step a with
    | none => return a
    | some b => iterateUpTo step n b

/-- Passes a value through `step` until it yields nothing; each step reads a token. -/
def iterate (step : α → Parser (Option α)) (a : α) : Parser α := do
  iterateUpTo step ((← place).rest.length + 1) a

/-- The further items of a list, each after a comma. -/
def afterCommas (item : Parser α) : Parser (List α) := many do
  if ← eat .comma then
    return some (← item)
  return none

/-- Items between line ends. -/
def spaced (item : Parser α) : Parser α := do
  skipNewlines
  let a ← item
  skipNewlines
  return a

/-- Items with commas between them, after an opening parenthesis, up to and with the closing
one. -/
def untilParen (item : Parser α) : Parser (List α) := do
  skipNewlines
  if ← eat .rparen then
    return []
  let first ← spaced item
  let others ← afterCommas (spaced item)
  expect .rparen
  return first :: others

end Parser

end ScriptInject.Grammar
