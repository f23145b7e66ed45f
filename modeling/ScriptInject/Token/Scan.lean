import ScriptInject.Text.Blank
import ScriptInject.Text.Slice
import ScriptInject.Token.Basic
/-! Splitting a text into tokens. The longest token at the current place is taken; what starts no
token is reported and passed over. -/
namespace ScriptInject.Token

def isNameStart (c : Char) : Bool := c.isAlpha || c == '_'

def isNamePart (c : Char) : Bool := c.isAlphanum || c == '_'

def isWordPart (c : Char) : Bool := isNamePart c || c == '-'

def isHexDigit (c : Char) : Bool :=
  c.isDigit || ('a' ≤ c && c ≤ 'f') || ('A' ≤ c && c ≤ 'F')

/-- What stands at one place of a text. -/
inductive Piece where
  | token (t : Token)
  /-- Blanks, a comment or a continued line. -/
  | trivia
  | invalid
  | unclosed (delimiter : String)
deriving DecidableEq, Repr, Inhabited

/-- The length of the longest run of characters of a class. -/
def run (p : Char → Bool) (cs : List Char) : Nat := (cs.takeWhile p).length

/-- The token of the first `n` characters. -/
def ofPrefix (make : String → Token) (cs : List Char) (n : Nat) : Piece × Nat :=
  (.token (make (String.ofList (cs.take n))), n)

def ofMark (m : Mark) : Piece × Nat := (.token (.mark m), m.text.length)

/-- The longest of the marks that stands here, if they are tried from the longest on. -/
def ofMarks (cs : List Char) (ms : List Mark) : Piece × Nat :=
  match ms.find? fun m => m.text.toList.isPrefixOf cs with
  | some m => ofMark m
  | none => (.invalid, 1)

/-- Digits, at least one, after `cs` has lost its first `n` characters; otherwise nothing. -/
def digitsAfter (n : Nat) (cs : List Char) : Nat :=
  match run Char.isDigit (cs.drop n) with
  | 0 => 0
  | k => n + k

/-- `.5` -/
def fractionLength : List Char → Nat
  | '.' :: cs => digitsAfter 1 ('.' :: cs)
  | _ => 0

/-- `e5`, `E+5`, `e-5` -/
def exponentLength : List Char → Nat
  | e :: s :: cs =>
    if e == 'e' || e == 'E' then
      if s == '+' || s == '-' then digitsAfter 2 (e :: s :: cs) else digitsAfter 1 (e :: s :: cs)
    else 0
  | _ => 0

/-- `d` or `l`, or a multiplier such as `kb`. -/
def suffixLength : List Char → Nat
  | c :: cs =>
    if "dDlL".toList.contains c then 1
    else if "kKmMgGtTpP".toList.contains c then
      match cs with
      | b :: _ => if b == 'b' || b == 'B' then 2 else 0
      | [] => 0
    else 0
  | [] => 0

def decimalLength (cs : List Char) : Nat :=
  let whole := run Char.isDigit cs
  let fraction := whole + fractionLength (cs.drop whole)
  let scaled := fraction + exponentLength (cs.drop fraction)
  scaled + suffixLength (cs.drop scaled)

/-- The length of `0x1F` or `0x1FL`, and zero if there is no digit after the `x`. -/
def hexLength : List Char → Nat
  | '0' :: x :: cs =>
    if x == 'x' || x == 'X' then
      match run isHexDigit cs with
      | 0 => 0
      | n =>
        match cs.drop n with
        | l :: _ => if l == 'l' || l == 'L' then n + 3 else n + 2
        | [] => n + 2
    else 0
  | _ => 0

def scanNumber (cs : List Char) : Piece × Nat :=
  ofPrefix .number cs (max (decimalLength cs) (hexLength cs))

/-- The length of a name with an optional scope before it. -/
def scopedNameLength (cs : List Char) : Nat :=
  let n := run isNamePart cs
  match cs.drop n with
  | ':' :: rest =>
    match run isNamePart rest with
    | 0 => n
    | k => n + 1 + k
  | _ => n

/-- What follows a dollar sign; an empty pair of braces is no name. -/
def scanDollar (rest : List Char) : Piece × Nat :=
  match rest with
  | '(' :: _ => ofMark .dollarParen
  | '{' :: body =>
    let n := run (· != '}') body
    if n == 0 then (.invalid, 1)
    else if n < body.length then
      (.token (.variableName (String.ofList (body.take n))), n + 3)
    else (.invalid, n + 2)
  | c :: _ =>
    if isNamePart c then
      let n := scopedNameLength rest
      (.token (.variableName (String.ofList (rest.take n))), n + 1)
    else if c == '?' || c == '^' || c == '$' then (.token (.variableName (String.ofList [c])), 2)
    else (.invalid, 1)
  | [] => (.invalid, 1)

/-- The value between single quotes and the characters up to and with the closing quote. -/
def singleQuotedBody : List Char → Option (List Char × Nat)
  | '\x27' :: '\x27' :: cs => (singleQuotedBody cs).map fun (value, n) => ('\x27' :: value, n + 2)
  | '\x27' :: _ => some ([], 1)
  | c :: cs => (singleQuotedBody cs).map fun (value, n) => (c :: value, n + 1)
  | [] => none

/-- Where a double-quoted text ends. -/
inductive QuoteEnd where
  /-- After so many characters, the last of which is the closing quote. -/
  | closed (length : Nat)
  /-- Nowhere; so many characters belong to the text. -/
  | unclosed (length : Nat)
deriving DecidableEq, Repr

def QuoteEnd.after (n : Nat) : QuoteEnd → QuoteEnd
  | .closed k => .closed (k + n)
  | .unclosed k => .unclosed (k + n)

/-- A backtick takes the next character with it, and a doubled quote does not close. A backtick at
the very end of the input does not belong to the text. -/
def doubleQuotedEnd : List Char → QuoteEnd
  | '\x60' :: _ :: cs => (doubleQuotedEnd cs).after 2
  | '\x60' :: [] => .unclosed 0
  | '\x22' :: '\x22' :: cs => (doubleQuotedEnd cs).after 2
  | '\x22' :: _ => .closed 1
  | _ :: cs => (doubleQuotedEnd cs).after 1
  | [] => .unclosed 0

/-- The value of a here-string and the characters from its opener to its closer. Nothing but blanks
may follow the opener on its line, and the closer starts a line. -/
def hereString (quote : Char) (rest : List Char) : Option (List Char × Nat) := do
  let header ← Text.find? ['\n'] rest
  guard ((rest.take header).all Text.isBlank)
  let body := rest.drop header
  let length ← Text.find? ['\n', quote, '@'] body
  let value := (body.take length).drop 1
  let value := if value.getLast? = some '\r' then value.dropLast else value
  return (value, 2 + header + length + 3)

def scanHereString (quote : Char) (make : String → Token) (rest : List Char) : Piece × Nat :=
  match hereString quote rest with
  | some (value, n) => (.token (make (String.ofList value)), n)
  | none => (.unclosed (String.ofList ['@', quote]), 2)

def scanAt (rest : List Char) : Piece × Nat :=
  match rest with
  | '(' :: _ => ofMark .atParen
  | '{' :: _ => ofMark .atBrace
  | '\x27' :: rest => scanHereString '\x27' .singleHereString rest
  | '\x22' :: rest => scanHereString '\x22' .doubleHereString rest
  | c :: cs =>
    if isNameStart c then
      let n := run isNamePart (c :: cs)
      (.token (.splat (String.ofList ((c :: cs).take n))), n + 1)
    else (.invalid, 1)
  | [] => (.invalid, 1)

def scanDash (rest : List Char) : Piece × Nat :=
  match rest with
  | c :: cs =>
    if isNameStart c then
      let n := run isNamePart (c :: cs)
      let colon := match (c :: cs).drop n with
        | ':' :: _ => 1
        | _ => 0
      ofPrefix .dashWord ('-' :: rest) (1 + n + colon)
    else ofMarks ('-' :: rest) [.minusAssign, .minusMinus, .minus]
  | [] => ofMark .minus

def scanAngle (rest : List Char) : Piece × Nat :=
  match rest with
  | '#' :: body =>
    match Text.find? ['#', '>'] body with
    | some n => (.trivia, n + 4)
    | none => (.unclosed "<#", body.length + 2)
  | _ => (.invalid, 1)

def scanBacktick (rest : List Char) : Piece × Nat :=
  match rest with
  | '\n' :: _ => (.trivia, 2)
  | '\r' :: '\n' :: _ => (.trivia, 3)
  | _ => (.invalid, 1)

def isSpace (c : Char) : Bool := c == ' ' || c == '\t' || c == '\r' || c == '\x0c'

/-- The piece that starts with `c`, and how many characters it takes. -/
def piece (c : Char) (rest : List Char) : Piece × Nat :=
  if isSpace c then (.trivia, run isSpace (c :: rest))
  else if isNameStart c then ofPrefix .word (c :: rest) (run isWordPart (c :: rest))
  else if c.isDigit then scanNumber (c :: rest)
  else match c with
    | '\n' => (.token .newline, 1)
    | '#' => (.trivia, 1 + run (· != '\n') rest)
    | '\x60' => scanBacktick rest
    | '<' => scanAngle rest
    | '$' => scanDollar rest
    | '@' => scanAt rest
    | '-' => scanDash rest
    | '\x27' =>
      match singleQuotedBody rest with
      | some (value, n) => (.token (.singleQuoted (String.ofList value)), n + 1)
      | none => (.unclosed "'", rest.length + 1)
    | '\x22' =>
      match doubleQuotedEnd rest with
      | .closed n => (.token (.doubleQuoted (String.ofList (rest.take (n - 1)))), n + 1)
      | .unclosed n => (.unclosed "\x22", n + 1)
    | _ => ofMarks (c :: rest)
        [.plusAssign, .plusPlus, .plus, .starAssign, .star, .slashAssign, .slash, .percentAssign,
          .percent, .assign, .dotDot, .dot, .colonColon, .colon, .questionDot, .questionBracket,
          .question, .lparen, .rparen, .lbrace, .rbrace, .lbracket, .rbracket, .comma, .semicolon,
          .pipe, .ampersand, .backslash, .bang]

/-- A piece with the text it covers and the byte at which it starts. -/
structure Cut where
  piece : Piece
  text : List Char
  start : Nat
deriving DecidableEq, Repr

def Cut.span (cut : Cut) : Span := ⟨cut.start, cut.start + Text.size cut.text⟩

/-- The pieces of a text that starts at byte `start`; at most `steps` of them. -/
def cutsFrom : Nat → Nat → List Char → List Cut
  | 0, _, _ => []
  | _ + 1, _, [] => []
  | steps + 1, start, c :: rest =>
    let (p, n) := piece c rest
    let text := (c :: rest).take n
    ⟨p, text, start⟩ :: cutsFrom steps (start + Text.size text) ((c :: rest).drop n)

/-- The pieces of a text in order. Each takes a character, so there are no more pieces than
characters. -/
def cuts (cs : List Char) : List Cut := cutsFrom cs.length 0 cs

end ScriptInject.Token
