import ScriptInject.Data.Reader
/-! Blanks, texts and keys of the TOML notation. -/
namespace ScriptInject.Data.Toml
open Reader

def isGap (c : Char) : Bool := c == ' ' || c == '\t'

def gap : Reader Unit := discard (run isGap)

def newline : Reader Unit := exactly "\n" <|> exactly "\r\n"

/-- What may stand in a comment or a text: all but control characters, and the tabulator. -/
def isPlain (c : Char) : Bool := c == '\t' || (0x20 ≤ c.toNat && c.toNat != 0x7F)

def comment : Reader Unit := do
  exactly "#"
  discard (run isPlain)

/-- The rest of a line and its end. The last line has none. -/
def lineEnd : Reader Unit := do
  gap
  let _ ← optional comment
  match ← peek? with
  | none => return ()
  | some _ => newline

/-- Blanks, comments and line ends. -/
def filler : Reader Unit := do
  gap
  let _ ← many do
    let _ ← optional comment
    newline
    gap

/-! Texts. -/

def escapes : List (Char × Char) :=
  [('b', '\x08'), ('t', '\t'), ('n', '\n'), ('f', '\x0C'), ('r', '\r'), ('\x22', '\x22'),
    ('\\', '\\')]

def scalar (digits : Nat) : Reader Char := do
  let n ← hexNumber digits
  if n.isValidChar then return Char.ofNat n else failure

def escape : Reader Char := do
  exactly "\\"
  let c ← satisfying fun _ => true
  if c == 'u' then scalar 4
  else if c == 'U' then scalar 8
  else match escapes.lookup c with
    | some value => return value
    | none => failure

def isUnescaped (c : Char) : Bool := isPlain c && c != '\x22' && c != '\\'

def isLiteral (c : Char) : Bool := isPlain c && c != '\x27'

def basicText : Reader (List Char) := do
  exactly "\""
  let cs ← many (satisfying isUnescaped <|> escape)
  exactly "\""
  return cs

def literalText : Reader (List Char) := do
  exactly "'"
  let cs ← run isLiteral
  exactly "'"
  return cs

/-- A backslash at the end of a line takes the blanks and line ends after it along. -/
def continuation : Reader (List Char) := do
  exactly "\\"
  gap
  newline
  let _ ← many (newline <|> discard (satisfying isGap))
  return []

def lineFeed : Reader (List Char) := do
  newline
  return ['\n']

/-- A quotation mark that is not the first of three. -/
def innerQuote (quote : Char) : Reader (List Char) := fun cs =>
  if (List.replicate 3 quote).isPrefixOf cs then none
  else (do return [← satisfying (· == quote)] : Reader (List Char)) cs

/-- The three marks at the end. Up to two more before them belong to the text. -/
def closing (quote : Char) : Reader (List Char) := do
  let marks ← run (· == quote)
  if 3 ≤ marks.length && marks.length ≤ 5 then return marks.drop 3 else failure

/-- A text over several lines. A line end right after the opening marks is not part of it. -/
def block (quote : Char) (content : Reader (List Char)) : Reader (List Char) := do
  exactly (String.ofList (List.replicate 3 quote))
  let _ ← optional newline
  let parts ← many (content <|> lineFeed <|> innerQuote quote)
  let last ← closing quote
  return parts.flatten ++ last

def basicBlock : Reader (List Char) :=
  block '\x22'
    ((do return [← satisfying isUnescaped]) <|> continuation <|> (do return [← escape]))

def literalBlock : Reader (List Char) := block '\x27' (do return [← satisfying isLiteral])

def text : Reader String :=
  return String.ofList (← basicBlock <|> basicText <|> literalBlock <|> literalText)

/-! Keys. -/

def isBare (c : Char) : Bool := c.isAlphanum || c == '-' || c == '_'

def simpleKey : Reader String :=
  return String.ofList (← basicText <|> literalText <|> run1 isBare)

/-- The number of parts from which on a dotted key is refused, and of levels for values. -/
def depthLimit : Nat := 80

/-- A path of keys, with dots between them. -/
def key : Reader (List String) := do
  let part := do
    gap
    let k ← simpleKey
    gap
    return k
  let path ← separated (exactly ".") part
  if path.isEmpty || depthLimit ≤ path.length then failure else return path

end ScriptInject.Data.Toml
