import ScriptInject.Data.Basic
import ScriptInject.Data.Reader
/-! The JSON notation of data. -/
namespace ScriptInject.Data.Json
open Reader

def isBlank (c : Char) : Bool := c == ' ' || c == '\n' || c == '\t' || c == '\r'

/-- A reader with blanks before it. -/
def token {α : Type} (r : Reader α) : Reader α := do
  let _ ← run isBlank
  r

/-! Texts. -/

/-- What stands for a character of a text, or for half of one. -/
inductive Piece where
  | char (c : Char)
  | half (unit : Nat)

def isHalf (unit : Nat) : Bool := 0xD800 ≤ unit && unit < 0xE000

/-- A high half and the low half right after it are one character; a half alone is none. -/
def join : List Piece → Option (List Char)
  | [] => some []
  | .char c :: ps => (join ps).map (c :: ·)
  | .half high :: .half low :: ps =>
    if high < 0xDC00 ∧ 0xDC00 ≤ low then
      (join ps).map (Char.ofNat (0x10000 + (high - 0xD800) * 0x400 + (low - 0xDC00)) :: ·)
    else none
  | .half _ :: _ => none

def escapes : List (Char × Char) :=
  [('\x22', '\x22'), ('\\', '\\'), ('/', '/'), ('b', '\x08'), ('f', '\x0C'), ('n', '\n'),
    ('r', '\r'), ('t', '\t')]

def escape : Reader Piece := do
  let c ← satisfying fun _ => true
  if c == 'u' then
    let unit ← hexNumber 4
    return if isHalf unit then .half unit else .char (Char.ofNat unit)
  match escapes.lookup c with
  | some value => return .char value
  | none => failure

def piece : Reader Piece := do
  let c ← satisfying fun c => c != '\x22' && 0x20 ≤ c.toNat
  if c == '\\' then escape else return .char c

def text : Reader (Option String) := do
  exactly "\""
  let pieces ← many piece
  exactly "\""
  return (join pieces).map String.ofList

/-! Numbers. -/

def fraction : Reader Unit := do
  exactly "."
  discard (run1 Char.isDigit)

def exponent : Reader Unit := do
  let _ ← satisfying fun c => c == 'e' || c == 'E'
  let _ ← optional (satisfying fun c => c == '+' || c == '-')
  discard (run1 Char.isDigit)

/-- No digit follows a zero at the front. -/
def number : Reader Unit := do
  let _ ← optional (exactly "-")
  let digits ← run1 Char.isDigit
  if digits.head? == some '0' && digits.length != 1 then failure
  let _ ← optional fraction
  discard (optional exponent)

/-! Values. -/

/-- Items between brackets, with commas between them. -/
def items {α : Type} (opening closing : String) (item : Reader α) : Reader (List α) := do
  exactly opening
  let found ← separated (token (exactly ",")) (token item)
  token (exactly closing)
  return found

def field (value : Reader Data) : Reader (Option String × Data) := do
  let key ← text
  token (exactly ":")
  return (key, ← token value)

/-- A value of at most `n` levels. -/
def valueUpTo : Nat → Reader Data
  | 0 => failure
  | n + 1 => do
    match ← peek? with
    | some '[' => return .list (← items "[" "]" (valueUpTo n))
    | some '\x7b' => return .record (← items "\x7b" "\x7d" (field (valueUpTo n)))
    | some '\x22' => return .text (← text)
    | some 'n' => return (fun _ => .null) (← exactly "null")
    | some 't' => return (fun _ => .flag true) (← exactly "true")
    | some 'f' => return (fun _ => .flag false) (← exactly "false")
    | _ => return .number (← taken number)

def document : Reader Data := do
  let d ← token (valueUpTo (← get).length)
  token (pure ())
  return d

/-- A structure takes no surplus, and null stands for no contents. -/
def format : Format where
  surplus := false
  isUnit
    | .null => true
    | _ => false

/-- Reads a text that holds one value and nothing else. -/
def ofText? (text : String) : Option Data := all? document text

end ScriptInject.Data.Json
