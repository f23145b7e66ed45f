import ScriptInject.Data.Toml.Number
import ScriptInject.Data.Toml.Table
import ScriptInject.Data.Toml.Text
/-! The TOML notation of data. -/
namespace ScriptInject.Data.Toml
open Reader

/-- A key, the way to it, and what it stands for. -/
structure Setting where
  path : List String
  key : String
  value : Data

def setting (value : Reader Data) : Reader Setting := do
  let path ← key
  exactly "="
  gap
  let value ← value
  match path.getLast? with
  | some key => return ⟨path.dropLast, key, value⟩
  | none => failure

def list (value : Reader Data) : Reader Data := do
  exactly "["
  filler
  let item := do
    let d ← value
    filler
    return d
  let items ← separated (exactly "," *> filler) item
  unless items.isEmpty do
    discard (optional (exactly "," *> filler))
  exactly "]"
  return .list items

/-- A table on one line, with no comma after the last setting. -/
def inlineTable (value : Reader Data) : Reader Data := do
  exactly "\x7b"
  let item := do
    let s ← setting value
    gap
    return s
  let settings ← separated (exactly ",") item
  gap
  exactly "\x7d"
  let entries := settings.foldlM (fun t s => Entries.insert s.path s.key (.value s.value) t) []
  match entries with
  | some t => return t.toData
  | none => failure

/-- A value of less than `n` levels. -/
def valueUpTo : Nat → Reader Data
  | 0 => failure
  | n + 1 => do
    match ← peek? with
    | some '[' => if n = 0 then failure else list (valueUpTo n)
    | some '\x7b' => if n = 0 then failure else inlineTable (valueUpTo n)
    | some '\x22' => return .text (← text)
    | some '\x27' => return .text (← text)
    | some 't' => return (fun _ => .flag true) (← exactly "true")
    | some 'f' => return (fun _ => .flag false) (← exactly "false")
    | _ => (do return .moment (← taken moment)) <|> (do return .number (← taken number))

def value : Reader Data := valueUpTo depthLimit

/-! Lines. -/

/-- A document so far: its tables, and the way to the one that is open. -/
structure Draft where
  root : Entries := []
  place : List String := []

inductive Line where
  | blank
  | setting (s : Setting)
  | header (path : List String)
  | repeatedHeader (path : List String)

def line : Reader Line := do
  match ← peek? with
  | some '#' | some '\n' | some '\r' => return .blank
  | some '[' =>
    (do
      exactly "[["
      let path ← key
      exactly "]]"
      return .repeatedHeader path) <|> do
        exactly "["
        let path ← key
        exactly "]"
        return .header path
  | _ => return .setting (← setting value)

/-- Lines up to the end of the text. Blanks may begin each of them. -/
def lines : Reader (List Line) := do
  let found ← many do
    gap
    let l ← line
    lineEnd
    return l
  gap
  return found

def Draft.openAt (d : Draft) (path : List String)
    (change : List String → String → Entries → Option Entries) : Option Draft := do
  return { root := ← change path.dropLast (← path.getLast?) d.root, place := path }

def Draft.add (d : Draft) : Line → Option Draft
  | .blank => some d
  | .setting s => do
    let root ← Entries.modifyAt false (fun _ => Entries.insert s.path s.key (.value s.value))
      d.place .header d.root
    return { d with root }
  | .header path => d.openAt path Entries.openTable
  | .repeatedHeader path => d.openAt path Entries.openNext

def byteOrderMark : Char := '\uFEFF'

/-- A text may begin with a byte order mark. -/
def document : Reader Data := do
  let _ ← optional (satisfying (· == byteOrderMark))
  let found ← lines
  match found.foldlM Draft.add {} with
  | some d => return d.root.toData
  | none => failure

/-- A structure takes a surplus, and what is empty stands for no contents. -/
def format : Format where
  surplus := true
  isUnit
    | .list [] | .record [] => true
    | _ => false

def ofText? (text : String) : Option Data := all? document text

end ScriptInject.Data.Toml
