import ScriptInject.Text.Quoted
/-! JSON laid out over several lines, one for each item and field. -/
namespace ScriptInject.Data.Json

/-- How a value is written where lines are indented to a depth. -/
abbrev Layout := Nat → String

/-- A control character without a short escape. -/
def escapedCode (n : Nat) : List Char :=
  ['\\', 'u'] ++ List.replicate (4 - (Text.hexDigits n).length) '0' ++ Text.hexDigits n

def escapedChar (c : Char) : List Char :=
  if c == '\x22' then ['\\', '\x22']
  else if c == '\\' then ['\\', '\\']
  else if c == '\x08' then ['\\', 'b']
  else if c == '\x0C' then ['\\', 'f']
  else if c == '\n' then ['\\', 'n']
  else if c == '\r' then ['\\', 'r']
  else if c == '\t' then ['\\', 't']
  else if c.toNat < 0x20 then escapedCode c.toNat
  else [c]

def quoted (s : String) : String :=
  String.ofList ('\x22' :: (s.toList.flatMap escapedChar ++ ['\x22']))

namespace Layout

/-- A new line, indented by two blanks for each level. -/
def lineBreak (depth : Nat) : String := String.ofList ('\n' :: List.replicate (2 * depth) ' ')

/-- Items on lines of their own between brackets; without items, nothing is between these. -/
def enclosed (opening closing : String) (items : List Layout) : Layout := fun depth =>
  if items.isEmpty then opening ++ closing
  else
    opening ++ ",".intercalate (items.map fun item => lineBreak (depth + 1) ++ item (depth + 1)) ++
      lineBreak depth ++ closing

def text (s : String) : Layout := fun _ => quoted s

def optionalText : Option String → Layout
  | some s => text s
  | none => fun _ => "null"

def list (items : List Layout) : Layout := enclosed "[" "]" items

def record (fields : List (String × Layout)) : Layout :=
  enclosed "\x7b" "\x7d" (fields.map fun (key, value) depth => quoted key ++ ": " ++ value depth)

def toText (value : Layout) : String := value 0

end Layout

end ScriptInject.Data.Json
