/-! Data of a configuration, whatever notation they come in, and how values are read from them. -/
namespace ScriptInject

inductive Data where
  | null
  | flag (b : Bool)
  | number (text : String)
  /-- A date, a time of day, or both. -/
  | moment (text : String)
  /-- Nothing stands for a text that holds half of a surrogate pair. -/
  | text (s? : Option String)
  | list (items : List Data)
  /-- Fields in the order in which they are written. A key may come twice. -/
  | record (fields : List (Option String × Data))
deriving Inhabited

namespace Data

/-- What a notation makes of data that are not in their plain form. -/
structure Format where
  /-- Whether a list that stands for a structure may go on after the last field. -/
  surplus : Bool
  /-- What may stand in the place of the contents of a constant, which has none. -/
  isUnit : Data → Bool

def toText? : Data → Option String
  | .text s? => s?
  | _ => none

def toFlag? : Data → Option Bool
  | .flag b => some b
  | _ => none

def toList? {α : Type} (item : Data → Option α) : Data → Option (List α)
  | .list items => items.mapM item
  | _ => none

/-- Null is nothing. -/
def orNull? {α : Type} (value : Data → Option α) : Data → Option (Option α)
  | .null => some none
  | d => (value d).map some

/-- The fields of a structure. A record has none of them twice and may have others; a list gives
them in the order of their names. -/
def fields? (format : Format) (names : List String) : Data → Option (List (String × Data))
  | .record entries => do
    let entries ← entries.mapM fun (key, d) => key.map (·, d)
    let known := entries.filter (names.contains ·.1)
    if (known.map (·.1)).Nodup then some known else none
  | .list items =>
    if items.length ≤ names.length || format.surplus then some (names.zip items) else none
  | _ => none

/-- A field that has to be there. -/
def required {α : Type} (value : Data → Option α) (name : String) (fields : List (String × Data)) :
    Option α :=
  (fields.lookup name).bind value

/-- A field that may be missing. -/
def orElse {α : Type} (value : Data → Option α) (default : α) (name : String)
    (fields : List (String × Data)) : Option α :=
  match fields.lookup name with
  | some d => value d
  | none => some default

/-- One of several constants: its name, or a record with its name as the one key. -/
def constant? {α : Type} (format : Format) (ofName? : String → Option α) : Data → Option α
  | .text (some name) => ofName? name
  | .record [(some name, d)] => if format.isUnit d then ofName? name else none
  | _ => none

end Data

end ScriptInject
