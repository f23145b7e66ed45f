import ScriptInject.Data.Basic
/-! Tables while they are being filled. A table is opened by one header only, and dotted keys reach
only into tables that no header has opened. -/
namespace ScriptInject.Data.Toml

/-- How a table has come about. -/
inductive Origin where
  /-- By a header of its own. -/
  | header
  /-- As a part of the way in another table's header. -/
  | implied
  /-- By a dotted key. -/
  | dotted
deriving DecidableEq, Repr

inductive Entry where
  | value (d : Data)
  | table (origin : Origin) (entries : List (String × Entry))
  /-- The tables of one repeated header. -/
  | tables (each : List (List (String × Entry)))

abbrev Entries := List (String × Entry)

namespace Entries

/-- Puts an entry in the place of the one with its key. -/
def replace (t : Entries) (key : String) (e : Entry) : Entries :=
  t.map fun (k, old) => if k == key then (k, e) else (k, old)

/-- Changes the table at the end of a path, together with how it has come about. Tables that the way
lacks are made, and of repeated tables it leads into the last. -/
def modifyAt (isDotted : Bool) (change : Origin → Entries → Option Entries) :
    List String → Origin → Entries → Option Entries
  | [], origin, t => change origin t
  | key :: path, _, t =>
    match t.lookup key with
    | none => do
      let origin := if isDotted then .dotted else .implied
      return t ++ [(key, .table origin (← modifyAt isDotted change path origin []))]
    | some (.table origin inner) =>
      if isDotted ∧ origin = .header then none
      else do return t.replace key (.table origin (← modifyAt isDotted change path origin inner))
    | some (.tables each) =>
      match each.getLast? with
      | none => none
      | some last => do
        let last ← modifyAt isDotted change path .header last
        return t.replace key (.tables (each.dropLast ++ [last]))
    | some (.value _) => none

/-- Adds what the last key of a dotted key stands for. -/
def insert (path : List String) (key : String) (e : Entry) (t : Entries) : Option Entries :=
  modifyAt true (fun origin t =>
    if (origin == .dotted) != !path.isEmpty || (t.lookup key).isSome then none
    else some (t ++ [(key, e)])) path .header t

/-- Opens a table by its header. Up to then it may only have been implied. -/
def openTable (path : List String) (key : String) (t : Entries) : Option Entries :=
  modifyAt false (fun _ t =>
    match t.lookup key with
    | none => some (t ++ [(key, .table .header [])])
    | some (.table .implied inner) => some (t.replace key (.table .header inner))
    | some _ => none) path .header t

/-- Opens the next of the tables of a repeated header. -/
def openNext (path : List String) (key : String) (t : Entries) : Option Entries :=
  modifyAt false (fun _ t =>
    match t.lookup key with
    | none => some (t ++ [(key, .tables [[]])])
    | some (.tables each) => some (t.replace key (.tables (each ++ [[]])))
    | some _ => none) path .header t

end Entries

mutual

def Entry.toData : Entry → Data
  | .value d => d
  | .table _ entries => .record (fieldsOf entries)
  | .tables each => .list (recordsOf each)

def fieldsOf : List (String × Entry) → List (Option String × Data)
  | [] => []
  | (key, e) :: entries => (some key, e.toData) :: fieldsOf entries

def recordsOf : List (List (String × Entry)) → List Data
  | [] => []
  | entries :: each => .record (fieldsOf entries) :: recordsOf each

end

def Entries.toData (t : Entries) : Data := .record (fieldsOf t)

end ScriptInject.Data.Toml
