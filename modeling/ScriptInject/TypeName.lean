import ScriptInject.Text.Slice
/-! Names of types as they are written between square brackets. -/
namespace ScriptInject

inductive TypeName where
  /-- A dotted name. -/
  | simple (name : String)
  | generic (name : String) (arguments : List TypeName)
  /-- As many pairs of brackets after `element` as `rank` says. -/
  | array (element : TypeName) (rank : Nat)
deriving Inhabited, Repr

namespace TypeName

mutual

def decEq : (s t : TypeName) → Decidable (s = t)
  | .simple a, .simple b =>
    if h : a = b then isTrue (by rw [h]) else isFalse (fun e => h (TypeName.simple.inj e))
  | .generic a xs, .generic b ys =>
    match decEqList xs ys with
    | isTrue hl =>
      if h : a = b then isTrue (by rw [h, hl])
      else isFalse (fun e => h (TypeName.generic.inj e).1)
    | isFalse hl => isFalse (fun e => hl (TypeName.generic.inj e).2)
  | .array s m, .array t n =>
    match decEq s t with
    | isTrue he =>
      if h : m = n then isTrue (by rw [h, he])
      else isFalse (fun e => h (TypeName.array.inj e).2)
    | isFalse he => isFalse (fun e => he (TypeName.array.inj e).1)
  | .simple _, .generic _ _ => isFalse nofun
  | .simple _, .array _ _ => isFalse nofun
  | .generic _ _, .simple _ => isFalse nofun
  | .generic _ _, .array _ _ => isFalse nofun
  | .array _ _, .simple _ => isFalse nofun
  | .array _ _, .generic _ _ => isFalse nofun

def decEqList : (ss ts : List TypeName) → Decidable (ss = ts)
  | [], [] => isTrue rfl
  | [], _ :: _ => isFalse nofun
  | _ :: _, [] => isFalse nofun
  | s :: ss, t :: ts =>
    match decEq s t with
    | isTrue h =>
      match decEqList ss ts with
      | isTrue hl => isTrue (by rw [h, hl])
      | isFalse hl => isFalse (fun e => hl (List.cons.inj e).2)
    | isFalse h => isFalse (fun e => h (List.cons.inj e).1)

end

instance : DecidableEq TypeName := decEq

mutual

/-- The name without the outer brackets: generic arguments belong to it, and an array has one
`[]` for each rank. -/
def fullName : TypeName → String
  | .simple name => name
  | .generic name arguments => name ++ "[" ++ ",".intercalate (fullNames arguments) ++ "]"
  | .array element rank => element.fullName ++ String.join (List.replicate rank "[]")

def fullNames : List TypeName → List String
  | [] => []
  | t :: ts => t.fullName :: fullNames ts

end

/-- The last part of the dotted name, without generic arguments and ranks. -/
def shortName : TypeName → String
  | .simple name => Text.afterLast '.' name
  | .generic name _ => Text.afterLast '.' name
  | .array element _ => element.shortName

def describe (t : TypeName) : String := "[" ++ t.fullName ++ "]"

theorem fullNames_eq_map (ts : List TypeName) : fullNames ts = ts.map fullName := by
  induction ts with
  | nil => simp [fullNames]
  | cons t ts ih => simp [fullNames, ih]

end TypeName

end ScriptInject
