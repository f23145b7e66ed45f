/-! Readers, which take characters off the front of a text or refuse it. -/
namespace ScriptInject.Data

abbrev Reader := StateT (List Char) Option

namespace Reader
variable {α : Type}

def peek? : Reader (Option Char) := return (← get).head?

def satisfying (p : Char → Bool) : Reader Char := fun cs =>
  match cs with
  | [] => none
  | c :: cs => if p c then some (c, cs) else none

def exactly (text : String) : Reader Unit :=
  text.toList.forM fun c => discard (satisfying (· == c))

/-- The longest run of such characters. -/
def run (p : Char → Bool) : Reader (List Char) := fun cs => some (cs.takeWhile p, cs.dropWhile p)

def run1 (p : Char → Bool) : Reader (List Char) := return (← satisfying p) :: (← run p)

/-- At most `n` times, as often as it goes. -/
def manyUpTo : Nat → Reader α → Reader (List α)
  | 0, _ => return []
  | n + 1, r => do
    match ← optional r with
    | some a => return a :: (← manyUpTo n r)
    | none => return []

/-- As often as it goes, each time for at least one character. -/
def many (r : Reader α) : Reader (List α) := do manyUpTo (← get).length r

/-- As often as it goes, with separators between. -/
def separated (separator : Reader Unit) (r : Reader α) : Reader (List α) := do
  match ← optional r with
  | some a => return a :: (← many (separator *> r))
  | none => return []

def times : Nat → Reader α → Reader (List α)
  | 0, _ => return []
  | n + 1, r => return (← r) :: (← times n r)

/-- The text that is taken. -/
def taken (r : Reader α) : Reader String := fun cs =>
  (r cs).map fun (_, rest) => (String.ofList (cs.take (cs.length - rest.length)), rest)

def isHexDigit (c : Char) : Bool :=
  c.isDigit || ('a' ≤ c && c ≤ 'f') || ('A' ≤ c && c ≤ 'F')

def hexValue (c : Char) : Nat :=
  if c.isDigit then c.toNat - '0'.toNat
  else if 'a' ≤ c then c.toNat - 'a'.toNat + 10
  else c.toNat - 'A'.toNat + 10

def natOfBase (base : Nat) (digits : List Char) : Nat :=
  digits.foldl (fun n c => base * n + hexValue c) 0

/-- A number of so many hexadecimal digits. -/
def hexNumber (count : Nat) : Reader Nat :=
  return natOfBase 16 (← times count (satisfying isHexDigit))

/-- The whole text. -/
def all? (r : Reader α) (text : String) : Option α :=
  match r text.toList with
  | some (a, []) => some a
  | _ => none

end Reader

end ScriptInject.Data
