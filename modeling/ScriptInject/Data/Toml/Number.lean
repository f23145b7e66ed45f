import ScriptInject.Data.Reader
import ScriptInject.Decimal
/-! Numbers, dates and times of the TOML notation. Only whether they are right is asked. -/
namespace ScriptInject.Data.Toml
open Reader

def isSign (c : Char) : Bool := c == '+' || c == '-'

/-- Digits, with single underscores between some of them. -/
def digits (p : Char → Bool) : Reader (List Char) := do
  let first ← satisfying p
  let more ← many (satisfying p <|> (exactly "_" *> satisfying p))
  return first :: more

/-- A sign and digits, of which the first is no needless zero. -/
def signed : Reader (Bool × List Char) := do
  let sign ← optional (satisfying isSign)
  let ds ← digits Char.isDigit
  if ds.head? == some '0' && ds.length != 1 then failure
  return (sign == some '-', ds)

/-- Integers are 64 bits wide. -/
def integer : Reader Unit := do
  let (negative, ds) ← signed
  let n := natOfBase 10 ds
  let limit := Nat.pow 2 63
  if n < limit || (negative && n == limit) then return () else failure

/-- An integer in a base that is not ten, behind what tells the base. -/
def based (mark : String) (base : Nat) (p : Char → Bool) : Reader Unit := do
  exactly mark
  let ds ← digits p
  if natOfBase base ds < Nat.pow 2 63 then return () else failure

def fraction : Reader (List Char) := do
  exactly "."
  digits Char.isDigit

def exponent : Reader Int := do
  let _ ← satisfying fun c => c == 'e' || c == 'E'
  let sign ← optional (satisfying isSign)
  let n := (natOfBase 10 (← digits Char.isDigit) : Int)
  return if sign == some '-' then -n else n

/-- A number with a fraction, an exponent, or both, which is not rounded up to infinity. -/
def float : Reader Unit := do
  let (negative, whole) ← signed
  let part ← optional fraction
  let power ← if part.isSome then optional exponent else some <$> exponent
  let fractional := part.getD []
  let d : Decimal := ⟨whole ++ fractional, power.getD 0 - fractional.length⟩
  if !negative && d.isInfinite then failure

def specialFloat : Reader Unit := do
  let _ ← optional (satisfying isSign)
  exactly "inf" <|> exactly "nan"

/-! Dates and times. -/

/-- A number of so many digits, from `low` to `high`. -/
def fixed (count low high : Nat) : Reader Nat := do
  let n := natOfBase 10 (← times count (satisfying Char.isDigit))
  if low ≤ n && n ≤ high then return n else failure

def isLeap (year : Nat) : Bool := year % 4 == 0 && (year % 100 != 0 || year % 400 == 0)

def daysOf (year month : Nat) : Nat :=
  if month == 2 then if isLeap year then 29 else 28
  else if [4, 6, 9, 11].contains month then 30
  else 31

def date : Reader Unit := do
  let year ← fixed 4 0 9999
  exactly "-"
  let month ← fixed 2 1 12
  exactly "-"
  discard (fixed 2 1 (daysOf year month))

/-- A minute may have a second more than sixty. -/
def time : Reader Unit := do
  let _ ← fixed 2 0 23
  exactly ":"
  let _ ← fixed 2 0 59
  exactly ":"
  let _ ← fixed 2 0 60
  discard (optional (exactly "." *> run1 Char.isDigit))

/-- How far the time of a place is from universal time. -/
def offset : Reader Unit :=
  discard (satisfying fun c => c == 'Z' || c == 'z') <|> do
    let _ ← satisfying isSign
    let _ ← fixed 2 0 23
    exactly ":"
    discard (fixed 2 0 59)

def dateTime : Reader Unit := do
  date
  let timed : Reader Unit := do
    let _ ← satisfying fun c => c == 'T' || c == 't' || c == ' '
    time
    discard (optional offset)
  discard (optional timed)

def moment : Reader Unit := dateTime <|> time

def number : Reader Unit :=
  float <|> specialFloat <|> based "0x" 16 isHexDigit <|>
    based "0o" 8 (fun c => '0' ≤ c && c ≤ '7') <|> based "0b" 2 (fun c => c == '0' || c == '1') <|>
    integer

end ScriptInject.Data.Toml
