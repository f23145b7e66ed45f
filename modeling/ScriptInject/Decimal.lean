/-! Numbers in decimal notation, and what becomes of them in double precision. -/
namespace ScriptInject

/-- A number without its sign: `digits` is its mantissa without the point, and the last digit of
the mantissa counts `10 ^ exponent`. -/
structure Decimal where
  digits : List Char
  exponent : Int
deriving DecidableEq, Repr

namespace Decimal

def natOfDigits (cs : List Char) : Nat := cs.foldl (fun n c => 10 * n + (c.toNat - '0'.toNat)) 0

/-- A signed run of digits and nothing after it. -/
def exponent? : List Char → Option Int
  | [] => none
  | c :: cs =>
    let (negative, ds) := if c == '-' then (true, cs) else if c == '+' then (false, cs)
      else (false, c :: cs)
    if !ds.isEmpty && ds.all Char.isDigit then
      some (if negative then -(natOfDigits ds : Int) else natOfDigits ds)
    else none

/-- Reads `12`, `1.5` or `1.5e-3`; anything after that makes it no such number. -/
def ofText? (cs : List Char) : Option Decimal :=
  let whole := cs.takeWhile Char.isDigit
  let rest := cs.drop whole.length
  let (fraction, rest) := match rest with
    | '.' :: cs => (cs.takeWhile Char.isDigit, cs.dropWhile Char.isDigit)
    | _ => ([], rest)
  if (whole ++ fraction).isEmpty then none
  else match rest with
    | [] => some ⟨whole ++ fraction, -fraction.length⟩
    | e :: cs =>
      if e == 'e' || e == 'E' then
        (exponent? cs).map fun n => ⟨whole ++ fraction, n - fraction.length⟩
      else none

/-- Half the smallest positive number of double precision is `2 ^ -1075`; up to there, a number is
rounded to zero. Below `10 ^ -400` that needs no calculation. -/
def isZero (d : Decimal) : Bool :=
  let m := natOfDigits d.digits
  if m = 0 then true
  else if 0 ≤ d.exponent then false
  else
    let k := (-d.exponent).toNat
    if d.digits.length + 400 < k then true else m * Nat.pow 2 1075 ≤ Nat.pow 10 k

/-- From half a step above the largest number of double precision on, a number is rounded to
infinity. Above `10 ^ 400` that needs no calculation. -/
def isInfinite (d : Decimal) : Bool :=
  let m := natOfDigits d.digits
  if m = 0 then false
  else if 0 ≤ d.exponent then
    let k := d.exponent.toNat
    if 400 < k then true else (Nat.pow 2 54 - 1) * Nat.pow 2 970 ≤ m * Nat.pow 10 k
  else
    let k := (-d.exponent).toNat
    if d.digits.length < k then false else (Nat.pow 2 54 - 1) * Nat.pow 2 970 * Nat.pow 10 k ≤ m

end Decimal

end ScriptInject
