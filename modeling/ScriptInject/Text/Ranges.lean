/-! Sets of characters given by ranges of code points. -/
namespace ScriptInject.Text

/-- Whether some range of the table, ends included, holds the number. The ranges stand in
ascending order and do not meet, so half of them are ruled out at each step. -/
def inRanges (table : Array (Nat × Nat)) (n : Nat) : Bool := go 0 table.size table.size
where
  go (low high : Nat) : Nat → Bool
    | 0 => false
    | steps + 1 =>
      if low < high then
        let middle := (low + high) / 2
        match table[middle]? with
        | none => false
        | some (first, last) =>
          if n < first then go low middle steps
          else if last < n then go (middle + 1) high steps
          else true
      else false

end ScriptInject.Text
