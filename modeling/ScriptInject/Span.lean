/-! Byte ranges of a source text. -/
namespace ScriptInject

/-- The bytes from `start` up to, but without, `stop`. -/
structure Span where
  start : Nat := 0
  stop : Nat := 0
deriving DecidableEq, Inhabited, Repr

namespace Span

/-- The smallest range that holds both. -/
def merge (a b : Span) : Span := ⟨min a.start b.start, max a.stop b.stop⟩

def length (a : Span) : Nat := a.stop - a.start

def isEmpty (a : Span) : Bool := a.length == 0

def describe (a : Span) : String := toString a.start ++ ".." ++ toString a.stop

end Span

end ScriptInject
