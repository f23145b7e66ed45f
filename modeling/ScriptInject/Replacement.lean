import ScriptInject.ScriptError
/-! Copying a tree into a fresh arena with some of its nodes replaced. -/
namespace ScriptInject

/-- Copying adds nodes to the arena of the copy. -/
abbrev Copying := StateT Arena (Except ScriptError)

namespace Copying

/-- Adds a node to the copy. -/
def add (n : Node NodeId) (span : Option Span) : Copying NodeId := do
  let (id, copy) ← ((← get).add n span : Except ArenaError _)
  set copy
  return id

/-- Adds a node that comes from no place of the source. -/
def addNew (n : Node NodeId) : Copying NodeId := add n none

end Copying

/-- The two ways to copy a node of the source: with the rule, or with the rule for what lies below
the node only. -/
structure Copier where
  copy : NodeId → Copying NodeId
  rebuild : NodeId → Copying NodeId

/-- Which nodes are replaced, and by what. -/
structure Replacement where
  applies : Arena → NodeId → Node NodeId → Bool
  /-- The copy of what stands for the node; with nothing, the node itself is copied. -/
  replace : Arena → Copier → NodeId → Node NodeId → Copying (Option NodeId)

namespace Replacement
open Copying

/-- Copies a node whose children are copied by `copy`. It keeps its span. -/
def rebuildWith (a : Arena) (copy : NodeId → Copying NodeId) (id : NodeId) :
    Copying NodeId := do
  let n ← a.node id
  add (← n.mapM copy) (a.span? id)

variable (rule : Replacement)

/-- Copies the tree below an id, down to the given depth. -/
def copyUpTo (a : Arena) : Nat → NodeId → Copying NodeId
  | 0, id => throw (.arena (.missingNode id))
  | depth + 1, id => do
    let copy := copyUpTo a depth
    let n ← a.node id
    if rule.applies a id n then
      match ← rule.replace a ⟨copy, rebuildWith a copy⟩ id n with
      | some replaced => return replaced
      | none => rebuildWith a copy id
    else rebuildWith a copy id

/-- Copies a script from its root. -/
def apply (a : Arena) : Except ScriptError Arena := do
  let root ← a.root
  let (copy, output) ← (copyUpTo rule a a.depthBound root).run {}
  return output.withRoot copy

end Replacement

end ScriptInject
