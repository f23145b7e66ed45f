import Std.Data.TreeSet.Basic
import ScriptInject.Arena.Basic
/-! Depth-first order. -/
namespace ScriptInject.Arena

/-- Visits the ids on the stack and what they lead to, each id once; `steps` bounds how many ids
are taken off the stack. -/
def preorderFrom (a : Arena) : Nat → Std.TreeSet NodeId → List NodeId → List (NodeId × Node NodeId)
  | 0, _, _ => []
  | _ + 1, _, [] => []
  | steps + 1, seen, id :: stack =>
    if seen.contains id then preorderFrom a steps seen stack
    else match a.get? id with
      | none => preorderFrom a steps (seen.insert id) stack
      | some n => (id, n) :: preorderFrom a steps (seen.insert id) (n.children ++ stack)

/-- How many ids are put on the stack at most: the start, and the children of each node once. -/
def stackBound (a : Arena) : Nat := a.nodes.foldl (fun sum _ n => sum + n.children.length) 1

/-- The nodes that `start` leads to, in pre-order. A shared node comes at its first place, and
ids without a node are passed over. -/
def preorder (a : Arena) (start : NodeId) : List (NodeId × Node NodeId) :=
  preorderFrom a a.stackBound {} [start]

/-- The reachable nodes in pre-order; none without a root. -/
def reachable (a : Arena) : List (NodeId × Node NodeId) :=
  match a.root? with
  | some root => a.preorder root
  | none => []

def find (a : Arena) (p : Node NodeId → Bool) : List NodeId :=
  (a.reachable.filter fun (_, n) => p n).map (·.1)

end ScriptInject.Arena
