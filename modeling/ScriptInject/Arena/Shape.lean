import ScriptInject.Arena.Basic
/-! When two nodes stand for the same tree. -/
namespace ScriptInject.Arena

/-- Whether the trees below two ids agree in kinds and data down to the given depth, whatever ids
and spans they have. Deeper trees count as different. -/
def sameShapeUpTo : Nat → Arena → NodeId → Arena → NodeId → Bool
  | 0, _, _, _, _ => false
  | depth + 1, a, i, b, j =>
    match a.get? i, b.get? j with
    | some m, some n =>
      m.shell == n.shell &&
        (m.children.zip n.children).all fun (k, l) => sameShapeUpTo depth a k b l
    | _, _ => false

/-- The depth of a finite tree is bounded by the number of nodes of its arena. -/
def sameShape (a : Arena) (i : NodeId) (b : Arena) (j : NodeId) : Bool :=
  sameShapeUpTo a.depthBound a i b j

/-- The comparison of the roots; two arenas without a root agree. -/
def sameShapeAs (a b : Arena) : Bool :=
  match a.root?, b.root? with
  | some i, some j => a.sameShape i b j
  | none, none => true
  | _, _ => false

end ScriptInject.Arena
