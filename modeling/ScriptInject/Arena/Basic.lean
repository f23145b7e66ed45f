import Std.Data.TreeMap.Basic
import ScriptInject.Node
import ScriptInject.Span
/-! A script's syntax as a store of nodes that name their children by id. -/
namespace ScriptInject

/-- Ids are positive; zero is never given out. -/
abbrev NodeId := Nat

/-- The name of a node that has no better one. -/
def NodeId.describe (id : NodeId) : String := "n" ++ toString id

inductive ArenaError where
  /-- Every id has been given out. -/
  | full
  | missingNode (id : NodeId)
  | noRoot
deriving DecidableEq, Repr

def ArenaError.message : ArenaError → String
  | .full => "Syntax tree node ID overflow: maximum number of nodes reached"
  | .missingNode id => "Node " ++ NodeId.describe id ++ " does not exist in the syntax tree"
  | .noRoot => "Syntax tree has no root node"

/-- The nodes of a script, the spans of those that were read from a text, and the root. New nodes
get the ids from `nextId` upwards. -/
structure Arena where
  nodes : Std.TreeMap NodeId (Node NodeId) := {}
  root? : Option NodeId := none
  nextId : Nat := 1
  spans : Std.TreeMap NodeId Span := {}
deriving Inhabited

namespace Arena

/-- Ids are 32 bits wide and the last one is kept free. -/
def idLimit : Nat := 4294967295

def empty : Arena := {}

/-- The id a new node gets, if there is one left. -/
def fresh? (a : Arena) : Option NodeId :=
  if a.nextId = 0 ∨ a.nextId = idLimit then none else some a.nextId

def add (a : Arena) (n : Node NodeId) (span : Option Span) : Except ArenaError (NodeId × Arena) :=
  match a.fresh? with
  | none => .error .full
  | some id => .ok (id, { a with
      nodes := a.nodes.insert id n
      nextId := id + 1
      spans := match span with
        | some s => a.spans.insert id s
        | none => a.spans })

def withRoot (a : Arena) (id : NodeId) : Arena := { a with root? := some id }

def root (a : Arena) : Except ArenaError NodeId :=
  match a.root? with
  | some id => .ok id
  | none => .error .noRoot

def get? (a : Arena) (id : NodeId) : Option (Node NodeId) := a.nodes[id]?

def node (a : Arena) (id : NodeId) : Except ArenaError (Node NodeId) :=
  match a.get? id with
  | some n => .ok n
  | none => .error (.missingNode id)

/-- The span of a node, unless it was made up. -/
def span? (a : Arena) (id : NodeId) : Option Span := a.spans[id]?

def size (a : Arena) : Nat := a.nodes.size

def isEmpty (a : Arena) : Bool := a.nodes.isEmpty

/-- Every node, by ascending id. -/
def toList (a : Arena) : List (NodeId × Node NodeId) := a.nodes.toList

/-- More steps than any path without a cycle has. -/
def depthBound (a : Arena) : Nat := a.size + 1

/-- Every id that something in the arena refers to: the root, the children of each node, and the
ids that have a span. -/
def mentioned (a : Arena) : List NodeId :=
  a.root?.toList ++ a.toList.flatMap (·.2.children) ++ a.spans.toList.map (·.1)

def require (a : Arena) (id : NodeId) : Except ArenaError Unit :=
  if a.nodes.contains id then .ok () else .error (.missingNode id)

/-- Fails at the first mentioned id without a node. -/
def validate (a : Arena) : Except ArenaError Unit := a.mentioned.forM a.require

end Arena

end ScriptInject
