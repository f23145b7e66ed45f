import ScriptInject.Arena.Basic
import ScriptInject.Marker
/-! What nodes are called: the variable that a node declares, the marker that an attribute is, and
short names for diagnostics. -/
namespace ScriptInject.Arena

/-- The variable at the end of a chain of attributes and conversions, at most `n` nodes on. -/
def chainVariableUpTo (a : Arena) : Nat → NodeId → Option NodeId
  | 0, _ => none
  | n + 1, id =>
    match a.get? id with
    | some (.annotated _ child) => chainVariableUpTo a n child
    | some (.convert _ child) => chainVariableUpTo a n child
    | some (.variableRef ..) => some id
    | _ => none

def chainVariable? (a : Arena) (id : NodeId) : Option NodeId :=
  a.chainVariableUpTo a.depthBound id

/-- The node that names what a node declares: a parameter's name, or the variable of a chain that
stands alone or is assigned to. -/
def declaredNode? (a : Arena) (id : NodeId) : Option NodeId :=
  match a.get? id with
  | some (.parameter _ name _) => some name
  | some (.assignment left _ _) => a.chainVariable? left
  | some _ => a.chainVariable? id
  | none => none

/-- The path of the variable that a node declares. -/
def declaredVariable? (a : Arena) (id : NodeId) : Option String :=
  match (a.declaredNode? id).bind a.get? with
  | some (.variableRef path _) => some path
  | _ => none

/-- A short name, such as `function Main` or `$logger`. -/
def label (a : Arena) (id : NodeId) : String :=
  match a.get? id with
  | some (.functionDefinition name ..) => "function " ++ name
  | some (.scriptBlock ..) => "script"
  | some (.scriptBlockExpression _) => "script block"
  | some n =>
    match a.declaredVariable? id with
    | some path => "$" ++ path
    | none => n.kindName
  | none => NodeId.describe id

/-- The marker of an attribute. -/
def marker? (a : Arena) (id : NodeId) : Option Marker :=
  match a.get? id with
  | some (.attributeSpec type _ _) => Marker.ofTypeName? type.fullName
  | _ => none

/-- A link of a chain of attributes and conversions. -/
def isChain (a : Arena) (id : NodeId) : Bool :=
  match a.get? id with
  | some (.annotated ..) | some (.convert ..) => true
  | _ => false

end ScriptInject.Arena
