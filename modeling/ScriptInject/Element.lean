import ScriptInject.Label
import ScriptInject.Survey
/-! The elements of a script: its marked nodes, grouped by role. -/
namespace ScriptInject

/-- The place of an element in its definition. -/
abbrev ElementId := Nat

def ElementId.describe (id : ElementId) : String := "e" ++ toString id

structure Element where
  role : Role
  node : NodeId
  /-- The attribute that gives the node its role. -/
  mark : NodeId
  declaration? : Option NodeId
deriving DecidableEq, Repr

/-- An injection site and the parameters injected into it, in the order in which they were
added. -/
structure InjectionSite where
  element : ElementId
  parameters : List ElementId := []
deriving DecidableEq, Repr

/-- The elements of one script. -/
structure Definition where
  arena : Arena
  elements : List Element := []
  sites : List InjectionSite := []
  startup? : Option ElementId := none
  /-- Injected variables of every kind. -/
  injectedVariables : List ElementId := []
  templates : List ElementId := []
  onError : List ElementId := []
  onLoaded : List ElementId := []
  beforeUnload : List ElementId := []

namespace Definition

def element? (d : Definition) (id : ElementId) : Option Element := d.elements[id]?

/-- The elements of a role, in the order in which they were added. -/
def ofRole (d : Definition) (r : Role) : List ElementId :=
  (d.elements.zipIdx.filter (·.1.role = r)).map (·.2)

/-- What an element is called. -/
def label (d : Definition) (id : ElementId) : String :=
  match d.element? id with
  | some e => d.arena.label e.node
  | none => ElementId.describe id

end Definition

end ScriptInject
