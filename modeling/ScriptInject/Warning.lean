import ScriptInject.Marker
/-! What is passed over in a script, and told. -/
namespace ScriptInject

inductive Warning where
  /-- A marker on a node that it does not apply to. -/
  | misplacedMarker (marker : Marker) (label : String)
  | unknownArgument (argument label : String)
deriving DecidableEq, Repr

def Warning.message : Warning → String
  | .misplacedMarker marker label =>
    "Ignoring [" ++ marker.name ++ "] on " ++ label ++ ": the annotation does not apply there"
  | .unknownArgument argument label =>
    "Ignoring unknown argument " ++ argument ++ " on " ++ label

end ScriptInject
