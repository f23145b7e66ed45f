import ScriptInject.Marker
import ScriptInject.ParseError
/-! Why a script cannot be compiled. -/
namespace ScriptInject

inductive ScriptError where
  | parse (cause : ParseError)
  /-- A second startup function. -/
  | duplicateStartup (existing duplicate : String)
  /-- An injected parameter of something that is no injection site. -/
  | orphanParameter (parameter owner : String)
  /-- Two roles on one node. -/
  | conflictingRoles (node : String) (first second : Role)
  /-- The builder has already given its definition. -/
  | builderFinalized
  /-- One argument given by name and by position. -/
  | conflictingTarget (element slot : String)
  | invalidArgument (element argument reason : String)
  /-- Required targets that no provider serves. -/
  | missingProvider (targets : List String)
  /-- A node that has no source text. -/
  | unprintable (kind : String) (span : Span)
  | config (reason : String)
  | arena (cause : ArenaError)
deriving DecidableEq, Repr

namespace ScriptError

def message : ScriptError → String
  | .parse cause => "Script syntax error: " ++ cause.message
  | .duplicateStartup existing duplicate =>
    "Startup function already defined by " ++ existing ++ "; " ++ duplicate ++
      " cannot also be the startup function"
  | .orphanParameter parameter owner =>
    "Parameter " ++ parameter ++ " is injected but " ++ owner ++ " is not an injection site"
  | .conflictingRoles node first second =>
    node ++ " cannot be both " ++ first.name ++ " and " ++ second.name
  | .builderFinalized => "Element builder has already been finalized"
  | .conflictingTarget element slot =>
    "Conflicting " ++ slot ++ " on " ++ element ++ ": given both by name and by position"
  | .invalidArgument element argument reason =>
    "Invalid " ++ argument ++ " on " ++ element ++ ": " ++ reason
  | .missingProvider targets => "Missing required providers: " ++ ", ".intercalate targets
  | .unprintable kind span => "Cannot generate source for " ++ kind ++ " at " ++ span.describe
  | .config reason => "Configuration error: " ++ reason
  | .arena cause => "Syntax tree error: " ++ cause.message

/-- How a list of errors is told: their number, and one line for each. -/
def summary (errors : List ScriptError) : String :=
  "Compilation failed with " ++ toString errors.length ++ " error(s)" ++
    String.join (errors.map fun e => "\n  - " ++ e.message)

end ScriptError

/-- An error of an arena is an error of the script that it holds. -/
instance : MonadLift (Except ArenaError) (Except ScriptError) where
  monadLift x := x.mapError .arena

end ScriptInject
