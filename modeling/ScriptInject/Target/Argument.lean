import ScriptInject.Decimal
import ScriptInject.Element
/-! The arguments of an attribute, by name and by position. -/
namespace ScriptInject.Target

/-- Reading arguments may fail, and warns either way. -/
abbrev Reading := EStateM ScriptError (List Warning)

instance : MonadLift (Except ScriptError) Reading where
  monadLift
    | .ok a => pure a
    | .error e => throw e

/-- Where the value of an argument stands. A name may stand without a value. -/
inductive Slot where
  | named (value? : Option NodeId)
  | positional (id : NodeId)
deriving DecidableEq, Repr

inductive Value where
  | text (s : String)
  | type (s : String)
  | flag (b : Bool)
deriving DecidableEq, Repr

/-- Whether a number stands for a set flag. What is not in plain decimal notation does. -/
def isSet (text : String) : Bool :=
  match Decimal.ofText? text.toList with
  | some d => !d.isZero
  | none => true

/-- The arguments of the attribute on an element that is called `element`. -/
structure Arguments where
  element : String
  positional : List NodeId
  named : List (String × Option NodeId)

namespace Arguments

def invalid (args : Arguments) (argument reason : String) : ScriptError :=
  .invalidArgument args.element argument reason

/-- The slot with a name and, perhaps, a position. It is not given both ways. -/
def slot? (args : Arguments) (name : String) (position : Option Nat) :
    Except ScriptError (Option Slot) :=
  let named := args.named.find? fun (n, _) => Text.caselessEq n name
  let positional := position.bind fun i => args.positional[i]?
  match named, positional with
  | some _, some _ => .error (.conflictingTarget args.element name)
  | some (_, value?), none => .ok (some (.named value?))
  | none, some id => .ok (some (.positional id))
  | none, none => .ok none

/-- The value of an expression in an argument. -/
def valueOf (args : Arguments) (argument : String) : Node NodeId → Except ScriptError Value
  | .stringConstant value _ => .ok (.text value)
  | .typeExpression type => .ok (.type type.fullName)
  | .number text => .ok (.flag (isSet text))
  | n =>
    let unsupported := args.invalid argument ("unsupported " ++ n.kindName ++ " value")
    match n with
    | .variableRef path false =>
      if Text.caselessEq path "true" then .ok (.flag true)
      else if Text.caselessEq path "false" then .ok (.flag false)
      else .error unsupported
    | _ => .error unsupported

/-- The value in a slot. A name alone sets a flag. -/
def value (args : Arguments) (a : Arena) (slot : Slot) (argument : String) :
    Except ScriptError Value :=
  match slot with
  | .named none => .ok (.flag true)
  | .named (some id) | .positional id => do args.valueOf argument (← a.node id)

end Arguments

/-- The named arguments that an attribute of a role has. -/
def knownArguments : Role → List String
  | .injectDatabase => ["Target", "Optional", "ConnectionString"]
  | .injectVariable | .injectSecret | .injectConstant | .injectParameter => ["Target", "Optional"]
  | .injectionSite => ["Scope"]
  | .injectTemplate => ["Target"]
  | .startup | .onError | .onLoaded | .beforeUnload => []

/-- How many positional arguments an attribute of a role has. -/
def positionalSlots : Role → Nat
  | .injectVariable | .injectSecret | .injectDatabase | .injectConstant | .injectParameter => 2
  | .injectionSite | .injectTemplate => 1
  | .startup | .onError | .onLoaded | .beforeUnload => 0

/-- Warns of an argument that means nothing; where arguments are strict, fails. -/
def unknownArgument (strict : Bool) (args : Arguments) (argument : String) : Reading Unit :=
  if strict then throw (args.invalid argument "unknown argument")
  else modify (· ++ [.unknownArgument argument args.element])

/-- The name and value of a named argument. -/
def namedArgument? : Node NodeId → Option (String × Option NodeId)
  | .namedArgument name value => some (name, value)
  | _ => none

def readArguments (a : Arena) (e : Element) : Except ScriptError Arguments := do
  let element := a.label e.node
  match ← a.node e.mark with
  | .attributeSpec _ positional named =>
    let named ← named.mapM fun id => a.node id
    return ⟨element, positional, named.filterMap namedArgument?⟩
  | _ => throw (.invalidArgument element "annotation" "not an attribute")

/-- The arguments of an element's attribute. Of arguments beyond the positions of its role, the
first one is told. -/
def argumentsOf (strict : Bool) (a : Arena) (e : Element) : Reading Arguments := do
  let args ← readArguments a e
  args.named.forM fun (name, _) =>
    if (knownArguments e.role).any (Text.caselessEq · name) then pure ()
    else unknownArgument strict args name
  if positionalSlots e.role < args.positional.length then
    unknownArgument strict args
      ("positional argument " ++ toString (positionalSlots e.role + 1))
  return args

end ScriptInject.Target
