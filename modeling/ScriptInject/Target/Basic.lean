import ScriptInject.Provider
import ScriptInject.Target.Argument
/-! What each injected element asks for. -/
namespace ScriptInject

/-- Where the key of a target comes from. -/
inductive TargetSource where
  | named | positional | typeConstraint | declarationName
deriving DecidableEq, Repr

structure Target where
  key : ProviderKey
  source : TargetSource
  /-- Without a provider, an optional target keeps its declared default. -/
  optional : Bool
  /-- The scope of the injection site. -/
  scope? : Option String
  connectionString? : Option String
deriving DecidableEq, Repr

namespace Target

/-- The type that a type constraint names. -/
def constraintName? (a : Arena) (id : NodeId) : Option String :=
  match a.get? id with
  | some (.typeConstraint type) => some type.fullName
  | _ => none

/-- The first type constraint along a chain, at most `n` links on. -/
def chainConstraintUpTo (a : Arena) : Nat → NodeId → Option String
  | 0, _ => none
  | n + 1, id =>
    match a.get? id with
    | some (.annotated _ child) => chainConstraintUpTo a n child
    | some (.convert type child) => (constraintName? a type).or (chainConstraintUpTo a n child)
    | _ => none

/-- The first type constraint on a parameter or along a chain. -/
def typeConstraint? (a : Arena) (id : NodeId) : Option String :=
  match a.get? id with
  | some (.parameter attributes _ _) => attributes.findSome? (constraintName? a)
  | _ => chainConstraintUpTo a a.depthBound id

/-- The key of an element whose attribute names none: the type of its declaration or, without one,
the name that it declares, without scope. -/
def inferredKey (a : Arena) (e : Element) (args : Arguments) :
    Except ScriptError (ProviderKey × TargetSource) :=
  match typeConstraint? a e.node with
  | some type => .ok (.type type, .typeConstraint)
  | none =>
    match a.declaredVariable? e.node with
    | some path => .ok (.name (Text.afterLast ':' path), .declarationName)
    | none => .error (args.invalid "Target" "no target given and none can be inferred")

def Slot.source : Slot → TargetSource
  | .named _ => .named
  | .positional _ => .positional

def keyOf (a : Arena) (e : Element) (args : Arguments) :
    Except ScriptError (ProviderKey × TargetSource) := do
  match ← args.slot? "Target" (some 0) with
  | some slot =>
    match ← args.value a slot "Target" with
    | .text name => return (.name name, slot.source)
    | .type name => return (.type name, slot.source)
    | .flag _ => throw (args.invalid "Target" "expected a provider name or type")
  | none => inferredKey a e args

def optionalOf (a : Arena) (args : Arguments) : Except ScriptError Bool := do
  match ← args.slot? "Optional" (some 1) with
  | some slot =>
    match ← args.value a slot "Optional" with
    | .flag b => return b
    | _ => throw (args.invalid "Optional" "expected $true or $false")
  | none => return false

/-- The text in a slot, if the slot is filled. -/
def textOf (a : Arena) (args : Arguments) (name : String) (position : Option Nat) :
    Except ScriptError (Option String) := do
  match ← args.slot? name position with
  | some slot =>
    match ← args.value a slot name with
    | .text s => return some s
    | _ => throw (args.invalid name "expected a string")
  | none => return none

/-- Only databases have a connection string. -/
def connectionStringOf (a : Arena) (e : Element) (args : Arguments) :
    Except ScriptError (Option String) :=
  if e.role = .injectDatabase then textOf a args "ConnectionString" none else .ok none

/-- What an element asks for, in the scope of its injection site. -/
def ofElement (strict : Bool) (a : Arena) (scope? : Option String) (e : Element) :
    Reading Target := do
  let args ← argumentsOf strict a e
  let (key, source) ← (keyOf a e args : Except ScriptError _)
  let optional ← (optionalOf a args : Except ScriptError _)
  let connectionString? ← (connectionStringOf a e args : Except ScriptError _)
  return { key, source, optional, scope?, connectionString? }

end Target

end ScriptInject
