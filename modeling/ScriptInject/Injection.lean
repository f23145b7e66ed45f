import ScriptInject.Replacement
import ScriptInject.Target.Resolver
/-! Making a script fetch what it depends on. A resolved declaration becomes an assignment of a call
on the context, a resolved parameter gets the call as its default, markers and prepared `using`
lines go, and the script takes the context as its first parameter. -/
namespace ScriptInject

/-- Where a call is put. -/
inductive Placement where
  /-- In the place of a declaring statement, as an assignment. -/
  | statement
  /-- In the place of a chain inside an expression. -/
  | expression
  /-- As the default of a parameter. -/
  | parameter
deriving DecidableEq, Repr

/-- A call on the context. -/
structure Fetch where
  method : String
  path? : Option String
  arguments : List String
  placement : Placement
deriving DecidableEq, Repr

structure Injection where
  contextVariable : String
  namespaces : List String
  root? : Option NodeId
  /-- The calls by the nodes that they replace; of two for one node, the first counts. -/
  fetches : List (NodeId × Fetch)

namespace Injection
open Copying

/-- The call for a binding and the node that it replaces, if something serves the binding. -/
def fetchOf? (d : Definition) (b : Binding) : Option (NodeId × Fetch) := do
  let provider ← b.provider?
  let e ← d.element? b.element
  let method ← e.role.fetchMethod?
  let (node, placement) := match e.role, e.declaration? with
    | .injectParameter, _ => (e.node, Placement.parameter)
    | _, some declaration => (declaration, .statement)
    | _, none => (e.node, .expression)
  let arguments := provider.id :: (b.target.scope?.toList ++ b.target.connectionString?.toList)
  return (node, ⟨method, d.arena.declaredVariable? e.node, arguments, placement⟩)

def ofBindings (d : Definition) (bindings : List Binding) (contextVariable : String)
    (namespaces : List String) : Injection where
  contextVariable := contextVariable
  namespaces := namespaces
  root? := d.arena.root?
  fetches := (bindings.filterMap (fetchOf? d)).reverse

variable (inj : Injection)

def isMarker (a : Arena) (id : NodeId) : Bool := (a.marker? id).isSome

/-- The attributes that are no markers, copied. -/
def keptAttributes (a : Arena) (k : Copier) (attributes : List NodeId) : Copying (List NodeId) :=
  (attributes.filter (!isMarker a ·)).mapM k.copy

/-- A `using` line for one of the prepared namespaces. -/
def isPrepared (a : Arena) (id : NodeId) : Bool :=
  match a.get? id with
  | some (.usingStatement .namespaceName name) => inj.namespaces.any (Text.caselessEq · name)
  | _ => false

def context : Copying NodeId := addNew (.variableRef inj.contextVariable false)

/-- `$context.Method('argument', ...)` -/
def call (f : Fetch) : Copying NodeId := do
  let target ← inj.context
  let name ← addNew (.stringConstant f.method .bareWord)
  let arguments ← f.arguments.mapM fun value => addNew (.stringConstant value .singleQuoted)
  addNew (.invokeMember target name arguments false false)

def contextParameter : Copying NodeId := do
  let name ← inj.context
  addNew (.parameter [] name none)

/-- The `param` block of the script, with the context before the other parameters. -/
def rootParams (a : Arena) (k : Copier) (params? : Option NodeId) : Copying NodeId := do
  let context ← inj.contextParameter
  match params? with
  | none => addNew (.paramBlock [] [context])
  | some params =>
    match ← a.node params with
    | .paramBlock attributes parameters =>
      let attributes ← keptAttributes a k attributes
      let parameters ← parameters.mapM k.copy
      add (.paramBlock attributes (context :: parameters)) (a.span? params)
    | _ => k.rebuild params

/-- Puts a call in the place of a node. -/
def applyFetch (a : Arena) (k : Copier) (f : Fetch) (id : NodeId) (n : Node NodeId) :
    Copying (Option NodeId) := do
  let call ← inj.call f
  match f.placement, f.path?, n with
  | .expression, _, _ => return some call
  | .statement, none, _ => return some call
  | .statement, some path, _ =>
    let left ← addNew (.variableRef path false)
    let expression ← addNew (.commandExpression call)
    let right ← addNew (.pipeline [expression])
    return some (← add (.assignment left .assign right) (a.span? id))
  | .parameter, _, .parameter attributes name _ =>
    let attributes ← keptAttributes a k attributes
    let name ← k.copy name
    return some (← add (.parameter attributes name (some call)) (a.span? id))
  | .parameter, _, _ => return none

/-- The copy of a node without its markers; the script itself also loses its prepared lines and
gains the context. -/
def strip (a : Arena) (k : Copier) (id : NodeId) : Node NodeId → Copying (Option NodeId)
  | .scriptBlock usings params? blocks =>
    if inj.root? = some id then do
      let usings ← (usings.filter (!inj.isPrepared a ·)).mapM k.copy
      let params ← inj.rootParams a k params?
      let blocks ← blocks.mapM k.copy
      return some (← add (.scriptBlock usings (some params) blocks) (a.span? id))
    else return none
  | .paramBlock attributes parameters => do
    let attributes ← keptAttributes a k attributes
    let parameters ← parameters.mapM k.copy
    return some (← add (.paramBlock attributes parameters) (a.span? id))
  | .parameter attributes name value => do
    let attributes ← keptAttributes a k attributes
    let name ← k.copy name
    let value ← value.mapM k.copy
    return some (← add (.parameter attributes name value) (a.span? id))
  | .annotated _ child => do return some (← k.copy child)
  | _ => return none

def hasMarker (a : Arena) : Node NodeId → Bool
  | .paramBlock attributes _ => attributes.any (isMarker a)
  | .parameter attributes _ _ => attributes.any (isMarker a)
  | .annotated mark _ => isMarker a mark
  | _ => false

def fetch? (id : NodeId) : Option Fetch := inj.fetches.lookup id

def replacement : Replacement where
  applies a id n := (inj.fetch? id).isSome || inj.root? == some id || hasMarker a n
  replace a k id n :=
    match inj.fetch? id with
    | some f => inj.applyFetch a k f id n
    | none => inj.strip a k id n

/-- The script with its calls in place. -/
def apply (a : Arena) : Except ScriptError Arena := inj.replacement.apply a

end Injection

end ScriptInject
