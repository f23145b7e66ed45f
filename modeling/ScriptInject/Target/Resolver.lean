import ScriptInject.Target.Basic
/-! The targets of a whole definition, and the providers that serve them. -/
namespace ScriptInject

/-- A definition and how its attributes are read. -/
structure Resolver where
  definition : Definition
  /-- Whether an argument that means nothing is an error. -/
  strict : Bool := false

/-- An injected element, what it asks for, and what serves it. -/
structure Binding where
  element : ElementId
  target : Target
  provider? : Option ProviderHandle
deriving DecidableEq, Repr

def Binding.isResolved (b : Binding) : Bool := b.provider?.isSome

namespace Resolver
open Target (Reading)

/-- What is noted while several elements are read: an error does not keep the rest from being
read. -/
structure Notes where
  warnings : List Warning := []
  errors : List ScriptError := []

abbrev Gathering := StateM Notes

/-- The outcome of a reading, unless it failed. -/
def noting {α : Type} (r : Reading α) : Gathering (Option α) := fun notes =>
  match r.run notes.warnings with
  | .ok a warnings => (some a, { notes with warnings })
  | .error e warnings => (none, { warnings, errors := notes.errors ++ [e] })

variable (r : Resolver)

def element (id : ElementId) : Except ScriptError Element :=
  match r.definition.element? id with
  | some e => .ok e
  | none => .error (.invalidArgument (ElementId.describe id) "element" "not part of this script")

def textSlot (id : ElementId) (name : String) : Reading (Option String) := do
  let a := r.definition.arena
  let e ← (r.element id : Except ScriptError _)
  let args ← Target.argumentsOf r.strict a e
  (Target.textOf a args name (some 0) : Except ScriptError _)

/-- The scope that an injection site declares. -/
def siteScope (site : InjectionSite) : Reading (Option String) := r.textSlot site.element "Scope"

/-- The name that a template is registered under. -/
def templateName (id : ElementId) : Reading (Option String) := r.textSlot id "Target"

def targetOf (scope? : Option String) (id : ElementId) : Reading (ElementId × Target) := do
  let e ← (r.element id : Except ScriptError _)
  return (id, ← Target.ofElement r.strict r.definition.arena scope? e)

/-- The targets of the parameters of a site whose scope can be read. -/
def siteTargets (site : InjectionSite) : Gathering (List (ElementId × Target)) := do
  match ← noting (r.siteScope site) with
  | some scope? => site.parameters.filterMapM fun id => noting (r.targetOf scope? id)
  | none => return []

def checkTemplate (id : ElementId) : Gathering Unit := do
  let _ ← noting (r.templateName id)

def checkLifecycle (id : ElementId) : Gathering Unit := do
  let _ ← noting do
    let e ← (r.element id : Except ScriptError _)
    Target.argumentsOf r.strict r.definition.arena e

/-- The functions that the host calls without injecting into them. -/
def lifecycle : List ElementId :=
  let d := r.definition
  d.startup?.toList ++ d.onError ++ d.onLoaded ++ d.beforeUnload

/-- Reads every attribute: sites with their parameters, variables, templates, and the rest. -/
def gather : Gathering (List (ElementId × Target)) := do
  let d := r.definition
  let ofParameters ← d.sites.mapM r.siteTargets
  let ofVariables ← d.injectedVariables.filterMapM fun id => noting (r.targetOf none id)
  d.templates.forM r.checkTemplate
  r.lifecycle.forM r.checkLifecycle
  return ofParameters.flatten ++ ofVariables

/-- The targets of all injected elements in the order of the elements, or all errors found on the
way; and the warnings in either case. -/
def targets : Except (List ScriptError) (List (ElementId × Target)) × List Warning :=
  let (found, notes) := r.gather.run {}
  if notes.errors.isEmpty then
    (.ok (found.mergeSort fun s t => decide (s.1 ≤ t.1)), notes.warnings)
  else (.error notes.errors, notes.warnings)

/-- The keys of required targets that nothing serves, each once. -/
def missing (bindings : List Binding) : List String :=
  (bindings.filter fun b => b.provider?.isNone && !b.target.optional).foldl
    (fun keys b =>
      let key := b.target.key.describe
      if keys.contains key then keys else keys ++ [key]) []

/-- Looks every target up. All required targets that nothing serves are told in one error. -/
def resolve (find : ProviderKey → Option String → Option ProviderHandle) :
    Except (List ScriptError) (List Binding) × List Warning :=
  match r.targets with
  | (.error errors, warnings) => (.error errors, warnings)
  | (.ok targets, warnings) =>
    let bindings := targets.map fun (id, t) => ⟨id, t, find t.key t.scope?⟩
    match missing bindings with
    | [] => (.ok bindings, warnings)
    | keys => (.error [.missingProvider keys], warnings)

end Resolver

end ScriptInject
