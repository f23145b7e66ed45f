import ScriptInject.Data.Json
import ScriptInject.Data.Json.Layout
import ScriptInject.Target.Resolver
/-! What the host of a compiled script finds in it: functions to call and templates. -/
namespace ScriptInject

/-- An injection site by the name of its function. -/
structure SiteEntry where
  function : String
  scope? : Option String := none
  /-- The names of the injected parameters. -/
  parameters : List String := []
deriving DecidableEq, Repr

structure Entrypoints where
  startup? : Option String := none
  sites : List SiteEntry := []
  onError : List String := []
  onLoaded : List String := []
  beforeUnload : List String := []
  /-- The name that each template is registered under, if it has one. -/
  templates : List (Option String) := []
deriving DecidableEq, Repr

namespace Definition

/-- The name of the function that an element is. -/
def functionName (d : Definition) (id : ElementId) : String :=
  match d.element? id with
  | some e =>
    match d.arena.get? e.node with
    | some (.functionDefinition name ..) => name
    | _ => d.arena.label e.node
  | none => ElementId.describe id

/-- The variable that an element declares. -/
def variableName? (d : Definition) (id : ElementId) : Option String :=
  (d.element? id).bind fun e => d.arena.declaredVariable? e.node

end Definition

namespace Entrypoints

/-! In a definition. -/

def siteEntry (r : Resolver) (site : InjectionSite) : Target.Reading SiteEntry := do
  let d := r.definition
  return {
    function := d.functionName site.element
    scope? := ← r.siteScope site
    parameters := site.parameters.filterMap d.variableName? }

def ofResolver (r : Resolver) : Target.Reading Entrypoints := do
  let d := r.definition
  let sites ← d.sites.mapM (siteEntry r)
  let templates ← d.templates.mapM r.templateName
  return {
    startup? := d.startup?.map d.functionName
    sites
    onError := d.onError.map d.functionName
    onLoaded := d.onLoaded.map d.functionName
    beforeUnload := d.beforeUnload.map d.functionName
    templates }

/-- The first injection site of a function, whose name is known in any case. -/
def site? (e : Entrypoints) (function : String) : Option SiteEntry :=
  e.sites.find? fun s => Text.caselessEq s.function function

/-! As JSON. -/
open Data

def siteLayout (s : SiteEntry) : Json.Layout :=
  .record [
    ("function", .text s.function),
    ("scope", .optionalText s.scope?),
    ("parameters", .list (s.parameters.map .text))]

def layout (e : Entrypoints) : Json.Layout :=
  .record [
    ("startup", .optionalText e.startup?),
    ("injection_sites", .list (e.sites.map siteLayout)),
    ("on_error", .list (e.onError.map .text)),
    ("on_loaded", .list (e.onLoaded.map .text)),
    ("before_unload", .list (e.beforeUnload.map .text)),
    ("templates", .list (e.templates.map .optionalText))]

def toJson (e : Entrypoints) : String := e.layout.toText

def siteOfData? (d : Data) : Option SiteEntry := do
  let fields ← fields? Json.format ["function", "scope", "parameters"] d
  return {
    function := ← required toText? "function" fields
    scope? := ← orElse (orNull? toText?) none "scope" fields
    parameters := ← orElse (toList? toText?) [] "parameters" fields }

def ofData? (d : Data) : Option Entrypoints := do
  let names := orElse (toList? toText?) []
  let fields ← fields? Json.format
    ["startup", "injection_sites", "on_error", "on_loaded", "before_unload", "templates"] d
  return {
    startup? := ← orElse (orNull? toText?) none "startup" fields
    sites := ← orElse (toList? siteOfData?) [] "injection_sites" fields
    onError := ← names "on_error" fields
    onLoaded := ← names "on_loaded" fields
    beforeUnload := ← names "before_unload" fields
    templates := ← orElse (toList? (orNull? toText?)) [] "templates" fields }

def ofJson? (text : String) : Option Entrypoints := (Json.ofText? text).bind ofData?

end Entrypoints

end ScriptInject
