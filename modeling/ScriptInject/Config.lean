import ScriptInject.Data.Json
import ScriptInject.Data.Toml
import ScriptInject.Marker
import ScriptInject.Provider
import ScriptInject.ScriptError
import ScriptInject.Text.Alphanumeric
import ScriptInject.Text.Blank
import ScriptInject.Text.Quoted
/-! What a compiler is told besides the script. -/
namespace ScriptInject

structure Config where
  /-- The parameter of the script that receives the context. -/
  contextVariable : String := "PSyringeContext"
  /-- The namespaces of the `using` lines that are put before a script. -/
  namespaces : List String := Marker.namespaces
  /-- Whether an argument that means nothing is an error. -/
  strictArguments : Bool := false
  providers : List Provider := []
deriving DecidableEq, Repr

namespace Config
open Data

def providerOf? (format : Format) (d : Data) : Option Provider := do
  let fields ← fields? format ["name", "scope", "types", "lifetime"] d
  return {
    name := ← required toText? "name" fields
    scope? := ← orElse (orNull? toText?) none "scope" fields
    types := ← orElse (toList? toText?) [] "types" fields
    lifetime := ← orElse (constant? format Lifetime.ofName?) .singleton "lifetime" fields }

def ofData? (format : Format) (d : Data) : Option Config := do
  let default : Config := {}
  let fields ← fields? format
    ["context_variable", "namespaces", "strict_arguments", "providers"] d
  return {
    contextVariable := ← orElse toText? default.contextVariable "context_variable" fields
    namespaces := ← orElse (toList? toText?) default.namespaces "namespaces" fields
    strictArguments := ← orElse toFlag? default.strictArguments "strict_arguments" fields
    providers := ← orElse (toList? (providerOf? format)) default.providers "providers" fields }

/-- Letters, digits and underscores, at least one of them. -/
def isVariableName (name : String) : Bool :=
  !name.isEmpty && name.toList.all fun c => Text.isAlphanumeric c || c == '_'

def isNameless (p : Provider) : Bool := p.name.toList.all Text.isBlank

/-- The name of the context is one of a variable, and every provider has a name. -/
def validate (c : Config) : Except ScriptError Unit :=
  if !isVariableName c.contextVariable then
    .error (.config ("Invalid context variable name '" ++ c.contextVariable ++ "'"))
  else match c.providers.find? isNameless with
    | some p =>
      .error (.config ("Provider with types " ++ Text.quotedList p.types ++ " has no name"))
    | none => .ok ()

/-- A configuration from what has been read in a notation of the given name. -/
def ofReading (name : String) (format : Format) (d? : Option Data) : Except ScriptError Config := do
  match d?.bind (ofData? format) with
  | some c =>
    c.validate
    return c
  | none => throw (.config ("Failed to parse " ++ name))

def ofToml (text : String) : Except ScriptError Config :=
  ofReading "TOML" Toml.format (Toml.ofText? text)

def ofJson (text : String) : Except ScriptError Config :=
  ofReading "JSON" Json.format (Json.ofText? text)

/-- A registry of the providers of the configuration. -/
def registry (c : Config) : Registry := ({} : Registry).registerAll c.providers

end Config

end ScriptInject
