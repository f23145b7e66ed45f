import ScriptInject.Text.Caseless
import ScriptInject.Text.Slice
/-! The vocabulary of annotations: which names mark an injection, where they apply, and what they
make of the node that carries them. -/
namespace ScriptInject

/-- What an annotated node is to the script. -/
inductive Role where
  | injectVariable | injectSecret | injectDatabase | injectConstant | injectParameter
  | injectionSite | injectTemplate | startup | onError | onLoaded | beforeUnload
deriving DecidableEq, Repr, Inhabited

namespace Role

def name : Role → String
  | .injectVariable => "InjectVariable"
  | .injectSecret => "InjectSecret"
  | .injectDatabase => "InjectDatabase"
  | .injectConstant => "InjectConstant"
  | .injectParameter => "InjectParameter"
  | .injectionSite => "InjectionSite"
  | .injectTemplate => "InjectTemplate"
  | .startup => "Startup"
  | .onError => "OnError"
  | .onLoaded => "OnLoaded"
  | .beforeUnload => "BeforeUnload"

def all : List Role :=
  [.injectVariable, .injectSecret, .injectDatabase, .injectConstant, .injectParameter,
    .injectionSite, .injectTemplate, .startup, .onError, .onLoaded, .beforeUnload]

def ofName? (name : String) : Option Role := all.find? (·.name == name)

/-- Carried by functions that the host looks for. -/
def isEntrypoint : Role → Bool
  | .injectionSite | .startup | .onError | .onLoaded | .beforeUnload => true
  | _ => false

/-- The method of the context that fetches a value for the role, if it receives one. -/
def fetchMethod? : Role → Option String
  | .injectVariable | .injectParameter => some "GetProvider"
  | .injectSecret => some "GetSecret"
  | .injectDatabase => some "GetDatabase"
  | .injectConstant => some "GetConstant"
  | _ => none

/-- Receives the value of a provider. -/
def isInjectable (r : Role) : Bool := r.fetchMethod?.isSome

end Role

/-- What kind of node an annotation stands on. -/
inductive Site where
  /-- A chain of annotations and conversions that ends in a variable. -/
  | variableChain
  | parameter
  /-- A function, by way of the `param` block of its body. -/
  | function
  | scriptBlock
deriving DecidableEq, Repr

/-- The annotations that mean something here. -/
inductive Marker where
  | inject | injectParameter | injectSecret | injectDatabase | injectConstant | injectionSite
  | startup | onError | onLoaded | beforeUnload | injectTemplate
deriving DecidableEq, Repr, Inhabited

namespace Marker

def name : Marker → String
  | .inject => "Inject"
  | .injectParameter => "InjectParameter"
  | .injectSecret => "InjectSecret"
  | .injectDatabase => "InjectDatabase"
  | .injectConstant => "InjectConstant"
  | .injectionSite => "InjectionSite"
  | .startup => "Startup"
  | .onError => "OnError"
  | .onLoaded => "OnLoaded"
  | .beforeUnload => "BeforeUnload"
  | .injectTemplate => "InjectTemplate"

def all : List Marker :=
  [.inject, .injectParameter, .injectSecret, .injectDatabase, .injectConstant, .injectionSite,
    .startup, .onError, .onLoaded, .beforeUnload, .injectTemplate]

/-- The second name that some markers have. -/
def alias? : Marker → Option String
  | .injectSecret => some "InjectCredential"
  | .onLoaded => some "OnLoad"
  | _ => none

/-- The last part of a dotted name in small letters, without `attribute` at its end unless that is
all of it. -/
def stem (typeName : String) : String :=
  let short := (Text.lower (Text.afterLast '.' typeName)).toList
  let ending := "attribute".toList
  if ending.isSuffixOf short ∧ short ≠ ending then
    String.ofList (short.take (short.length - ending.length))
  else String.ofList short

/-- The marker of an annotation's type name, whatever its case, qualification and ending. -/
def ofTypeName? (typeName : String) : Option Marker :=
  all.find? fun m =>
    Text.lower m.name == stem typeName || m.alias?.any (Text.lower · == stem typeName)

/-- The role that the marker gives to a node, if it applies to nodes of that kind. -/
def role? : Marker → Site → Option Role
  | .inject, .variableChain => some .injectVariable
  | .inject, .parameter => some .injectParameter
  | .injectParameter, .parameter => some .injectParameter
  | .injectSecret, .variableChain => some .injectSecret
  | .injectDatabase, .variableChain => some .injectDatabase
  | .injectConstant, .variableChain => some .injectConstant
  | .injectionSite, .function => some .injectionSite
  | .startup, .function => some .startup
  | .onError, .function => some .onError
  | .onLoaded, .function => some .onLoaded
  | .beforeUnload, .function => some .beforeUnload
  | .injectTemplate, .scriptBlock => some .injectTemplate
  | _, _ => none

/-- The namespaces in which the hosts define the annotations. -/
def namespaces : List String := ["PSyringe.Language.Attributes", "PSyringe.Common.Providers"]

end Marker

end ScriptInject
