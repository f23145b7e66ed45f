import ScriptInject.Text.Caseless
import ScriptInject.Text.Slice
/-! Providers of values, and the registry in which they are looked up. -/
namespace ScriptInject

/-- What an injection asks for. -/
inductive ProviderKey where
  | name (n : String)
  | type (n : String)
deriving DecidableEq, Repr

def ProviderKey.id : ProviderKey → String
  | .name n | .type n => n

def ProviderKey.describe : ProviderKey → String
  | .name n => n
  | .type n => "[" ++ n ++ "]"

/-- How long a value lives once the host has made it. -/
inductive Lifetime where
  | transient | perScope | singleton
deriving DecidableEq, Repr, Inhabited

namespace Lifetime

def name : Lifetime → String
  | .transient => "transient"
  | .perScope => "scoped"
  | .singleton => "singleton"

def all : List Lifetime := [.transient, .perScope, .singleton]

def ofName? (name : String) : Option Lifetime := all.find? (·.name == name)

end Lifetime

/-- What is said of a provider: its name, the scope that it is limited to, the types that it stands
in for, and its lifetime. -/
structure Provider where
  name : String
  scope? : Option String := none
  types : List String := []
  lifetime : Lifetime := .singleton
deriving DecidableEq, Repr

namespace Provider

/-- Types match by their whole names or by the last parts of these, in any case. -/
def provides (p : Provider) (typeName : String) : Bool :=
  p.types.any fun t =>
    Text.caselessEq t typeName ||
      Text.caselessEq (Text.afterLast '.' t) (Text.afterLast '.' typeName)

def answers (p : Provider) : ProviderKey → Bool
  | .name n => Text.caselessEq p.name n
  | .type n => p.provides n

/-- Two providers that cannot be registered side by side. -/
def sameEntry (p q : Provider) : Bool := Text.caselessEq p.name q.name && p.scope? == q.scope?

end Provider

/-- What a look-up finds. The name is what a compiled script asks the host for. -/
structure ProviderHandle where
  id : String
  scope? : Option String
  lifetime : Lifetime
deriving DecidableEq, Repr

def Provider.handle (p : Provider) : ProviderHandle := ⟨p.name, p.scope?, p.lifetime⟩

/-- Providers in the order in which their entries were first registered. -/
structure Registry where
  providers : List Provider := []
deriving DecidableEq, Repr

namespace Registry

def size (r : Registry) : Nat := r.providers.length

def isEmpty (r : Registry) : Bool := r.providers.isEmpty

/-- Puts a provider in the place of the first one that satisfies `old`, or at the end. -/
def replaceFirst (old : Provider → Bool) (p : Provider) : List Provider → List Provider
  | [] => [p]
  | q :: qs => if old q then p :: qs else q :: replaceFirst old p qs

/-- Registers a provider, in the place of one with the same name and scope. -/
def register (r : Registry) (p : Provider) : Registry :=
  ⟨replaceFirst (·.sameEntry p) p r.providers⟩

def registerAll (r : Registry) (ps : List Provider) : Registry := ps.foldl register r

/-- Forgets every provider. -/
def clear (_ : Registry) : Registry := {}

/-- The first provider of a scope that answers. -/
def lookupIn (r : Registry) (key : ProviderKey) (scope : Option String) : Option Provider :=
  r.providers.find? fun p => p.scope? == scope && p.answers key

/-- The provider for a key. In a scope, its own providers come before global ones; elsewhere
only global ones are seen. -/
def resolve (r : Registry) (key : ProviderKey) (scope : Option String) : Option ProviderHandle :=
  let inScope := match scope with
    | some s => r.lookupIn key (some s)
    | none => none
  (inScope.or (r.lookupIn key none)).map Provider.handle

end Registry

end ScriptInject
