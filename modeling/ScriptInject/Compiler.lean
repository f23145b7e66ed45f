import ScriptInject.Builder
import ScriptInject.Config
import ScriptInject.Entrypoints
import ScriptInject.Grammar.Script
import ScriptInject.Injection
import ScriptInject.Source.Generate
/-! Compiling: a script with markers becomes a script that fetches what it depends on. -/
namespace ScriptInject

/-- A compiled script, and what its host has to know about it. -/
structure Compiled where
  source : String
  entrypoints : Entrypoints
  bindings : List Binding

/-- The providers that the script asks for. -/
def Compiled.providers (c : Compiled) : List String :=
  c.bindings.filterMap fun b => b.provider?.map (·.id)

structure Compiler where
  /-- The registry: what serves a key in a scope. -/
  find : ProviderKey → Option String → Option ProviderHandle
  config : Config := {}

namespace Compiler

inductive Failure where
  /-- The errors of the first step that failed. -/
  | errors (es : List ScriptError)
  /-- The reading of the script has ended for another cause than an error in the script. -/
  | unread (cause : Grammar.Failure)

/-- Compiling may fail, and warns either way. -/
abbrev Compiling := EStateM Failure (List Warning)

def orErrors {α : Type} : Except (List ScriptError) α → Compiling α
  | .ok a => pure a
  | .error es => throw (.errors es)

def orError {α : Type} (x : Except ScriptError α) : Compiling α :=
  orErrors (x.mapError fun e => [e])

def warn (ws : List Warning) : Compiling Unit := modify (· ++ ws)

/-- Goes on with the warnings of a reading. -/
def reading {α : Type} (r : Target.Reading α) : Compiling α := fun warnings =>
  match r.run warnings with
  | .ok a warnings => .ok a warnings
  | .error e warnings => .error (.errors [e]) warnings

/-- Reads a text whose first `offset` bytes do not belong to the source; errors are told by their
place in the source. -/
def parse (offset : Nat) (text : String) : Compiling Arena :=
  match Script.parse text with
  | .ok a => pure a
  | .error (.refused e) => throw (.errors [.parse (e.shiftBack offset)])
  | .error f => throw (.unread f)

/-- The same error in the source. -/
def shiftBack (offset : Nat) : ScriptError → ScriptError
  | .unprintable kind span => .unprintable kind ⟨span.start - offset, span.stop - offset⟩
  | e => e

variable (c : Compiler)

def compileStep (source : String) : Compiling Compiled := do
  let prepared := Script.prepare source c.config.namespaces
  let offset := Text.size prepared.toList - Text.size source.toList
  let arena ← parse offset prepared
  let survey ← orError (Survey.ofArena? arena)
  warn survey.warnings
  let definition ← orErrors (Definition.ofSurvey? arena survey)
  let resolver : Resolver := { definition, strict := c.config.strictArguments }
  let (bindings, warnings) := resolver.resolve c.find
  warn warnings
  let bindings ← orErrors bindings
  let entrypoints ← reading (Entrypoints.ofResolver resolver)
  let injection :=
    Injection.ofBindings definition bindings c.config.contextVariable c.config.namespaces
  let output ← orError (injection.apply arena)
  let text ← orError ((Source.generateScript output).mapError (shiftBack offset))
  return ⟨text, entrypoints, bindings⟩

/-- Compiles a script, or tells the errors of the first step that fails; and the warnings in either
case, each of them once. -/
def compile (source : String) : Except Failure Compiled × List Warning :=
  match (c.compileStep source).run [] with
  | .ok compiled warnings => (.ok compiled, warnings.eraseDups)
  | .error f warnings => (.error f, warnings.eraseDups)

end Compiler

end ScriptInject
