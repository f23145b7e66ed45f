import ScriptInject.Element
/-! Building a definition step by step. A step that would break a rule changes nothing: there is at
most one startup function, an injected parameter belongs to an injection site, a node has at most
one role, and nothing is added once the definition has been given. -/
namespace ScriptInject

structure Builder where
  definition : Definition
  /-- The elements by the nodes that they wrap. -/
  byNode : Std.TreeMap NodeId ElementId := {}
  /-- The places of the injection sites among them by their functions. -/
  siteIndex : Std.TreeMap NodeId Nat := {}
  finalized : Bool := false

namespace Builder

def ofArena (a : Arena) : Builder := { definition := { arena := a } }

/-- A step of building. What it has changed before an error stays changed. -/
abbrev Building := EStateM ScriptError Builder

def ensureOpen : Building Unit := do
  if (← get).finalized then throw .builderFinalized

def edit (f : Definition → Definition) : Building Unit :=
  modify fun b => { b with definition := f b.definition }

/-- The element for a node in a role, and whether it is a new one. -/
def register (role : Role) (c : Candidate) : Building (ElementId × Bool) := do
  ensureOpen
  let b ← get
  let d := b.definition
  match b.byNode[c.node]? with
  | some id =>
    match d.element? id with
    | some e =>
      if e.role = role then return (id, false)
      throw (.conflictingRoles (d.arena.label c.node) e.role role)
    | none => return (id, false)
  | none =>
    let id := d.elements.length
    let e : Element := ⟨role, c.node, c.mark, c.declaration?⟩
    set { b with
      definition := { d with elements := d.elements ++ [e] }
      byNode := b.byNode.insert c.node id }
    return (id, true)

/-- Registers a candidate; `file` puts a new element in its place. -/
def enter (role : Role) (c : Candidate) (file : ElementId → Definition → Definition) :
    Building ElementId := do
  let (id, isNew) ← register role c
  if isNew then edit (file id)
  return id

def addSite (c : Candidate) : Building ElementId := do
  let (id, isNew) ← register .injectionSite c
  if isNew then
    modify fun b => { b with
      definition := { b.definition with sites := b.definition.sites ++ [{ element := id }] }
      siteIndex := b.siteIndex.insert c.node b.definition.sites.length }
  return id

/-- Sets the startup function, of which there is only one. -/
def setStartup (c : Candidate) : Building ElementId := do
  ensureOpen
  let d := (← get).definition
  match d.startup? with
  | some id => throw (.duplicateStartup (d.label id) (d.arena.label c.node))
  | none =>
    let (id, _) ← register .startup c
    edit fun d => { d with startup? := some id }
    return id

def addOnError (c : Candidate) : Building ElementId :=
  enter .onError c fun id d => { d with onError := d.onError ++ [id] }

def addOnLoaded (c : Candidate) : Building ElementId :=
  enter .onLoaded c fun id d => { d with onLoaded := d.onLoaded ++ [id] }

def addBeforeUnload (c : Candidate) : Building ElementId :=
  enter .beforeUnload c fun id d => { d with beforeUnload := d.beforeUnload ++ [id] }

def addTemplate (c : Candidate) : Building ElementId :=
  enter .injectTemplate c fun id d => { d with templates := d.templates ++ [id] }

def addVariable (role : Role) (c : Candidate) : Building ElementId :=
  enter role c fun id d => { d with injectedVariables := d.injectedVariables ++ [id] }

/-- Adds a parameter to the injection site that `function` is. -/
def addParameter (function : NodeId) (c : Candidate) : Building ElementId := do
  ensureOpen
  let b ← get
  match b.siteIndex[function]? with
  | none =>
    let a := b.definition.arena
    throw (.orphanParameter (a.label c.node) (a.label function))
  | some i =>
    enter .injectParameter c fun id d =>
      { d with sites := d.sites.modify i fun site =>
          { site with parameters := site.parameters ++ [id] } }

/-- Adds a candidate in the role that it was found in. A parameter on its own has no site. -/
def add (role : Role) (c : Candidate) : Building ElementId :=
  match role with
  | .injectionSite => addSite c
  | .startup => setStartup c
  | .onError => addOnError c
  | .onLoaded => addOnLoaded c
  | .beforeUnload => addBeforeUnload c
  | .injectTemplate => addTemplate c
  | .injectVariable | .injectSecret | .injectDatabase | .injectConstant => addVariable role c
  | .injectParameter => do
    throw (.orphanParameter ((← get).definition.arena.label c.node) "script")

/-- Gives the definition. -/
def build : Building Definition := do
  ensureOpen
  let d := (← get).definition
  modify fun b => { b with definition := { arena := d.arena }, finalized := true }
  return d

/-- Runs a step, or notes its error and goes on. -/
def attempt (step : Building ElementId) (s : Builder × List ScriptError) :
    Builder × List ScriptError :=
  match step s.1 with
  | .ok _ b => (b, s.2)
  | .error e b => (b, s.2 ++ [e])

/-- Adds all that a survey found: functions first, then the rest, and then the parameters. -/
def addSurvey (b : Builder) (s : Survey) : Builder × List ScriptError :=
  let functions := s.candidates.filter (·.1.isEntrypoint)
  let others := s.candidates.filter (!·.1.isEntrypoint)
  let added := (functions ++ others).foldl
    (fun state (role, c) => attempt (add role c) state) (b, [])
  s.parameters.foldl (fun state (owner, c) => attempt (addParameter owner c) state) added

end Builder

/-- The definition that a survey amounts to, or everything in it that breaks a rule. -/
def Definition.ofSurvey? (a : Arena) (s : Survey) : Except (List ScriptError) Definition :=
  match (Builder.ofArena a).addSurvey s with
  | (b, []) =>
    match Builder.build b with
    | .ok d _ => .ok d
    | .error e _ => .error [e]
  | (_, errors) => .error errors

end ScriptInject
