import ScriptInject.Label
import ScriptInject.ScriptError
import ScriptInject.Warning
/-! The marked nodes of a script, found in one walk from the root. Whether they get along with one
another is not asked here. -/
namespace ScriptInject

/-- A marked node. -/
structure Candidate where
  node : NodeId
  /-- The attribute that marks it. -/
  mark : NodeId
  /-- The statement or parameter that declares the variable in question. -/
  declaration? : Option NodeId
deriving DecidableEq, Repr

/-- What is found, in pre-order. -/
structure Survey where
  candidates : List (Role × Candidate) := []
  /-- Injected parameters with the function or script block that declares them. -/
  parameters : List (NodeId × Candidate) := []
  usings : List NodeId := []
  warnings : List Warning := []
deriving DecidableEq, Repr

namespace Survey

def isEmpty (s : Survey) : Bool := s.candidates.isEmpty && s.parameters.isEmpty

def ofRole (s : Survey) (r : Role) : List Candidate :=
  (s.candidates.filter (·.1 = r)).map (·.2)

def parametersOf (s : Survey) (owner : NodeId) : List Candidate :=
  (s.parameters.filter (·.1 = owner)).map (·.2)

/-- What a walk has found so far and what it remembers. -/
structure Walk where
  found : Survey := {}
  /-- The statements that declare the variables of chains, by the outermost link of the chain; the
  latest comes first. -/
  declarations : List (NodeId × NodeId) := []
  /-- Inner links and `param` blocks of functions, which have been looked at through what they
  belong to. -/
  done : List NodeId := []

abbrev Walking := StateT Walk (Except ScriptError)

def warn (w : Warning) : Walking Unit :=
  modify fun s => { s with found := { s.found with warnings := s.found.warnings ++ [w] } }

def addCandidate (r : Role) (c : Candidate) : Walking Unit :=
  modify fun s => { s with found := { s.found with candidates := s.found.candidates ++ [(r, c)] } }

def addParameter (owner : NodeId) (c : Candidate) : Walking Unit :=
  modify fun s =>
    { s with found := { s.found with parameters := s.found.parameters ++ [(owner, c)] } }

def addUsing (id : NodeId) : Walking Unit :=
  modify fun s => { s with found := { s.found with usings := s.found.usings ++ [id] } }

def declare (chain statement : NodeId) : Walking Unit :=
  modify fun s => { s with declarations := (chain, statement) :: s.declarations }

def markDone (ids : List NodeId) : Walking Unit := modify fun s => { s with done := ids ++ s.done }

def isDone (id : NodeId) : Walking Bool := return (← get).done.contains id

/-- The attributes, inner links and end of a chain. -/
structure Chain where
  attributes : List NodeId
  inner : List NodeId
  last : NodeId

/-- Follows a chain from one of its links, at most `n` links on. -/
def chainUpTo (a : Arena) : Nat → NodeId → Except ScriptError Chain
  | 0, id => .ok ⟨[], [], id⟩
  | n + 1, id => do
    let onwards (attributes : List NodeId) (child : NodeId) : Except ScriptError Chain := do
      if a.isChain child then
        let rest ← chainUpTo a n child
        return ⟨attributes ++ rest.attributes, child :: rest.inner, rest.last⟩
      return ⟨attributes, [], child⟩
    match ← a.node id with
    | .annotated mark child => onwards [mark] child
    | .convert _ child => onwards [] child
    | _ => return ⟨[], [], id⟩

/-- What a chain marks: its variable, the script block at its end, or nothing. -/
def chainSite (a : Arena) (head last : NodeId) : Except ScriptError (Option Site) := do
  if (a.chainVariable? head).isSome then
    return some .variableChain
  match ← a.node last with
  | .scriptBlockExpression _ => return some .scriptBlock
  | _ => return none

variable (a : Arena)

/-- Files each marked attribute as a candidate where its marker applies, and warns of it
elsewhere. -/
def fileMarks (attributes : List NodeId) (site : Option Site) (node : NodeId)
    (declaration? : Option NodeId) : Walking Unit :=
  attributes.forM fun mark =>
    match a.marker? mark with
    | none => pure ()
    | some marker =>
      match site.bind marker.role? with
      | some role => addCandidate role ⟨node, mark, declaration?⟩
      | none => warn (.misplacedMarker marker (a.label node))

/-- The whole chain from its outermost link. -/
def visitChain (head : NodeId) : Walking Unit := do
  let chain ← chainUpTo a a.depthBound head
  markDone chain.inner
  let site ← chainSite a head chain.last
  let declarations := (← get).declarations
  let declaration? := if site = some .variableChain then declarations.lookup head else none
  fileMarks a chain.attributes site head declaration?

/-- The markers of a function stand on the `param` block of its body. -/
def visitFunction (id body : NodeId) : Walking Unit := do
  match ← a.node body with
  | .scriptBlock _ (some params) _ =>
    markDone [params]
    match ← a.node params with
    | .paramBlock attributes _ => fileMarks a attributes (some .function) id none
    | _ => pure ()
  | _ => pure ()

def visitParameter (owner id : NodeId) (attributes : List NodeId) : Walking Unit :=
  attributes.forM fun mark =>
    match a.marker? mark with
    | none => pure ()
    | some marker =>
      match marker.role? .parameter with
      | some _ => addParameter owner ⟨id, mark, some id⟩
      | none => warn (.misplacedMarker marker (a.label id))

def visitNode (owner id : NodeId) : Node NodeId → Walking Unit
  | .usingStatement .. => addUsing id
  | .functionDefinition _ _ _ body => visitFunction a id body
  | .paramBlock attributes _ => do
    unless ← isDone id do
      fileMarks a attributes none owner none
  | .parameter attributes _ _ => visitParameter a owner id attributes
  | .pipeline [element] =>
    match a.get? element with
    | some (.commandExpression expression) =>
      if a.isChain expression then declare expression id else pure ()
    | _ => pure ()
  | .assignment left _ _ => if a.isChain left then declare left id else pure ()
  | .annotated .. | .convert .. => do
    unless ← isDone id do
      visitChain a id
  | _ => pure ()

/-- Functions and script blocks own the parameters inside them. -/
def ownerBelow (owner id : NodeId) : Node NodeId → NodeId
  | .functionDefinition .. | .scriptBlockExpression _ => id
  | _ => owner

/-- Visits a node and then what lies below it, down to the given depth. -/
def visitUpTo : Nat → NodeId → NodeId → Walking Unit
  | 0, _, id => throw (.arena (.missingNode id))
  | depth + 1, owner, id => do
    let n ← a.node id
    visitNode a owner id n
    n.children.forM (visitUpTo depth (ownerBelow owner id n))

/-- The marked nodes of a script. -/
def ofArena? : Except ScriptError Survey := do
  let root ← a.root
  let (_, walk) ← (visitUpTo a a.depthBound root root).run {}
  return walk.found

end Survey

end ScriptInject
