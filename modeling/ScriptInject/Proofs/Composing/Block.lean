import ScriptInject.Grammar.Block
import ScriptInject.Proofs.Composing.Basic
/-! Types, annotations, commands and blocks are put together from steps, apart from the few rules
that cut a piece out of the text. -/
namespace ScriptInject.Grammar

variable {α : Type} {i : Input} {V : Place → Prop} {F : Failure → Prop} {g : Nested}
  {closer : Closer}

/-- The rules that cut a piece out of the text or of a path go and fail as all others do. -/
structure Excerpting (i : Input) (V : Place → Prop) (F : Failure → Prop) : Prop
    extends Passable V F where
  bareWordText : Composed i V F bareWordText
  errorStatement : ∀ closer, Composed i V F (errorStatement closer)
  listedUsing : Composed i V F listedUsing
  variableRef : ∀ (q : Place) (path : String) (start : Nat), V q →
    q.current? = some (.variableName path) → Composed i V F (variableRef path start)

/-- So do the rules that contain themselves. -/
structure Composing (i : Input) (V : Place → Prop) (F : Failure → Prop) (g : Nested) : Prop
    extends Excerpting i V F where
  statement : Composed i V F g.statement
  expression : ∀ commas, Composed i V F (g.expression commas)
  unary : Composed i V F g.unary

namespace Composed

/-! Types. -/
section Types

variable (hV : Passable V F)
include hV

theorem dottedName : Composed i V F dottedName := by
  refine peek.bind fun t => ?_
  split
  · refine (advance hV).bind fun _ =>
      (many hV (peek.bind fun t => peekNext.bind fun u => ?_)).bind fun others => pure _
    split
    · exact (advanceBy hV 2).bind fun _ => pure _
    · exact pure none
  · exact unexpected hV _

theorem typeArgument {typeName : Parser TypeName} (h : Composed i V F typeName) :
    Composed i V F (typeArgument typeName) := by
  refine (eat hV .lbracket).bind fun found => ?_
  split
  · exact h.bind fun t => (expect hV .rbracket).bind fun _ => pure t
  · exact h

theorem typeBracket {typeName : Parser TypeName} (h : Composed i V F typeName)
    (t : TypeName × Nat) : Composed i V F (typeBracket typeName t) := by
  refine peek.bind fun u => ?_
  split
  · refine peekNext.bind fun v => ?_
    split
    · exact (advanceBy hV 2).bind fun _ => pure _
    · exact start.bind fun _ => refuse hV _
    · exact (advance hV).bind fun _ => (typeArgument hV h).bind fun first =>
        (afterCommas hV (typeArgument hV h)).bind fun others =>
          (expect hV .rbracket).bind fun _ => pure _
    · exact pure none
  · exact pure none

theorem typeNameUpTo (n : Nat) : Composed i V F (typeNameUpTo n) := by
  induction n with
  | zero => exact stall hV
  | succ n ih =>
    exact (dottedName hV).bind fun name =>
      (iterate hV (typeBracket hV ih) _).bind fun t => pure _

theorem typeName : Composed i V F typeName := place.bind fun _ => typeNameUpTo hV _

theorem typeConstraint : Composed i V F typeConstraint :=
  start.bind fun _ => (expect hV .lbracket).bind fun _ => (typeName hV).bind fun _ =>
    (expect hV .rbracket).bind fun _ => add _ _

end Types

/-! Variables, annotations and parameters. -/

theorem bareVariable (h : Excerpting i V F) (expected : String) :
    Composed i V F (bareVariable expected) := by
  refine start.bind fun _ => peek_bind fun q hq => ?_
  split
  · rename_i path hpath
    exact (advance h.toPassable).bind fun _ => h.variableRef q path _ hq hpath
  · exact unexpected h.toPassable _

section Nested

variable (h : Composing i V F g)
include h

theorem annotationArgument : Composed i V F (annotationArgument g) := by
  refine start.bind fun _ => peek.bind fun t => peekNext.bind fun u => ?_
  have hlone {name : String} {start : Nat} : Composed i V F (do
      Parser.advance
      return Argument.named (← Parser.add (.namedArgument name none) start)) :=
    (advance h.toPassable).bind fun _ => (add _ _).bind fun _ => pure _
  split
  · exact (advanceBy h.toPassable 2).bind fun _ => (skipNewlines h.toPassable).bind fun _ =>
      (h.expression false).bind fun value => (add _ _).bind fun _ => pure _
  iterate 3 exact hlone
  exact (h.expression false).bind fun _ => pure _

theorem bracketHead : Composed i V F (bracketHead g) := by
  refine start.bind fun _ => (expect h.toPassable .lbracket).bind fun _ =>
    (typeName h.toPassable).bind fun t => (eat h.toPassable .lparen).bind fun found => ?_
  split
  · exact (untilParen h.toPassable (annotationArgument h)).bind fun _ =>
      (expect h.toPassable .rbracket).bind fun _ => (add _ _).bind fun _ => pure _
  · exact (expect h.toPassable .rbracket).bind fun _ => pure _

theorem parameterHead : Composed i V F (parameterHead g) := by
  refine start.bind fun _ => peek.bind fun t => ?_
  split
  · refine (bracketHead h).bind fun head => ?_
    cases head with
    | attributeSpec id => exact (skipNewlines h.toPassable).bind fun _ => pure _
    | type t => exact (add _ _).bind fun _ => (skipNewlines h.toPassable).bind fun _ => pure _
  · exact pure none

theorem parameter : Composed i V F (parameter g) := by
  refine start.bind fun _ => (many h.toPassable (parameterHead h)).bind fun annotations =>
    (bareVariable h.toExcerpting _).bind fun name => (eat h.toPassable .assign).bind fun found => ?_
  split
  · exact (skipNewlines h.toPassable).bind fun _ => (h.expression false).bind fun _ => add _ _
  · exact add _ _

theorem annotationsUpTo (n : Nat) : Composed i V F (annotationsUpTo g n) := by
  induction n with
  | zero => exact stall h.toPassable
  | succ n ih =>
    refine peek.bind fun t => ?_
    split
    · refine (attempt (bracketHead h)).bind fun head => ?_
      split
      · exact (skipNewlines h.toPassable).bind fun _ => ih.bind fun _ => pure _
      · exact pure none
    · exact pure _

theorem annotations : Composed i V F (annotations g) := place.bind fun _ => annotationsUpTo h _

theorem paramBlock? : Composed i V F (paramBlock? g) := by
  refine place_bind fun before hbefore => start.bind fun _ =>
    (speculatively (annotations h)).bind fun found => (atWord _).bind fun named =>
      place.bind fun q => ?_
  split
  · exact (advance h.toPassable).bind fun _ => (skipNewlines h.toPassable).bind fun _ =>
      (expect h.toPassable .lparen).bind fun _ =>
        (untilParen h.toPassable (parameter h)).bind fun _ => (add _ _).bind fun _ => pure _
  · exact (goto hbefore).bind fun _ => pure none

/-! Commands and pipelines. -/

omit h in
theorem bareWord (h : Excerpting i V F) : Composed i V F bareWord :=
  start.bind fun _ => h.bareWordText.bind fun _ => add _ _

theorem operands (start : Nat) : Composed i V F (operands g start) := by
  refine h.unary.bind fun first => peek.bind fun t => ?_
  split
  · exact (afterCommas h.toPassable ((skipNewlines h.toPassable).bind fun _ => h.unary)).bind
      fun others => add _ _
  · exact pure first

theorem commandArgument : Composed i V F (commandArgument g) := by
  refine start.bind fun _ => peek.bind fun t => ?_
  split
  iterate 5 exact bareWord h.toExcerpting
  exact operands h _

theorem commandParameter (dashWord : String) : Composed i V F (commandParameter g dashWord) := by
  refine start.bind fun _ => (advance h.toPassable).bind fun _ => ?_
  dsimp only
  split
  · exact (commandArgument h).bind fun _ => add _ _
  · exact add _ _

theorem commandElement : Composed i V F (commandElement g) := by
  refine peek.bind fun t => ?_
  split
  iterate 6 exact pure none
  · exact (commandParameter h _).bind fun _ => pure _
  · exact (commandArgument h).bind fun _ => pure _

omit h in
theorem invocation? (hV : Passable V F) : Composed i V F invocation? := by
  refine peek.bind fun t => ?_
  split
  · exact (advance hV).bind fun _ => pure _
  · refine place.bind fun q => ?_
    split
    · exact pure none
    · exact (advance hV).bind fun _ => pure _
  · exact pure none

theorem command : Composed i V F (command g) := by
  refine start.bind fun _ => (invocation? h.toPassable).bind fun invocation => ?_
  have hrest (name : NodeId) {start : Nat} : Composed i V F (do
      let others ← Parser.many (Grammar.commandElement g)
      Parser.add (.command invocation (name :: others)) start) :=
    (many h.toPassable (commandElement h)).bind fun _ => add _ _
  split
  · exact (commandArgument h).bind fun name => hrest name
  · exact (bareWord h.toExcerpting).bind fun name => hrest name

omit h in
theorem atCommand (afterPipe : Bool) : Composed i V F (atCommand afterPipe) := by
  refine peek.bind fun t => ?_
  split <;> exact pure _

omit h in
theorem expressionElement (expression : NodeId) :
    Composed i V F (expressionElement expression) :=
  get.bind fun _ => addAt _ _

theorem laterElement : Composed i V F (laterElement g) := by
  refine (skipNewlines h.toPassable).bind fun _ => (atCommand true).bind fun named => ?_
  split
  · exact command h
  · exact (h.expression true).bind fun _ => expressionElement _

theorem pipelineFrom (start : Nat) (first : NodeId) :
    Composed i V F (pipelineFrom g start first) := by
  refine (many h.toPassable ((eat h.toPassable .pipe).bind fun found => ?_)).bind fun others =>
    add _ _
  split
  · exact (laterElement h).bind fun _ => pure _
  · exact pure none

theorem pipeline : Composed i V F (pipeline g) := by
  refine start.bind fun _ => (atCommand false).bind fun named => ?_
  split
  · exact (command h).bind fun _ => pipelineFrom h _ _
  · refine (h.expression true).bind fun expression => peek.bind fun t => ?_
    split
    · exact (advance h.toPassable).bind fun _ => (skipNewlines h.toPassable).bind fun _ =>
        h.statement.bind fun _ => add _ _
    · exact (expressionElement _).bind fun _ => pipelineFrom h _ _

/-! Lists of statements and blocks. -/

theorem terminatedStatement : Composed i V F (terminatedStatement g closer) := by
  refine h.statement.bind fun id => place.bind fun q => ?_
  dsimp only
  split
  iterate 3 exact pure id
  split
  · exact pure id
  · exact unexpected h.toPassable _

theorem listedStatement : Composed i V F (listedStatement g closer) := by
  refine (skipTerminators h.toPassable).bind fun _ => peek.bind fun t => ?_
  split
  · exact pure none
  · exact (orElseKeep (terminatedStatement h) (h.errorStatement closer)).bind fun _ => pure _

theorem statementList : Composed i V F (statementList g closer) :=
  many h.toPassable (listedStatement h)

theorem statementBlock : Composed i V F (statementBlock g) :=
  (skipNewlines h.toPassable).bind fun _ => start.bind fun _ =>
    (expect h.toPassable .lbrace).bind fun _ => (statementList h).bind fun _ =>
      (expect h.toPassable .rbrace).bind fun _ => add _ _

omit h in
theorem addNamedBlock (kind : BlockKind) (unnamed : Bool) (statements : List NodeId)
    (start : Nat) : Composed i V F (addNamedBlock kind unnamed statements start) :=
  get.bind fun _ => add _ _

omit h in
theorem atNamedBlock? : Composed i V F atNamedBlock? := by
  refine place.bind fun q => ?_
  split <;> exact pure _

theorem namedBlock (kind : BlockKind) : Composed i V F (namedBlock g kind) :=
  start.bind fun _ => (advance h.toPassable).bind fun _ =>
    (skipNewlines h.toPassable).bind fun _ => (expect h.toPassable .lbrace).bind fun _ =>
      (statementList h).bind fun _ => (expect h.toPassable .rbrace).bind fun _ =>
        addNamedBlock _ _ _ _

theorem listedNamedBlock : Composed i V F (listedNamedBlock g) := by
  refine atNamedBlock?.bind fun kind => ?_
  split
  · exact (namedBlock h _).bind fun _ => (skipTerminators h.toPassable).bind fun _ => pure _
  · exact pure none

theorem blocks : Composed i V F (blocks g closer) := by
  refine atNamedBlock?.bind fun kind => ?_
  split
  · refine (many h.toPassable (listedNamedBlock h)).bind fun ids => peek.bind fun t => ?_
    split
    · exact pure ids
    · exact unexpected h.toPassable _
  · refine start.bind fun _ => (statementList h).bind fun statements => ?_
    split
    · exact pure []
    · exact (addNamedBlock _ _ _ _).bind fun _ => pure _

theorem scriptBlock : Composed i V F (scriptBlock g closer) := by
  refine start.bind fun _ => (skipTerminators h.toPassable).bind fun _ => ?_
  have hrest (usings : List NodeId) {start : Nat} : Composed i V F (do
      let params ← Grammar.paramBlock? g
      Parser.skipTerminators
      let blocks ← Grammar.blocks g closer
      Parser.add (.scriptBlock usings params blocks) start) :=
    (paramBlock? h).bind fun _ => (skipTerminators h.toPassable).bind fun _ =>
      (blocks h).bind fun _ => add _ _
  split
  · exact (many h.toPassable h.listedUsing).bind fun usings => hrest usings
  · exact (pure _).bind fun usings => hrest usings

end Nested

end Composed

end ScriptInject.Grammar
