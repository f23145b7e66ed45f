import ScriptInject.Grammar.Command
import ScriptInject.Proofs.Coverage.Steps
import ScriptInject.Proofs.Reading.TypeName
/-! Types, annotations, parameters and commands keep the arena intact. -/
namespace ScriptInject.Grammar

variable {i : Input} {ls : List Lexeme} {s t : State} {g : Nested}

/-- From wherever a run starts, its node covers all that the run has read. -/
def Spans (i : Input) (p : Parser NodeId) : Prop :=
  ∀ s, Outcome p i s (fun _ _ => True) fun id t =>
    t.arena.span? id = some ⟨s.place.start i.text, max t.place.stop (s.place.start i.text)⟩

/-- The rules that contain themselves keep the arena intact, and a statement covers its tokens, none
of which is empty. -/
structure Keeping (i : Input) (ls : List Lexeme) (g : Nested) : Prop where
  solid : ∀ l ∈ ls, l.span.start < l.span.stop
  statement : Keeps i ls g.statement
  expression : ∀ commas, Keeps i ls (g.expression commas)
  unary : Keeps i ls g.unary
  spans : Spans i g.statement

theorem Held.moves (hs : Held i ls s) (h : s.Moves t) : Preserves i ls s t := by
  obtain ⟨n, rfl⟩ := h
  exact hs.preserves.goto (hs.along.advanceBy n).1

namespace Keeps

/-! Types. -/

theorem of_moves {α : Type} {p : Parser α} {P : State → α → Prop}
    (h : ∀ s, Outcome p i s (fun _ => s.Moves) (Gets s (P s))) : Keeps i ls p :=
  fun s hs => (h s).mono (fun _ _ hu => hs.moves hu) fun _ _ hu => hs.moves hu.1

theorem typeName : Keeps i ls typeName := of_moves fun _ => typeName_moves

theorem typeArgument (n : Nat) : Keeps i ls (typeArgument (typeNameUpTo n)) :=
  of_moves fun s => typeArgument_moves typeNameUpTo_moves (.refl s)

theorem typeBracket (n : Nat) (t : TypeName × Nat) : Keeps i ls (typeBracket (typeNameUpTo n) t) :=
  of_moves fun s => typeBracket_moves typeNameUpTo_moves (.refl s)

theorem typeConstraint : Keeps i ls typeConstraint :=
  start.bind fun _ => (expect .lbracket).bind fun _ => typeName.bind fun _ =>
    (expect .rbracket).bind fun _ => add rfl

/-! Variables, annotations and parameters. -/

theorem variableRef (path : String) (start : Nat) : Keeps i ls (variableRef path start) := by
  unfold Grammar.variableRef
  dsimp only
  split
  · split
    · exact throw _
    · split
      · exact (add rfl).bind fun target => add rfl
      · exact add rfl
  · exact add rfl

theorem bareVariable (expected : String) : Keeps i ls (bareVariable expected) := by
  refine start.bind fun _ => peek.bind fun t => ?_
  split
  · exact advance.bind fun _ => variableRef _ _
  · exact unexpected _

variable (hg : Keeping i ls g)
include hg

theorem annotationArgument : Keeps i ls (annotationArgument g) := by
  refine start.bind fun _ => peek.bind fun t => peekNext.bind fun u => ?_
  have hlone {name : String} {start : Nat} : Keeps i ls (do
      Parser.advance
      return Argument.named (← Parser.add (.namedArgument name none) start)) :=
    advance.bind fun _ => (add rfl).bind fun _ => pure _
  split
  · exact (advanceBy 2).bind fun _ => skipNewlines.bind fun _ => (hg.expression false).bind
      fun value => (add rfl).bind fun _ => pure _
  iterate 3 exact hlone
  exact (hg.expression false).bind fun _ => pure _

theorem bracketHead : Keeps i ls (bracketHead g) := by
  refine start.bind fun _ => (expect .lbracket).bind fun _ => typeName.bind fun t =>
    (eat .lparen).bind fun found => ?_
  split
  · exact (untilParen (annotationArgument hg)).bind fun _ => (expect .rbracket).bind fun _ =>
      (add rfl).bind fun _ => pure _
  · exact (expect .rbracket).bind fun _ => pure _

theorem parameterHead : Keeps i ls (parameterHead g) := by
  refine start.bind fun _ => peek.bind fun t => ?_
  split
  · refine (bracketHead hg).bind fun head => ?_
    cases head with
    | attributeSpec id => exact skipNewlines.bind fun _ => pure _
    | type t => exact (add rfl).bind fun _ => skipNewlines.bind fun _ => pure _
  · exact pure none

theorem parameter : Keeps i ls (parameter g) := by
  refine start.bind fun _ => (many (parameterHead hg)).bind fun annotations =>
    (bareVariable _).bind fun name => (eat .assign).bind fun found => ?_
  split
  · exact skipNewlines.bind fun _ => (hg.expression false).bind fun _ => add rfl
  · exact add rfl

theorem annotationsUpTo (n : Nat) : Keeps i ls (annotationsUpTo g n) := by
  induction n with
  | zero => exact throw _
  | succ n ih =>
    refine peek.bind fun t => ?_
    split
    · refine (attempt (bracketHead hg)).bind fun head => ?_
      split
      · exact skipNewlines.bind fun _ => ih.bind fun _ => pure _
      · exact pure none
    · exact pure _

theorem annotations : Keeps i ls (annotations g) := place.bind fun _ => annotationsUpTo hg _

theorem paramBlock? : Keeps i ls (paramBlock? g) := by
  refine place_bind fun before hbefore => start.bind fun _ =>
    (speculatively (annotations hg)).bind fun found => (atWord _).bind fun named =>
      place.bind fun q => ?_
  split
  · exact advance.bind fun _ => skipNewlines.bind fun _ => (expect .lparen).bind fun _ =>
      (untilParen (parameter hg)).bind fun _ => (add rfl).bind fun _ => pure _
  · exact (goto hbefore).bind fun _ => pure none

/-! Commands and pipelines. -/

omit hg in
theorem bareWordText : Keeps i ls bareWordText := by
  refine place.bind fun q => ?_
  split
  · exact pure _
  · exact (advanceBy _).bind fun _ => slice _ _

omit hg in
theorem bareWord : Keeps i ls bareWord :=
  start.bind fun _ => bareWordText.bind fun _ => add rfl

theorem operands (start : Nat) : Keeps i ls (operands g start) := by
  refine hg.unary.bind fun first => peek.bind fun t => ?_
  split
  · exact (afterCommas (skipNewlines.bind fun _ => hg.unary)).bind fun others =>
      add rfl
  · exact pure first

theorem commandArgument : Keeps i ls (commandArgument g) := by
  refine start.bind fun _ => peek.bind fun t => ?_
  split
  iterate 5 exact bareWord
  exact operands hg _

theorem commandParameter (dashWord : String) : Keeps i ls (commandParameter g dashWord) := by
  refine start.bind fun _ => advance.bind fun _ => ?_
  dsimp only
  split
  · exact (commandArgument hg).bind fun _ => add rfl
  · exact add rfl

theorem commandElement : Keeps i ls (commandElement g) := by
  refine peek.bind fun t => ?_
  split
  iterate 6 exact pure none
  · exact (commandParameter hg _).bind fun _ => pure _
  · exact (commandArgument hg).bind fun _ => pure _

omit hg in
theorem invocation? : Keeps i ls invocation? := by
  refine peek.bind fun t => ?_
  split
  · exact advance.bind fun _ => pure _
  · refine place.bind fun q => ?_
    split
    · exact pure none
    · exact advance.bind fun _ => pure _
  · exact pure none

theorem command : Keeps i ls (command g) := by
  refine start.bind fun _ => invocation?.bind fun invocation => ?_
  split
  · exact (commandArgument hg).bind fun _ => (many (commandElement hg)).bind fun _ =>
      add rfl
  · exact bareWord.bind fun _ => (many (commandElement hg)).bind fun _ => add rfl

omit hg in
theorem atCommand (afterPipe : Bool) : Keeps i ls (atCommand afterPipe) := by
  refine peek.bind fun t => ?_
  split <;> exact pure _

omit hg in
theorem expressionElement (expression : NodeId) : Keeps i ls (expressionElement expression) :=
  get.bind fun _ => addAt fun _ => trivial

theorem laterElement : Keeps i ls (laterElement g) := by
  refine skipNewlines.bind fun _ => (atCommand true).bind fun named => ?_
  split
  · exact command hg
  · exact (hg.expression true).bind fun _ => expressionElement _

theorem pipelineFrom (start : Nat) (first : NodeId) : Keeps i ls (pipelineFrom g start first) := by
  refine (many ((eat .pipe).bind fun found => ?_)).bind fun others => add rfl
  split
  · exact (laterElement hg).bind fun _ => pure _
  · exact pure none

theorem pipeline : Keeps i ls (pipeline g) := by
  refine start.bind fun _ => (atCommand false).bind fun named => ?_
  split
  · exact (command hg).bind fun _ => pipelineFrom hg _ _
  · refine (hg.expression true).bind fun expression => peek.bind fun t => ?_
    split
    · exact advance.bind fun _ => skipNewlines.bind fun _ => hg.statement.bind fun _ =>
        add rfl
    · exact (expressionElement _).bind fun _ => pipelineFrom hg _ _

end Keeps

end ScriptInject.Grammar
