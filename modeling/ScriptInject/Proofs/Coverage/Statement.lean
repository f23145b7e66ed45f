import ScriptInject.Grammar.Script
import ScriptInject.Proofs.Coverage.Block
/-! Expressions and statements keep the arena intact, and a statement covers all that it reads. -/
namespace ScriptInject.Grammar

variable {α : Type} {i : Input} {ls : List Lexeme} {g : Nested} {start : Nat}
  {inner operand : Parser NodeId}

namespace Keeps

/-! Expressions. -/

theorem doubleQuoted (body : String) (kind : StringKind) (start : Nat) :
    Keeps i ls (doubleQuoted body kind start) := by
  unfold Grammar.doubleQuoted
  split <;> exact add rfl

theorem trailingUnary (operator : UnaryOperator) (target : NodeId) :
    Keeps i ls (trailingUnary start operator target) := advance.bind fun _ => add rfl

variable (hg : Keeping i ls g)
include hg

theorem paren (start : Nat) : Keeps i ls (paren g start) := by
  refine advance.bind fun _ => skipNewlines.bind fun _ => (pipeline hg).bind fun statement =>
    skipNewlines.bind fun _ => (expect .rparen).bind fun _ => get.bind fun s => ?_
  split
  · exact pure _
  · exact add rfl

theorem statementsInParens : Keeps i ls (statementsInParens g) :=
  advance.bind fun _ => (statementList hg).bind fun _ => (expect .rparen).bind fun _ => pure _

theorem hashtablePair : Keeps i ls (hashtablePair g) := by
  refine skipTerminators.bind fun _ => (eat .rbrace).bind fun found => ?_
  split
  · exact pure none
  · refine peek.bind fun t => ?_
    split
    all_goals
      refine bind ?_ fun key => skipNewlines.bind fun _ => (expect .assign).bind fun _ =>
        skipNewlines.bind fun _ => hg.statement.bind fun value => peek.bind fun t => ?_
      · first | exact bareWord | exact hg.unary
      · split
        iterate 3 exact pure _
        exact unexpected _

theorem hashtable (start : Nat) : Keeps i ls (hashtable g start) :=
  advance.bind fun _ => (many (hashtablePair hg)).bind fun _ => add rfl

theorem scriptBlockExpression (start : Nat) : Keeps i ls (scriptBlockExpression g start) :=
  advance.bind fun _ => (scriptBlock hg).bind fun _ => (expect .rbrace).bind fun _ => add rfl

theorem memberAccess (hp : Keeps i ls inner) (target : NodeId) (isStatic nullConditional : Bool) :
    Keeps i ls (memberAccess g inner start target isStatic nullConditional) := by
  refine advance.bind fun _ => Keeps.start.bind fun _ => peek.bind fun t => ?_
  have hrest (name : NodeId) : Keeps i ls (do
      let p ← Parser.place
      if p.current? = some (.mark .lparen) ∧ p.isAdjacent then
        Parser.advance
        let arguments ← Parser.untilParen (g.expression false)
        Parser.add (.invokeMember target name arguments isStatic nullConditional) start
      else Parser.add (.member target name isStatic nullConditional) start) := by
    refine place.bind fun q => ?_
    split
    · exact advance.bind fun _ => (untilParen (hg.expression false)).bind fun _ => add rfl
    · exact add rfl
  split
  · exact advance.bind fun _ => (add rfl).bind hrest
  · exact hp.bind hrest

theorem indexAccess (target : NodeId) (nullConditional : Bool) :
    Keeps i ls (indexAccess g start target nullConditional) :=
  advance.bind fun _ => skipNewlines.bind fun _ => (hg.expression true).bind fun _ =>
    skipNewlines.bind fun _ => (expect .rbracket).bind fun _ => add rfl

theorem access (hp : Keeps i ls inner) (target : NodeId) :
    Keeps i ls (access g inner start target) := by
  refine place.bind fun q => ?_
  split
  · exact pure none
  · split
    iterate 3 exact (memberAccess hg hp _ _ _).bind fun _ => pure _
    iterate 2 exact (indexAccess hg _ _).bind fun _ => pure _
    iterate 2 exact (trailingUnary _ _).bind fun _ => pure _
    exact pure none

theorem accesses (hp : Keeps i ls inner) (target : NodeId) :
    Keeps i ls (accesses g inner start target) := iterate (fun _ => access hg hp _) _

theorem bracketExpression (hp : Keeps i ls inner) : Keeps i ls (bracketExpression g inner) := by
  refine Keeps.start.bind fun _ => (bracketHead hg).bind fun head => ?_
  split
  · exact hg.unary.bind fun _ => add rfl
  · refine peek.bind fun t => ?_
    split
    · exact (add rfl).bind fun _ => hg.unary.bind fun _ => add rfl
    · exact (add rfl).bind fun _ => accesses hg hp _

theorem primaryUpTo (n : Nat) : Keeps i ls (primaryUpTo g n) := by
  induction n with
  | zero => exact throw _
  | succ n ih =>
    refine Keeps.start.bind fun _ => peek.bind fun t => ?_
    split
    · exact advance.bind fun _ => variableRef _ _
    iterate 4 exact advance.bind fun _ => add rfl
    iterate 2 exact advance.bind fun _ => doubleQuoted _ _ _
    · exact advance.bind fun _ => add rfl
    · exact paren hg _
    iterate 2 exact (statementsInParens hg).bind fun _ => add rfl
    · exact hashtable hg _
    · exact scriptBlockExpression hg _
    · exact bracketExpression hg ih
    · exact unexpected _

theorem primary : Keeps i ls (primary g) := place.bind fun _ => primaryUpTo hg _

theorem unary : Keeps i ls (unary g) := by
  refine Keeps.start.bind fun _ => peek.bind fun t => ?_
  split
  · exact bracketExpression hg (primary hg)
  · split
    · exact advance.bind fun _ => hg.unary.bind fun _ => add rfl
    · exact (primary hg).bind fun _ => accesses hg (primary hg) _

theorem listOrOperand (commas : Bool) : Keeps i ls (listOrOperand g commas) := by
  refine Keeps.start.bind fun _ => ?_
  split
  · refine (eat .comma).bind fun found => ?_
    split
    · exact skipNewlines.bind fun _ => hg.unary.bind fun _ => add rfl
    · exact operands hg _
  · exact hg.unary

omit hg in
theorem binaryStep (h : Keeps i ls operand) (precedence : Nat) (left : NodeId) :
    Keeps i ls (binaryStep operand precedence start left) := by
  refine peek.bind fun t => ?_
  split
  · split
    · exact advance.bind fun _ => skipNewlines.bind fun _ => h.bind fun _ => (add rfl).bind fun _ =>
        pure _
    · exact pure none
  · exact pure none

omit hg in
theorem binary (h : Keeps i ls operand) (levels : Nat) : Keeps i ls (binary operand levels) := by
  induction levels with
  | zero => exact h
  | succ levels ih =>
    exact Keeps.start.bind fun _ => ih.bind fun _ => iterate (fun _ => binaryStep ih _ _) _

theorem ternary (commas : Bool) : Keeps i ls (ternary g commas) := by
  refine Keeps.start.bind fun _ => (binary (listOrOperand hg commas) 7).bind fun condition =>
    (eat .question).bind fun found => ?_
  split
  · exact skipNewlines.bind fun _ => (hg.expression commas).bind fun _ => skipNewlines.bind fun _ =>
      (expect .colon).bind fun _ => skipNewlines.bind fun _ => (hg.expression commas).bind fun _ =>
        add rfl
  · exact pure _

/-! Statements. -/

omit hg in
theorem label? : Keeps i ls label? := by
  refine place.bind fun q => ?_
  split
  · split
    · exact (advanceBy 2).bind fun _ => pure _
    · exact pure none
  · exact pure none

omit hg in
theorem jumpLabel? : Keeps i ls jumpLabel? := by
  refine peek.bind fun t => ?_
  split
  · exact advance.bind fun _ => pure _
  · exact pure none

theorem optionalPipeline : Keeps i ls (optionalPipeline g) := by
  refine peek.bind fun t => ?_
  split
  iterate 5 exact pure none
  exact (pipeline hg).bind fun _ => pure _

theorem condition : Keeps i ls (condition g) :=
  skipNewlines.bind fun _ => (expect .lparen).bind fun _ => skipNewlines.bind fun _ =>
    (pipeline hg).bind fun _ => skipNewlines.bind fun _ => (expect .rparen).bind fun _ => pure _

theorem clause : Keeps i ls (clause g) :=
  (condition hg).bind fun _ => (statementBlock hg).bind fun _ => pure _

omit hg in
theorem afterWord? {keyword : String} {p : Parser α} (hp : Keeps i ls p) :
    Keeps i ls (afterWord? keyword p) := by
  refine place_bind fun before hbefore => skipNewlines.bind fun _ => (atWord _).bind fun found => ?_
  split
  · exact hp.bind fun _ => pure _
  · exact (goto hbefore).bind fun _ => pure none

theorem ifStatement : Keeps i ls (ifStatement g start) :=
  advance.bind fun _ => (clause hg).bind fun _ =>
    (many (afterWord? (advance.bind fun _ => clause hg))).bind fun _ =>
      (afterWord? (advance.bind fun _ => statementBlock hg)).bind fun _ => add rfl

theorem whileLoop (label : Option String) : Keeps i ls (whileLoop g label start) :=
  advance.bind fun _ => (clause hg).bind fun _ => add rfl

theorem doLoop (label : Option String) : Keeps i ls (doLoop g label start) := by
  refine advance.bind fun _ => (statementBlock hg).bind fun _ => skipNewlines.bind fun _ =>
    (atWord _).bind fun found => ?_
  split
  · exact advance.bind fun _ => (condition hg).bind fun _ => add rfl
  · refine (atWord _).bind fun found => ?_
    split
    · exact advance.bind fun _ => (condition hg).bind fun _ => add rfl
    · exact unexpected _

theorem forPart (stop : Mark) : Keeps i ls (forPart g stop) := by
  refine skipNewlines.bind fun _ => peek.bind fun t => ?_
  split
  · exact (pure _).bind fun _ => skipNewlines.bind fun _ => (expect _).bind fun _ => pure _
  · exact (pipeline hg).map.bind fun _ => skipNewlines.bind fun _ => (expect _).bind fun _ => pure _

theorem forLoop (label : Option String) : Keeps i ls (forLoop g label start) :=
  advance.bind fun _ => skipNewlines.bind fun _ => (expect .lparen).bind fun _ =>
    (forPart hg _).bind fun _ => (forPart hg _).bind fun _ => (forPart hg _).bind fun _ =>
      (statementBlock hg).bind fun _ => add rfl

theorem forEach (label : Option String) : Keeps i ls (forEach g label start) := by
  refine advance.bind fun _ => skipNewlines.bind fun _ => (expect .lparen).bind fun _ =>
    skipNewlines.bind fun _ => (bareVariable _).bind fun _ => skipNewlines.bind fun _ =>
      (atWord _).bind fun found => ?_
  split
  · exact advance.bind fun _ => skipNewlines.bind fun _ => (pipeline hg).bind fun _ =>
      skipNewlines.bind fun _ => (expect .rparen).bind fun _ => (statementBlock hg).bind fun _ => add rfl
  · exact unexpected _

omit hg in
theorem caughtTypesUpTo (n : Nat) : Keeps i ls (caughtTypesUpTo n) := by
  induction n with
  | zero => exact throw _
  | succ n ih =>
    refine peek.bind fun t => ?_
    split
    · refine typeConstraint.bind fun type => skipNewlines.bind fun _ => (eat .comma).bind fun found => ?_
      split
      · exact skipNewlines.bind fun _ => ih.bind fun _ => pure _
      · exact pure _
    · exact pure _

theorem catchClause : Keeps i ls (catchClause g) :=
  Keeps.start.bind fun _ => advance.bind fun _ =>
    (place.bind fun _ => caughtTypesUpTo _).bind fun _ => (statementBlock hg).bind fun _ => add rfl

theorem tryStatement : Keeps i ls (tryStatement g start) := by
  refine advance.bind fun _ => (statementBlock hg).bind fun _ =>
    (many (afterWord? (catchClause hg))).bind fun _ =>
      (afterWord? (advance.bind fun _ => statementBlock hg)).bind fun _ => ?_
  split
  · exact refuse _
  · exact add rfl

theorem trap : Keeps i ls (trap g start) := by
  refine advance.bind fun _ => peek.bind fun t => ?_
  split
  · exact typeConstraint.map.bind fun _ => (statementBlock hg).bind fun _ => add rfl
  · exact (pure _).bind fun _ => (statementBlock hg).bind fun _ => add rfl

theorem functionDefinition (isFilter : Bool) : Keeps i ls (functionDefinition g isFilter start) := by
  refine advance.bind fun _ => peek.bind fun t => ?_
  split
  · refine bareWordText.bind fun name => (eat .lparen).bind fun found => ?_
    have hrest (parameters : List NodeId) : Keeps i ls (do
        Parser.skipNewlines
        Parser.expect .lbrace
        let body ← Grammar.scriptBlock g .brace
        Parser.expect .rbrace
        Parser.add (.functionDefinition name isFilter parameters body) start) :=
      skipNewlines.bind fun _ => (expect .lbrace).bind fun _ => (scriptBlock hg).bind fun _ =>
        (expect .rbrace).bind fun _ => add rfl
    split
    · exact (untilParen (parameter hg)).bind hrest
    · exact (pure _).bind hrest
  · exact unexpected _

theorem loopRule? {keyword : String} {next : Option Token} {label : Option String}
    {rule : Parser NodeId} (h : loopRule? g keyword next label start = some rule) :
    Keeps i ls rule := by
  unfold Grammar.loopRule? at h
  split at h
  · exact Option.some.inj h ▸ whileLoop hg label
  · exact Option.some.inj h ▸ doLoop hg label
  · exact Option.some.inj h ▸ forLoop hg label
  · split at h
    · exact Option.some.inj h ▸ forEach hg label
    · cases h
  · cases h

theorem statementRule? {keyword : String} {rule : Parser NodeId}
    (h : statementRule? g keyword start = some rule) : Keeps i ls rule := by
  unfold Grammar.statementRule? at h
  split at h
  · exact Option.some.inj h ▸ functionDefinition hg false
  · exact Option.some.inj h ▸ functionDefinition hg true
  · exact Option.some.inj h ▸ ifStatement hg
  · exact Option.some.inj h ▸ tryStatement hg
  · exact Option.some.inj h ▸ trap hg
  iterate 2
    · exact Option.some.inj h ▸ advance.bind fun _ => (optionalPipeline hg).bind fun _ => add rfl
  iterate 2
    · exact Option.some.inj h ▸ advance.bind fun _ => jumpLabel?.bind fun _ => add rfl
  · cases h

theorem statement : Keeps i ls (statement g) := by
  refine Keeps.start.bind fun _ => label?.bind fun label => place.bind fun q => ?_
  dsimp only
  split
  · rename_i rule hrule
    obtain ⟨keyword, -, hrule⟩ := Option.bind_eq_some_iff.mp hrule
    exact loopRule? hg hrule
  · split
    · exact refuse _
    · split
      · rename_i rule hrule
        obtain ⟨keyword, -, hrule⟩ := Option.bind_eq_some_iff.mp hrule
        exact statementRule? hg hrule
      · exact pipeline hg

end Keeps

namespace Ends

/-! The last node that a statement adds is its own. -/

variable (g)

theorem pipelineFrom (first : NodeId) : Ends i start (pipelineFrom g start first) := bind fun _ => add

theorem ifStatement : Ends i start (ifStatement g start) :=
  bind fun _ => bind fun _ => bind fun _ => bind fun _ => add

theorem whileLoop (label : Option String) : Ends i start (whileLoop g label start) :=
  bind fun _ => bind fun _ => add

theorem doLoop (label : Option String) : Ends i start (doLoop g label start) := by
  refine bind fun _ => bind fun _ => bind fun _ => bind fun found => ?_
  split
  · exact bind fun _ => bind fun _ => add
  · refine bind fun found => ?_
    split
    · exact bind fun _ => bind fun _ => add
    · exact unexpected

theorem forLoop (label : Option String) : Ends i start (forLoop g label start) :=
  bind fun _ => bind fun _ => bind fun _ => bind fun _ => bind fun _ => bind fun _ => bind fun _ => add

theorem forEach (label : Option String) : Ends i start (forEach g label start) := by
  refine bind fun _ => bind fun _ => bind fun _ => bind fun _ => bind fun _ => bind fun _ =>
    bind fun found => ?_
  split
  · exact bind fun _ => bind fun _ => bind fun _ => bind fun _ => bind fun _ => bind fun _ => add
  · exact unexpected

theorem tryStatement : Ends i start (tryStatement g start) := by
  refine bind fun _ => bind fun _ => bind fun _ => bind fun _ => ?_
  split
  · exact refuse
  · exact add

theorem trap : Ends i start (trap g start) := by
  refine bind fun _ => bind fun t => ?_
  split <;> exact bind fun _ => bind fun _ => add

theorem functionDefinition (isFilter : Bool) : Ends i start (functionDefinition g isFilter start) := by
  refine bind fun _ => bind fun t => ?_
  split
  · refine bind fun _ => bind fun found => ?_
    split <;> exact bind fun _ => bind fun _ => bind fun _ => bind fun _ => bind fun _ => add
  · exact unexpected

variable {g}

theorem loopRule? {keyword : String} {next : Option Token} {label : Option String}
    {rule : Parser NodeId} (h : loopRule? g keyword next label start = some rule) :
    Ends i start rule := by
  unfold Grammar.loopRule? at h
  split at h
  · exact Option.some.inj h ▸ whileLoop g label
  · exact Option.some.inj h ▸ doLoop g label
  · exact Option.some.inj h ▸ forLoop g label
  · split at h
    · exact Option.some.inj h ▸ forEach g label
    · cases h
  · cases h

theorem statementRule? {keyword : String} {rule : Parser NodeId}
    (h : statementRule? g keyword start = some rule) : Ends i start rule := by
  unfold Grammar.statementRule? at h
  split at h
  · exact Option.some.inj h ▸ functionDefinition g false
  · exact Option.some.inj h ▸ functionDefinition g true
  · exact Option.some.inj h ▸ ifStatement g
  · exact Option.some.inj h ▸ tryStatement g
  · exact Option.some.inj h ▸ trap g
  iterate 4 exact Option.some.inj h ▸ bind fun _ => bind fun _ => add
  cases h

end Ends

namespace Spans

theorem pipeline : Spans i (pipeline g) := by
  refine of_ends fun start => .bind fun named => ?_
  split
  · exact .bind fun _ => .pipelineFrom g _
  · refine .bind fun _ => .bind fun t => ?_
    split
    · exact .bind fun _ => .bind fun _ => .bind fun _ => .add
    · exact .bind fun _ => .pipelineFrom g _

/-- A pipeline starts where its statement does, for it has no label. -/
theorem statement : Spans i (statement g) := by
  intro s
  rw [Grammar.statement, Outcome.start_bind]
  have hlabel : Outcome Grammar.label? i s (fun _ _ => True) fun label t =>
      label = none → t.place = s.place := by
    rw [Grammar.label?, Outcome.place_bind]
    split
    · split
      · rw [Outcome.advanceBy_bind]
        exact fun h => by cases h
      · exact fun _ => rfl
    · exact fun _ => rfl
  refine hlabel.bind fun label t ht => ?_
  rw [Outcome.place_bind]
  dsimp only
  split
  · rename_i rule hrule
    obtain ⟨keyword, -, hrule⟩ := Option.bind_eq_some_iff.mp hrule
    exact Ends.loopRule? hrule t
  · split
    · trivial
    · rename_i hnone
      split
      · rename_i rule hrule
        obtain ⟨keyword, -, hrule⟩ := Option.bind_eq_some_iff.mp hrule
        exact Ends.statementRule? hrule t
      · rw [← ht (by simpa using hnone)]
        exact pipeline t

theorem guarded {p : Parser NodeId} (h : Spans i p) : Spans i (Parser.guarded p) := by
  intro s
  rw [Outcome, Parser.guarded]
  by_cases hd : i.maxDepth ≤ s.depth
  · simp only [hd, if_true]
  · simp only [hd, if_false]
    have hrun := h { s with depth := s.depth + 1 }
    rw [Outcome] at hrun
    cases hr : p i { s with depth := s.depth + 1 } with
    | ok a t | error f t =>
      rw [hr] at hrun
      exact hrun

end Spans

/-- At every depth the rules keep the arena intact. -/
theorem keeping_nested (hsolid : ∀ l ∈ ls, l.span.start < l.span.stop) (n : Nat) :
    Keeping i ls (nested n) := by
  induction n with
  | zero =>
    have hnone : Keeps i ls (Parser.guarded (throw .stalled : Parser NodeId)) :=
      .guarded (.throw _)
    have hspans : Spans i (throw .stalled : Parser NodeId) := fun _ => trivial
    exact ⟨hsolid, hnone, fun _ => hnone, hnone, hspans.guarded⟩
  | succ n ih =>
    exact
      { solid := hsolid
        statement := .guarded (.statement ih)
        expression := fun commas => .guarded (.ternary ih commas)
        unary := .guarded (.unary ih)
        spans := .guarded .statement }

end ScriptInject.Grammar
