import ScriptInject.Grammar.Script
import ScriptInject.Proofs.Composing.Block
/-! Expressions, statements and whole scripts are put together from steps. -/
namespace ScriptInject.Grammar

variable {α : Type} {i : Input} {V : Place → Prop} {F : Failure → Prop} {g : Nested}
  {start : Nat} {inner operand : Parser NodeId}

namespace Composed

/-! Expressions. -/

theorem doubleQuoted (body : String) (kind : StringKind) (start : Nat) :
    Composed i V F (doubleQuoted body kind start) := by
  unfold Grammar.doubleQuoted
  split <;> exact add _ _

theorem trailingUnary (hV : Passable V F) (operator : UnaryOperator) (target : NodeId) :
    Composed i V F (trailingUnary start operator target) := (advance hV).bind fun _ => add _ _

section Nested

variable (h : Composing i V F g)
include h

theorem paren (start : Nat) : Composed i V F (paren g start) := by
  refine (advance h.toPassable).bind fun _ => (skipNewlines h.toPassable).bind fun _ =>
    (pipeline h).bind fun statement => (skipNewlines h.toPassable).bind fun _ =>
      (expect h.toPassable .rparen).bind fun _ => get.bind fun s => ?_
  split
  · exact pure _
  · exact add _ _

theorem statementsInParens : Composed i V F (statementsInParens g) :=
  (advance h.toPassable).bind fun _ => (statementList h).bind fun _ =>
    (expect h.toPassable .rparen).bind fun _ => pure _

theorem hashtablePair : Composed i V F (hashtablePair g) := by
  refine (skipTerminators h.toPassable).bind fun _ =>
    (eat h.toPassable .rbrace).bind fun found => ?_
  split
  · exact pure none
  · refine peek.bind fun t => ?_
    split
    case' h_1 => refine (bareWord h.toExcerpting).bind fun key => ?_
    case' h_2 => refine h.unary.bind fun key => ?_
    -- whatever the key is, its value follows
    all_goals
      refine (skipNewlines h.toPassable).bind fun _ => (expect h.toPassable .assign).bind fun _ =>
        (skipNewlines h.toPassable).bind fun _ => h.statement.bind fun value =>
          peek.bind fun t => ?_
      split
      iterate 3 exact pure _
      exact unexpected h.toPassable _

theorem hashtable (start : Nat) : Composed i V F (hashtable g start) :=
  (advance h.toPassable).bind fun _ => (many h.toPassable (hashtablePair h)).bind fun _ => add _ _

theorem scriptBlockExpression (start : Nat) : Composed i V F (scriptBlockExpression g start) :=
  (advance h.toPassable).bind fun _ => (scriptBlock h).bind fun _ =>
    (expect h.toPassable .rbrace).bind fun _ => add _ _

theorem memberAccess (hp : Composed i V F inner) (target : NodeId)
    (isStatic nullConditional : Bool) :
    Composed i V F (memberAccess g inner start target isStatic nullConditional) := by
  refine (advance h.toPassable).bind fun _ => Composed.start.bind fun _ => peek.bind fun t => ?_
  have hrest (name : NodeId) : Composed i V F (do
      let p ← Parser.place
      if p.current? = some (.mark .lparen) ∧ p.isAdjacent then
        Parser.advance
        let arguments ← Parser.untilParen (g.expression false)
        Parser.add (.invokeMember target name arguments isStatic nullConditional) start
      else Parser.add (.member target name isStatic nullConditional) start) := by
    refine place.bind fun q => ?_
    split
    · exact (advance h.toPassable).bind fun _ =>
        (untilParen h.toPassable (h.expression false)).bind fun _ => add _ _
    · exact add _ _
  split
  · exact (advance h.toPassable).bind fun _ => (add _ _).bind hrest
  · exact hp.bind hrest

theorem indexAccess (target : NodeId) (nullConditional : Bool) :
    Composed i V F (indexAccess g start target nullConditional) :=
  (advance h.toPassable).bind fun _ => (skipNewlines h.toPassable).bind fun _ =>
    (h.expression true).bind fun _ => (skipNewlines h.toPassable).bind fun _ =>
      (expect h.toPassable .rbracket).bind fun _ => add _ _

theorem access (hp : Composed i V F inner) (target : NodeId) :
    Composed i V F (access g inner start target) := by
  refine place.bind fun q => ?_
  split
  · exact pure none
  · split
    iterate 3 exact (memberAccess h hp _ _ _).bind fun _ => pure _
    iterate 2 exact (indexAccess h _ _).bind fun _ => pure _
    iterate 2 exact (trailingUnary h.toPassable _ _).bind fun _ => pure _
    exact pure none

theorem accesses (hp : Composed i V F inner) (target : NodeId) :
    Composed i V F (accesses g inner start target) :=
  iterate h.toPassable (fun _ => access h hp _) _

theorem bracketExpression (hp : Composed i V F inner) :
    Composed i V F (bracketExpression g inner) := by
  refine Composed.start.bind fun _ => (bracketHead h).bind fun head => ?_
  split
  · exact h.unary.bind fun _ => add _ _
  · refine peek.bind fun t => ?_
    split
    · exact (add _ _).bind fun _ => h.unary.bind fun _ => add _ _
    · exact (add _ _).bind fun _ => accesses h hp _

theorem primaryUpTo (n : Nat) : Composed i V F (primaryUpTo g n) := by
  induction n with
  | zero => exact stall h.toPassable
  | succ n ih =>
    refine Composed.start.bind fun _ => peek_bind fun q hq => ?_
    split
    · rename_i path hpath
      exact (advance h.toPassable).bind fun _ => h.variableRef q path _ hq hpath
    iterate 4 exact (advance h.toPassable).bind fun _ => add _ _
    iterate 2 exact (advance h.toPassable).bind fun _ => doubleQuoted _ _ _
    · exact (advance h.toPassable).bind fun _ => add _ _
    · exact paren h _
    iterate 2 exact (statementsInParens h).bind fun _ => add _ _
    · exact hashtable h _
    · exact scriptBlockExpression h _
    · exact bracketExpression h ih
    · exact unexpected h.toPassable _

theorem primary : Composed i V F (primary g) := place.bind fun _ => primaryUpTo h _

theorem unary : Composed i V F (unary g) := by
  refine Composed.start.bind fun _ => peek.bind fun t => ?_
  split
  · exact bracketExpression h (primary h)
  · split
    · exact (advance h.toPassable).bind fun _ => h.unary.bind fun _ => add _ _
    · exact (primary h).bind fun _ => accesses h (primary h) _

theorem listOrOperand (commas : Bool) : Composed i V F (listOrOperand g commas) := by
  refine Composed.start.bind fun _ => ?_
  split
  · refine (eat h.toPassable .comma).bind fun found => ?_
    split
    · exact (skipNewlines h.toPassable).bind fun _ => h.unary.bind fun _ => add _ _
    · exact operands h _
  · exact h.unary

omit h in
theorem binaryStep (hV : Passable V F) (hp : Composed i V F operand) (precedence : Nat)
    (left : NodeId) : Composed i V F (binaryStep operand precedence start left) := by
  refine peek.bind fun t => ?_
  split
  · split
    · exact (advance hV).bind fun _ => (skipNewlines hV).bind fun _ => hp.bind fun _ =>
        (add _ _).bind fun _ => pure _
    · exact pure none
  · exact pure none

omit h in
theorem binary (hV : Passable V F) (hp : Composed i V F operand) (levels : Nat) :
    Composed i V F (binary operand levels) := by
  induction levels with
  | zero => exact hp
  | succ levels ih =>
    exact Composed.start.bind fun _ => ih.bind fun _ =>
      iterate hV (fun _ => binaryStep hV ih _ _) _

theorem ternary (commas : Bool) : Composed i V F (ternary g commas) := by
  refine Composed.start.bind fun _ =>
    (binary h.toPassable (listOrOperand h commas) 7).bind fun condition =>
      (eat h.toPassable .question).bind fun found => ?_
  split
  · exact (skipNewlines h.toPassable).bind fun _ => (h.expression commas).bind fun _ =>
      (skipNewlines h.toPassable).bind fun _ => (expect h.toPassable .colon).bind fun _ =>
        (skipNewlines h.toPassable).bind fun _ => (h.expression commas).bind fun _ => add _ _
  · exact pure _

/-! Statements. -/

omit h in
theorem label? (hV : Passable V F) : Composed i V F label? := by
  refine place.bind fun q => ?_
  split
  · split
    · exact (advanceBy hV 2).bind fun _ => pure _
    · exact pure none
  · exact pure none

omit h in
theorem jumpLabel? (hV : Passable V F) : Composed i V F jumpLabel? := by
  refine peek.bind fun t => ?_
  split
  · exact (advance hV).bind fun _ => pure _
  · exact pure none

theorem optionalPipeline : Composed i V F (optionalPipeline g) := by
  refine peek.bind fun t => ?_
  split
  iterate 5 exact pure none
  exact (pipeline h).bind fun _ => pure _

theorem condition : Composed i V F (condition g) :=
  (skipNewlines h.toPassable).bind fun _ => (expect h.toPassable .lparen).bind fun _ =>
    (skipNewlines h.toPassable).bind fun _ => (pipeline h).bind fun _ =>
      (skipNewlines h.toPassable).bind fun _ => (expect h.toPassable .rparen).bind fun _ => pure _

theorem clause : Composed i V F (clause g) :=
  (condition h).bind fun _ => (statementBlock h).bind fun _ => pure _

omit h in
theorem afterWord? (hV : Passable V F) {keyword : String} {p : Parser α}
    (hp : Composed i V F p) : Composed i V F (afterWord? keyword p) := by
  refine place_bind fun before hbefore => (skipNewlines hV).bind fun _ =>
    (atWord _).bind fun found => ?_
  split
  · exact hp.bind fun _ => pure _
  · exact (goto hbefore).bind fun _ => pure none

theorem ifStatement : Composed i V F (ifStatement g start) :=
  (advance h.toPassable).bind fun _ => (clause h).bind fun _ =>
    (many h.toPassable (afterWord? h.toPassable
      ((advance h.toPassable).bind fun _ => clause h))).bind fun _ =>
        (afterWord? h.toPassable ((advance h.toPassable).bind fun _ => statementBlock h)).bind
          fun _ => add _ _

theorem whileLoop (label : Option String) : Composed i V F (whileLoop g label start) :=
  (advance h.toPassable).bind fun _ => (clause h).bind fun _ => add _ _

theorem doLoop (label : Option String) : Composed i V F (doLoop g label start) := by
  refine (advance h.toPassable).bind fun _ => (statementBlock h).bind fun _ =>
    (skipNewlines h.toPassable).bind fun _ => (atWord _).bind fun found => ?_
  split
  · exact (advance h.toPassable).bind fun _ => (condition h).bind fun _ => add _ _
  · refine (atWord _).bind fun found => ?_
    split
    · exact (advance h.toPassable).bind fun _ => (condition h).bind fun _ => add _ _
    · exact unexpected h.toPassable _

theorem forPart (stop : Mark) : Composed i V F (forPart g stop) := by
  refine (skipNewlines h.toPassable).bind fun _ => peek.bind fun t => ?_
  have hrest (part : Option NodeId) : Composed i V F (do
      Parser.skipNewlines
      Parser.expect stop
      return part) :=
    (skipNewlines h.toPassable).bind fun _ => (expect h.toPassable _).bind fun _ => pure _
  split
  · exact (pure _).bind hrest
  · exact (pipeline h).map.bind hrest

theorem forLoop (label : Option String) : Composed i V F (forLoop g label start) :=
  (advance h.toPassable).bind fun _ => (skipNewlines h.toPassable).bind fun _ =>
    (expect h.toPassable .lparen).bind fun _ => (forPart h _).bind fun _ =>
      (forPart h _).bind fun _ => (forPart h _).bind fun _ => (statementBlock h).bind fun _ =>
        add _ _

theorem forEach (label : Option String) : Composed i V F (forEach g label start) := by
  refine (advance h.toPassable).bind fun _ => (skipNewlines h.toPassable).bind fun _ =>
    (expect h.toPassable .lparen).bind fun _ => (skipNewlines h.toPassable).bind fun _ =>
      (bareVariable h.toExcerpting _).bind fun _ => (skipNewlines h.toPassable).bind fun _ =>
        (atWord _).bind fun found => ?_
  split
  · exact (advance h.toPassable).bind fun _ => (skipNewlines h.toPassable).bind fun _ =>
      (pipeline h).bind fun _ => (skipNewlines h.toPassable).bind fun _ =>
        (expect h.toPassable .rparen).bind fun _ => (statementBlock h).bind fun _ => add _ _
  · exact unexpected h.toPassable _

omit h in
theorem caughtTypesUpTo (hV : Passable V F) (n : Nat) : Composed i V F (caughtTypesUpTo n) := by
  induction n with
  | zero => exact stall hV
  | succ n ih =>
    refine peek.bind fun t => ?_
    split
    · refine (typeConstraint hV).bind fun type => (skipNewlines hV).bind fun _ =>
        (eat hV .comma).bind fun found => ?_
      split
      · exact (skipNewlines hV).bind fun _ => ih.bind fun _ => pure _
      · exact pure _
    · exact pure _

omit h in
theorem caughtTypes (hV : Passable V F) : Composed i V F caughtTypes :=
  place.bind fun _ => caughtTypesUpTo hV _

theorem catchClause : Composed i V F (catchClause g) :=
  Composed.start.bind fun _ => (advance h.toPassable).bind fun _ =>
    (caughtTypes h.toPassable).bind fun _ => (statementBlock h).bind fun _ => add _ _

theorem tryStatement : Composed i V F (tryStatement g start) := by
  refine (advance h.toPassable).bind fun _ => (statementBlock h).bind fun _ =>
    (many h.toPassable (afterWord? h.toPassable (catchClause h))).bind fun _ =>
      (afterWord? h.toPassable ((advance h.toPassable).bind fun _ => statementBlock h)).bind
        fun _ => ?_
  split
  · exact refuse h.toPassable _
  · exact add _ _

theorem trap : Composed i V F (trap g start) := by
  refine (advance h.toPassable).bind fun _ => peek.bind fun t => ?_
  have hrest (type : Option NodeId) : Composed i V F (do
      let body ← Grammar.statementBlock g
      Parser.add (.trap type body) start) :=
    (statementBlock h).bind fun _ => add _ _
  split
  · exact (typeConstraint h.toPassable).map.bind hrest
  · exact (pure _).bind hrest

theorem functionDefinition (isFilter : Bool) :
    Composed i V F (functionDefinition g isFilter start) := by
  refine (advance h.toPassable).bind fun _ => peek.bind fun t => ?_
  split
  · refine h.bareWordText.bind fun name => (eat h.toPassable .lparen).bind fun found => ?_
    have hrest (parameters : List NodeId) : Composed i V F (do
        Parser.skipNewlines
        Parser.expect .lbrace
        let body ← Grammar.scriptBlock g .brace
        Parser.expect .rbrace
        Parser.add (.functionDefinition name isFilter parameters body) start) :=
      (skipNewlines h.toPassable).bind fun _ => (expect h.toPassable .lbrace).bind fun _ =>
        (scriptBlock h).bind fun _ => (expect h.toPassable .rbrace).bind fun _ => add _ _
    split
    · exact (untilParen h.toPassable (parameter h)).bind hrest
    · exact (pure _).bind hrest
  · exact unexpected h.toPassable _

theorem loopRule? {keyword : String} {next : Option Token} {label : Option String}
    {rule : Parser NodeId} (hrule : loopRule? g keyword next label start = some rule) :
    Composed i V F rule := by
  unfold Grammar.loopRule? at hrule
  split at hrule
  · exact Option.some.inj hrule ▸ whileLoop h label
  · exact Option.some.inj hrule ▸ doLoop h label
  · exact Option.some.inj hrule ▸ forLoop h label
  · split at hrule
    · exact Option.some.inj hrule ▸ forEach h label
    · cases hrule
  · cases hrule

theorem statementRule? {keyword : String} {rule : Parser NodeId}
    (hrule : statementRule? g keyword start = some rule) : Composed i V F rule := by
  unfold Grammar.statementRule? at hrule
  split at hrule
  · exact Option.some.inj hrule ▸ functionDefinition h false
  · exact Option.some.inj hrule ▸ functionDefinition h true
  · exact Option.some.inj hrule ▸ ifStatement h
  · exact Option.some.inj hrule ▸ tryStatement h
  · exact Option.some.inj hrule ▸ trap h
  iterate 2
    · exact Option.some.inj hrule ▸ (advance h.toPassable).bind fun _ =>
        (optionalPipeline h).bind fun _ => add _ _
  iterate 2
    · exact Option.some.inj hrule ▸ (advance h.toPassable).bind fun _ =>
        (jumpLabel? h.toPassable).bind fun _ => add _ _
  · cases hrule

theorem statement : Composed i V F (statement g) := by
  refine Composed.start.bind fun _ => (label? h.toPassable).bind fun label => place.bind fun q => ?_
  dsimp only
  split
  · rename_i rule hrule
    obtain ⟨keyword, -, hrule⟩ := Option.bind_eq_some_iff.mp hrule
    exact loopRule? h hrule
  · split
    · exact refuse h.toPassable _
    · split
      · rename_i rule hrule
        obtain ⟨keyword, -, hrule⟩ := Option.bind_eq_some_iff.mp hrule
        exact statementRule? h hrule
      · exact pipeline h

end Nested

end Composed

/-- At every depth the rules are put together from steps. -/
theorem composing_nested (h : Excerpting i V F) (n : Nat) : Composing i V F (nested n) := by
  induction n with
  | zero =>
    have hnone : Composed i V F (Parser.guarded (throw .stalled : Parser NodeId)) :=
      .guarded (.stall h.toPassable)
    exact { h with statement := hnone, expression := fun _ => hnone, unary := hnone }
  | succ n ih =>
    exact
      { h with
        statement := .guarded (.statement ih)
        expression := fun commas => .guarded (.ternary ih commas)
        unary := .guarded (.unary ih) }

/-- Wherever a reading of a script starts, it ends where it may stand, and it fails for a reason
that it may have. -/
theorem script_outcome (h : Excerpting i V F) {s : State} (hs : V s.place) :
    Outcome (scriptBlock (nested i.maxDepth) .endOfText) i s (fun f t => F f ∧ V t.place)
      fun _ t => V t.place :=
  (Composed.scriptBlock (composing_nested h i.maxDepth)).outcome h.toPassable s hs

end ScriptInject.Grammar
