import ScriptInject.Proofs.Widening.Expression
/-! Statements, with and without room to spare. -/
namespace ScriptInject.Grammar.Widens

variable {σ : Widening}

theorem label? : Widens σ id label? label? := by
  rw [Grammar.label?]
  refine place_bind fun p => ?_
  split
  · split
    · exact advanceBy_bind (pure (.refl _))
    · exact pure (.refl _)
  · exact pure (.refl _)

theorem jumpLabel? : Widens σ id jumpLabel? jumpLabel? := by
  rw [Grammar.jumpLabel?]
  refine peek_bind fun t => ?_
  split
  · exact advance_bind (pure (.refl _))
  · exact pure (.refl _)

theorem afterWord? {α β : Type} {f : α → β} {keyword : String} {p q : Parser α}
    (h : Widens σ f p q) :
    Widens σ (Option.map f) (afterWord? keyword p) (afterWord? keyword q) := by
  rw [Grammar.afterWord?, Grammar.afterWord?]
  refine place_bind fun before => skipNewlines_bind (atWord_bind fun isHere => ?_)
  split
  · exact some_bind h
  · exact goto_bind (pure (.refl _))

theorem caughtTypesUpTo (n : Nat) :
    Widens σ (List.map veiled) (caughtTypesUpTo n) (caughtTypesUpTo n) := by
  induction n with
  | zero => exact throw
  | succ n ih =>
    rw [Grammar.caughtTypesUpTo]
    refine peek_bind fun t => ?_
    split
    · refine bind typeConstraint fun type type' h => skipNewlines_bind (eat_ite ?_ ?_)
      · exact skipNewlines_bind (bind ih fun types types' hs => pure (.cons h hs))
      · exact pure (.cons h (.refl []))
    · exact pure (.refl _)

theorem caughtTypes : Widens σ (List.map veiled) caughtTypes caughtTypes := by
  rw [Grammar.caughtTypes]
  exact place_bind fun p => caughtTypesUpTo _

variable {g g' : Nested} (hg : Widened σ g g')
include hg

theorem optionalPipeline :
    Widens σ (Option.map veiled) (optionalPipeline g) (optionalPipeline g') := by
  rw [Grammar.optionalPipeline, Grammar.optionalPipeline]
  refine peek_bind fun t => ?_
  split
  iterate 5 exact pure (.refl _)
  exact some_bind (pipeline hg)

theorem condition : Widens σ veiled (condition g) (condition g') := by
  rw [Grammar.condition, Grammar.condition]
  refine skipNewlines_bind (expect_bind (skipNewlines_bind (bind (pipeline hg) fun _ _ h => ?_)))
  exact skipNewlines_bind (expect_bind (pure h))

theorem clause : Widens σ veiled (clause g) (clause g') := by
  rw [Grammar.clause, Grammar.clause]
  refine bind (condition hg) fun test test' h => bind (statementBlock hg) fun body body' hb => ?_
  exact pure (.veiled fun he => by rw [h.eq he, hb.eq he])

theorem ifStatement {start : Nat} :
    Widens σ veiled (ifStatement g start) (ifStatement g' start) := by
  rw [Grammar.ifStatement, Grammar.ifStatement]
  refine advance_bind (bind (clause hg) fun first first' h => ?_)
  refine bind (many (afterWord? (advance_bind (clause hg)))) fun others others' hs => ?_
  refine bind (afterWord? (advance_bind (statementBlock hg))) fun elseBody elseBody' he => ?_
  exact add fun heq => by rw [h.eq heq, hs.eq heq, he.eq heq]

theorem whileLoop {label : Option String} {start : Nat} :
    Widens σ veiled (whileLoop g label start) (whileLoop g' label start) := by
  rw [Grammar.whileLoop, Grammar.whileLoop]
  exact advance_bind (bind (clause hg) fun _ _ h => add fun he => by rw [h.eq he])

theorem doLoop {label : Option String} {start : Nat} :
    Widens σ veiled (doLoop g label start) (doLoop g' label start) := by
  rw [Grammar.doLoop, Grammar.doLoop]
  refine advance_bind (bind (statementBlock hg) fun body body' h => skipNewlines_bind ?_)
  refine atWord_bind fun isWhile => ?_
  split
  · exact advance_bind (bind (condition hg) fun _ _ ht => add fun he => by rw [h.eq he, ht.eq he])
  · refine atWord_bind fun isUntil => ?_
    split
    · exact advance_bind (bind (condition hg) fun _ _ ht => add fun he => by rw [h.eq he, ht.eq he])
    · exact unexpected

theorem forPart {stop : Mark} : Widens σ (Option.map veiled) (forPart g stop) (forPart g' stop) := by
  rw [Grammar.forPart, Grammar.forPart]
  refine skipNewlines_bind (peek_bind fun t => ?_)
  have hrest (part part' : Option NodeId) (h : σ.Same (Option.map veiled) part part') :
      Widens σ (Option.map veiled)
        (do Parser.skipNewlines; Parser.expect stop; return part)
        (do Parser.skipNewlines; Parser.expect stop; return part') :=
    skipNewlines_bind (expect_bind (pure h))
  split
  · exact bind (pure (.refl none)) hrest
  · exact bind (some_map (pipeline hg)) hrest

theorem forLoop {label : Option String} {start : Nat} :
    Widens σ veiled (forLoop g label start) (forLoop g' label start) := by
  rw [Grammar.forLoop, Grammar.forLoop]
  refine advance_bind (skipNewlines_bind (expect_bind (bind (forPart hg) fun first first' h1 => ?_)))
  refine bind (forPart hg) fun test test' h2 => bind (forPart hg) fun step step' h3 => ?_
  refine bind (statementBlock hg) fun body body' h4 => add fun he => ?_
  rw [h1.eq he, h2.eq he, h3.eq he, h4.eq he]

theorem forEach {label : Option String} {start : Nat} :
    Widens σ veiled (forEach g label start) (forEach g' label start) := by
  rw [Grammar.forEach, Grammar.forEach]
  refine advance_bind (skipNewlines_bind (expect_bind (skipNewlines_bind ?_)))
  refine bind bareVariable fun item item' hitem => skipNewlines_bind (atWord_bind fun isIn => ?_)
  split
  · refine advance_bind (skipNewlines_bind (bind (pipeline hg) fun items items' hitems => ?_))
    refine skipNewlines_bind (expect_bind (bind (statementBlock hg) fun body body' hb => ?_))
    exact add fun he => by rw [hitem.eq he, hitems.eq he, hb.eq he]
  · exact unexpected

theorem catchClause : Widens σ veiled (catchClause g) (catchClause g') := by
  rw [Grammar.catchClause, Grammar.catchClause]
  refine start_bind fun start => advance_bind (bind caughtTypes fun types types' h => ?_)
  exact bind (statementBlock hg) fun body body' hb => add fun he => by rw [h.eq he, hb.eq he]

theorem tryStatement {start : Nat} :
    Widens σ veiled (tryStatement g start) (tryStatement g' start) := by
  rw [Grammar.tryStatement, Grammar.tryStatement]
  refine advance_bind (bind (statementBlock hg) fun body body' h => ?_)
  refine bind (many (afterWord? (catchClause hg))) fun catches catches' hcatches => ?_
  refine bind (afterWord? (advance_bind (statementBlock hg))) fun cleanup cleanup' hcleanup => ?_
  have hempty : catches.isEmpty = catches'.isEmpty := by
    simpa using congrArg List.isEmpty hcatches.shape
  have hnone : cleanup.isNone = cleanup'.isNone := by
    simpa using congrArg Option.isNone hcleanup.shape
  rw [hempty, hnone]
  split
  · exact refuse
  · exact add fun he => by rw [h.eq he, hcatches.eq he, hcleanup.eq he]

theorem trap {start : Nat} : Widens σ veiled (trap g start) (trap g' start) := by
  rw [Grammar.trap, Grammar.trap]
  refine advance_bind (peek_bind fun t => ?_)
  have hrest (type type' : Option NodeId) (h : σ.Same (Option.map veiled) type type') :
      Widens σ veiled
        (do let body ← Grammar.statementBlock g; Parser.add (.trap type body) start)
        (do let body ← Grammar.statementBlock g'; Parser.add (.trap type' body) start) :=
    bind (statementBlock hg) fun _ _ hb => add fun he => by rw [h.eq he, hb.eq he]
  split
  · exact bind (some_map typeConstraint) hrest
  · exact bind (pure (.refl none)) hrest

theorem functionDefinition {isFilter : Bool} {start : Nat} :
    Widens σ veiled (functionDefinition g isFilter start)
      (functionDefinition g' isFilter start) := by
  rw [Grammar.functionDefinition, Grammar.functionDefinition]
  refine advance_bind (peek_bind fun t => ?_)
  split
  · refine bindEq bareWordText fun name => ?_
    have hrest (parameters parameters' : List NodeId)
        (h : σ.Same (List.map veiled) parameters parameters') : Widens σ veiled
        (do
          Parser.skipNewlines
          Parser.expect .lbrace
          let body ← Grammar.scriptBlock g .brace
          Parser.expect .rbrace
          Parser.add (.functionDefinition name isFilter parameters body) start)
        (do
          Parser.skipNewlines
          Parser.expect .lbrace
          let body ← Grammar.scriptBlock g' .brace
          Parser.expect .rbrace
          Parser.add (.functionDefinition name isFilter parameters' body) start) := by
      refine skipNewlines_bind (expect_bind (bind (scriptBlock hg) fun body body' hb => ?_))
      exact expect_bind (add fun he => by rw [h.eq he, hb.eq he])
    refine eat_ite (bind (untilParen (parameter hg)) hrest) ?_
    exact bind (pure (.refl [])) hrest
  · exact unexpected

/-- A rule for a statement is there in both readings, or in none. -/
inductive Chosen (σ : Widening) : Option (Parser NodeId) → Option (Parser NodeId) → Prop
  | none : Chosen σ none none
  | some {p q : Parser NodeId} : Widens σ veiled p q → Chosen σ (some p) (some q)

theorem loopRule? (keyword : String) (next : Option Token) (label : Option String) (start : Nat) :
    Chosen σ (loopRule? g keyword next label start) (loopRule? g' keyword next label start) := by
  rw [Grammar.loopRule?.eq_def, Grammar.loopRule?.eq_def]
  split
  · exact .some (whileLoop hg)
  · exact .some (doLoop hg)
  · exact .some (forLoop hg)
  · split
    · exact .some (forEach hg)
    · exact .none
  · exact .none

theorem statementRule? (keyword : String) (start : Nat) :
    Chosen σ (statementRule? g keyword start) (statementRule? g' keyword start) := by
  rw [Grammar.statementRule?.eq_def, Grammar.statementRule?.eq_def]
  have hvalue {node : Option NodeId → Node NodeId} : Widens σ veiled
      (do Parser.advance; let value ← Grammar.optionalPipeline g; Parser.add (node value) start)
      (do Parser.advance; let value ← Grammar.optionalPipeline g'; Parser.add (node value) start) :=
    advance_bind (bind (optionalPipeline hg) fun _ _ h => add fun he => by rw [h.eq he])
  have hjump {node : Option String → Node NodeId} : Widens σ veiled
      (do Parser.advance; let label ← Grammar.jumpLabel?; Parser.add (node label) start)
      (do Parser.advance; let label ← Grammar.jumpLabel?; Parser.add (node label) start) :=
    advance_bind (bindEq jumpLabel? fun _ => add fun _ => rfl)
  split
  · exact .some (functionDefinition hg)
  · exact .some (functionDefinition hg)
  · exact .some (ifStatement hg)
  · exact .some (tryStatement hg)
  · exact .some (trap hg)
  · exact .some hvalue
  · exact .some hvalue
  · exact .some hjump
  · exact .some hjump
  · exact .none

omit hg in
theorem chosen_bind {r r' : String → Option (Parser NodeId)} (h : ∀ k, Chosen σ (r k) (r' k))
    (keyword? : Option String) : Chosen σ (keyword?.bind r) (keyword?.bind r') := by
  cases keyword? with
  | none => exact .none
  | some k => exact h k

omit hg in
theorem orElse {r r' : Option (Parser NodeId)} {d d' : Parser NodeId} (hd : Widens σ veiled d d') :
    Chosen σ r r' → Widens σ veiled (match r with | some rule => rule | none => d)
      (match r' with | some rule => rule | none => d')
  | .none => hd
  | .some h => h

theorem statement : Widens σ veiled (statement g) (statement g') := by
  rw [Grammar.statement, Grammar.statement]
  refine start_bind fun start => bindEq label? fun label => place_bind fun p => ?_
  refine orElse ?_ (chosen_bind (fun k => loopRule? hg k p.next? label start) _)
  split
  · exact refuse
  · exact orElse (pipeline hg) (chosen_bind (fun k => statementRule? hg k start) _)

end ScriptInject.Grammar.Widens
