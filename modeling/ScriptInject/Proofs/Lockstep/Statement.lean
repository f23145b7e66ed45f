import ScriptInject.Proofs.Lockstep.Expression
/-! Statements, read twice, and with them the grammar at every depth. -/
namespace ScriptInject.Grammar

namespace Lockstep

variable {σ : Alignment} {P : State → Prop} {g : Nested}

theorem label? : Lockstep σ P (fun a => a) label? label? Any := by
  rw [Grammar.label?]
  refine place_bind fun p => ?_
  rw [Place.current?_place, Place.next?_place, Place.isNextAdjacent_place]
  split
  · split
    · exact advanceBy_bind (pure rfl fun _ _ => trivial)
    · exact pure rfl fun _ _ => trivial
  · exact pure rfl fun _ _ => trivial

theorem jumpLabel? : Lockstep σ P (fun a => a) jumpLabel? jumpLabel? Any := by
  rw [Grammar.jumpLabel?]
  refine peek_bind fun t => ?_
  split
  · exact advance_bind (pure rfl fun _ _ => trivial)
  · exact pure rfl fun _ _ => trivial

theorem afterWord? {α : Type} {f : α → α} {keyword : String} {p : Parser α}
    (h : ∀ {P}, Lockstep σ P f p p Any) :
    Lockstep σ P (Option.map f) (afterWord? keyword p) (afterWord? keyword p) Any := by
  rw [Grammar.afterWord?]
  refine place_bind fun before => skipNewlines_bind (atWord_bind fun isHere => ?_)
  split
  · exact (some_bind h).imp fun _ _ _ => trivial
  · exact goto_bind (pure rfl fun _ _ => trivial)

theorem caughtTypesUpTo (n : Nat) :
    Lockstep σ P (List.map σ.id) (caughtTypesUpTo n) (caughtTypesUpTo n) Any := by
  induction n generalizing P with
  | zero => exact throw rfl
  | succ n ih =>
    rw [Grammar.caughtTypesUpTo]
    refine peek_bind fun t => ?_
    split
    · refine bind typeConstraint fun type => skipNewlines_bind (eat_ite ?_ ?_)
      · exact skipNewlines_bind (bind ih fun types => pure rfl fun _ _ => trivial)
      · exact pure rfl fun _ _ => trivial
    · exact pure rfl fun _ _ => trivial

theorem caughtTypes : Lockstep σ P (List.map σ.id) caughtTypes caughtTypes Any := by
  rw [Grammar.caughtTypes]
  refine place_bind fun p => ?_
  rw [show (σ.place p).rest.length = p.rest.length from List.length_map _]
  exact caughtTypesUpTo _

variable (hg : Paired σ g)
include hg

theorem optionalPipeline :
    Lockstep σ P (Option.map σ.id) (optionalPipeline g) (optionalPipeline g) Any := by
  rw [Grammar.optionalPipeline]
  refine peek_bind fun t => ?_
  split
  iterate 5 exact pure rfl fun _ _ => trivial
  exact (some_bind (pipeline hg)).imp fun _ _ _ => trivial

theorem condition : Lockstep σ P σ.id (condition g) (condition g) Any := by
  rw [Grammar.condition]
  refine skipNewlines_bind (expect_bind (skipNewlines_bind (bind (pipeline hg) fun id => ?_)))
  exact skipNewlines_bind (expect_bind (pure rfl fun _ _ => trivial))

theorem clause :
    Lockstep σ P (fun (test, body) => (σ.id test, σ.id body)) (clause g) (clause g) Any := by
  rw [Grammar.clause]
  refine bind (condition hg) fun test => bind (statementBlock hg) fun body => ?_
  exact pure rfl fun _ _ => trivial

theorem ifStatement {start : Nat} :
    Lockstep σ P σ.id (ifStatement g start) (ifStatement g (start + σ.offset)) Any := by
  rw [Grammar.ifStatement, Grammar.ifStatement]
  refine advance_bind (bind (clause hg) fun first => ?_)
  refine bind (manyAny (afterWord? (advance_bind (clause hg)))) fun others => ?_
  refine bind (afterWord? (advance_bind (statementBlock hg))) fun elseBody => ?_
  exact add rfl

theorem whileLoop {label : Option String} {start : Nat} :
    Lockstep σ P σ.id (whileLoop g label start) (whileLoop g label (start + σ.offset)) Any := by
  rw [Grammar.whileLoop, Grammar.whileLoop]
  exact advance_bind (bind (clause hg) fun clause => add rfl)

theorem doLoop {label : Option String} {start : Nat} :
    Lockstep σ P σ.id (doLoop g label start) (doLoop g label (start + σ.offset)) Any := by
  rw [Grammar.doLoop, Grammar.doLoop]
  refine advance_bind (bind (statementBlock hg) fun body => skipNewlines_bind ?_)
  refine atWord_bind fun isWhile => ?_
  split
  · exact advance_bind (bind (condition hg) fun test => add rfl)
  · refine atWord_bind fun isUntil => ?_
    split
    · exact advance_bind (bind (condition hg) fun test => add rfl)
    · exact unexpected

theorem forPart {stop : Mark} :
    Lockstep σ P (Option.map σ.id) (forPart g stop) (forPart g stop) Any := by
  rw [Grammar.forPart]
  refine skipNewlines_bind (peek_bind fun t => ?_)
  have hrest {P : State → Prop} (part : Option NodeId) : Lockstep σ P (Option.map σ.id)
      (do Parser.skipNewlines; Parser.expect stop; return part)
      (do Parser.skipNewlines; Parser.expect stop; return part.map σ.id) Any :=
    skipNewlines_bind (expect_bind (pure rfl fun _ _ => trivial))
  split
  · exact bind (Q := Any) (f := Option.map σ.id) (pure rfl fun _ _ => trivial) hrest
  · exact bind (some_map (pipeline hg)) hrest

theorem forLoop {label : Option String} {start : Nat} :
    Lockstep σ P σ.id (forLoop g label start) (forLoop g label (start + σ.offset)) Any := by
  rw [Grammar.forLoop, Grammar.forLoop]
  refine advance_bind (skipNewlines_bind (expect_bind (bind (forPart hg) fun first => ?_)))
  refine bind (forPart hg) fun test => bind (forPart hg) fun step => ?_
  exact bind (statementBlock hg) fun body => add rfl

theorem forEach {label : Option String} {start : Nat} :
    Lockstep σ P σ.id (forEach g label start) (forEach g label (start + σ.offset)) Any := by
  rw [Grammar.forEach, Grammar.forEach]
  refine advance_bind (skipNewlines_bind (expect_bind (skipNewlines_bind ?_)))
  refine bind bareVariable fun item => skipNewlines_bind (atWord_bind fun isIn => ?_)
  split
  · refine advance_bind (skipNewlines_bind (bind (pipeline hg) fun items => ?_))
    refine skipNewlines_bind (expect_bind (bind (statementBlock hg) fun body => ?_))
    exact add rfl
  · exact unexpected

theorem catchClause : Lockstep σ P σ.id (catchClause g) (catchClause g) Any := by
  rw [Grammar.catchClause]
  refine start_bind fun start => advance_bind (bind caughtTypes fun types => ?_)
  exact bind (statementBlock hg) fun body => add rfl

theorem tryStatement {start : Nat} :
    Lockstep σ P σ.id (tryStatement g start) (tryStatement g (start + σ.offset)) Any := by
  rw [Grammar.tryStatement, Grammar.tryStatement]
  refine advance_bind (bind (statementBlock hg) fun body => ?_)
  refine bind (manyAny (afterWord? (catchClause hg))) fun catches => ?_
  refine bind (afterWord? (advance_bind (statementBlock hg))) fun cleanup => ?_
  rw [List.isEmpty_map, Option.isNone_map]
  split
  · exact refuse rfl
  · exact add rfl

theorem trap {start : Nat} :
    Lockstep σ P σ.id (trap g start) (trap g (start + σ.offset)) Any := by
  rw [Grammar.trap, Grammar.trap]
  refine advance_bind (peek_bind fun t => ?_)
  have hrest {P : State → Prop} (type : Option NodeId) : Lockstep σ P σ.id
      (do let body ← Grammar.statementBlock g; Parser.add (.trap type body) start)
      (do
        let body ← Grammar.statementBlock g
        Parser.add (.trap (type.map σ.id) body) (start + σ.offset)) Any :=
    bind (statementBlock hg) fun body => add rfl
  split
  · exact bind (some_map typeConstraint) hrest
  · exact bind (Q := Any) (f := Option.map σ.id) (pure rfl fun _ _ => trivial) hrest

theorem functionDefinition {isFilter : Bool} {start : Nat} :
    Lockstep σ P σ.id (functionDefinition g isFilter start)
      (functionDefinition g isFilter (start + σ.offset)) Any := by
  rw [Grammar.functionDefinition, Grammar.functionDefinition]
  refine advance_bind (peek_bind fun t => ?_)
  split
  · refine bind bareWordText fun name => ?_
    have hrest {P : State → Prop} (parameters : List NodeId) : Lockstep σ P σ.id
        (do
          Parser.skipNewlines
          Parser.expect .lbrace
          let body ← Grammar.scriptBlock g .brace
          Parser.expect .rbrace
          Parser.add (.functionDefinition name isFilter parameters body) start)
        (do
          Parser.skipNewlines
          Parser.expect .lbrace
          let body ← Grammar.scriptBlock g .brace
          Parser.expect .rbrace
          Parser.add (.functionDefinition name isFilter (parameters.map σ.id) body)
            (start + σ.offset)) Any := by
      refine skipNewlines_bind (expect_bind (bind (scriptBlock hg) fun body => ?_))
      exact expect_bind (add rfl)
    refine eat_ite (bind (untilParen (parameter hg)) hrest) ?_
    exact bind (Q := Any) (f := List.map σ.id) (pure rfl fun _ _ => trivial) hrest
  · exact unexpected

/-- A rule for a statement is there in both readings, or in none. -/
inductive Ruled (σ : Alignment) : Option (Parser NodeId) → Option (Parser NodeId) → Prop
  | none : Ruled σ none none
  | some {p q : Parser NodeId} : (∀ {P}, Lockstep σ P σ.id p q Any) → Ruled σ (some p) (some q)

theorem loopRule? (keyword : String) (next : Option Token) (label : Option String) (start : Nat) :
    Ruled σ (loopRule? g keyword next label start)
      (loopRule? g keyword next label (start + σ.offset)) := by
  rw [Grammar.loopRule?.eq_def, Grammar.loopRule?.eq_def]
  split
  · exact .some (whileLoop hg)
  · exact .some (doLoop hg)
  · exact .some (forLoop hg)
  · split
    · exact .some (forEach hg)
    · exact .none
  · exact .none

theorem statementRule? (keyword : String) (start : Nat) :
    Ruled σ (statementRule? g keyword start) (statementRule? g keyword (start + σ.offset)) := by
  rw [Grammar.statementRule?.eq_def, Grammar.statementRule?.eq_def]
  split
  · exact .some (functionDefinition hg)
  · exact .some (functionDefinition hg)
  · exact .some (ifStatement hg)
  · exact .some (tryStatement hg)
  · exact .some (trap hg)
  · exact .some (advance_bind (bind (optionalPipeline hg) fun value => add rfl))
  · exact .some (advance_bind (bind (optionalPipeline hg) fun value => add rfl))
  · exact .some (advance_bind (bind jumpLabel? fun label => add rfl))
  · exact .some (advance_bind (bind jumpLabel? fun label => add rfl))
  · exact .none

omit hg in
theorem ruled_bind {r r' : String → Option (Parser NodeId)} (h : ∀ k, Ruled σ (r k) (r' k))
    (keyword? : Option String) : Ruled σ (keyword?.bind r) (keyword?.bind r') := by
  cases keyword? with
  | none => exact .none
  | some k => exact h k

omit hg in
theorem orElse {r r' : Option (Parser NodeId)} {d d' : Parser NodeId}
    (hd : Lockstep σ P σ.id d d' Any) : Ruled σ r r' →
    Lockstep σ P σ.id (match r with | some rule => rule | none => d)
      (match r' with | some rule => rule | none => d') Any
  | .none => hd
  | .some h => h

theorem statement : Lockstep σ P σ.id (statement g) (statement g) Any := by
  rw [Grammar.statement]
  refine start_bind fun start => bind label? fun label => place_bind fun p => ?_
  rw [Place.current?_place, Place.next?_place]
  refine orElse ?_ (ruled_bind (fun k => loopRule? hg k p.next? label start) _)
  split
  · exact refuse rfl
  · exact orElse (pipeline hg) (ruled_bind (fun k => statementRule? hg k start) _)

end Lockstep

/-- At every depth the grammar takes the same steps. -/
theorem paired_nested {σ : Alignment} (n : Nat) : Paired σ (nested n) := by
  induction n with
  | zero =>
    exact
      { statement := Lockstep.guarded (.throw rfl) fun _ _ _ _ => trivial
        expression := fun _ => Lockstep.guarded (.throw rfl) fun _ _ _ h => ⟨h.span, h.begun⟩
        unary := Lockstep.guarded (.throw rfl) fun _ _ _ h => ⟨h.span, h.begun⟩ }
  | succ n ih =>
    exact
      { statement := Lockstep.guarded (Lockstep.statement ih) fun _ _ _ _ => trivial
        expression := fun commas =>
          Lockstep.guarded (Lockstep.ternary ih) fun _ _ _ h => ⟨h.span, h.begun⟩
        unary := Lockstep.guarded (Lockstep.unary ih) fun _ _ _ h => ⟨h.span, h.begun⟩ }

end ScriptInject.Grammar
