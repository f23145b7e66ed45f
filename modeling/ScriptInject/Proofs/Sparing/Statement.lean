import ScriptInject.Grammar.Script
import ScriptInject.Proofs.Sparing.Block
/-! Expressions and statements name only nodes that they are handed. -/
namespace ScriptInject

/-- The children of pairs, as tables and clauses have them. -/
theorem Node.forall_mem_pairs {P : NodeId → Prop} {pairs : List (NodeId × NodeId)}
    (h : ∀ pair ∈ pairs, P pair.1 ∧ P pair.2) : ∀ c ∈ (Node.hashtable pairs).children, P c := by
  intro c hc
  obtain ⟨pair, hpair, hc⟩ := List.mem_flatMap.mp hc
  obtain ⟨hfst, hsnd⟩ := h pair hpair
  rcases List.mem_cons.mp hc with rfl | hc
  · exact hfst
  · exact List.mem_singleton.mp hc ▸ hsnd

/-- The array that is all there is to a statement stands below it, and so apart from nodes that the
statement is apart from. -/
theorem Arena.Secluded.loneArray? {X : Set NodeId} {a : Arena} {statement array : NodeId}
    (h : a.Secluded X) (hs : statement ∉ X)
    (harray : Grammar.loneArray? a statement = some array) : array ∉ X := by
  unfold Grammar.loneArray? at harray
  split at harray
  · rename_i element hstatement
    split at harray
    · rename_i expression helement
      split at harray
      · obtain rfl := Option.some.inj harray
        have he := h _ _ hstatement hs element (List.mem_singleton_self _)
        exact h _ _ helement he _ (List.mem_singleton_self _)
      · cases harray
    · cases harray
  · cases harray

namespace Grammar

variable {α : Type} {i : Input} {X : Set NodeId} {H : Prop} {g : Nested} {start : Nat}
  {inner operand : Parser NodeId} {target : NodeId}

namespace Sparing

/-! Expressions. -/

theorem doubleQuoted (body : String) (kind : StringKind) (start : Nat) :
    Sparing i X H (doubleQuoted body kind start) (· ∉ X) := by
  unfold Grammar.doubleQuoted
  split <;> exact add (by simp [Node.children])

theorem trailingUnary (operator : UnaryOperator) (ht : H → target ∉ X) :
    Sparing i X H (trailingUnary start operator target) (· ∉ X) :=
  advance.seq fun _ => add (by simpa [Node.children] using ht)

section Nested

variable (h : SparingNested i X g)
include h

theorem paren (start : Nat) : Sparing i X H (paren g start) (· ∉ X) := by
  refine advance.seq fun _ => skipNewlines.seq fun _ => (pipeline h).bind fun statement =>
    skipNewlines.seq fun _ => (expect .rparen).seq fun _ => get.bind fun s => ?_
  split
  · rename_i array harray
    exact pure fun h => h.2.loneArray? h.1.2 harray
  · exact add (by simp +contextual [Node.children])

theorem statementsInParens :
    Sparing i X H (statementsInParens g) fun ids => ∀ id ∈ ids, id ∉ X :=
  advance.seq fun _ => (statementList h).bind fun _ => (expect .rparen).seq fun _ => pure And.right

theorem hashtablePair :
    Sparing i X H (hashtablePair g) fun o => ∀ pair ∈ o, pair.1 ∉ X ∧ pair.2 ∉ X := by
  refine skipTerminators.seq fun _ => (eat .rbrace).seq fun found => ?_
  split
  · exact pure fun _ => by simp
  · refine peek.seq fun t => ?_
    split
    case' h_1 => refine bareWord.bind fun key => ?_
    case' h_2 => refine h.unary.bind fun key => ?_
    -- whatever the key is, its value follows
    all_goals
      refine skipNewlines.seq fun _ => (expect .assign).seq fun _ => skipNewlines.seq fun _ =>
        h.statement.bind fun value => peek.seq fun t => ?_
      split
      iterate 3 exact pure fun h => by simpa using h.imp_left And.right
      exact unexpected _

theorem hashtable (start : Nat) : Sparing i X H (hashtable g start) (· ∉ X) :=
  advance.seq fun _ => (many (hashtablePair h)).bind fun _ =>
    add fun h => Node.forall_mem_pairs h.2

theorem scriptBlockExpression (start : Nat) :
    Sparing i X H (scriptBlockExpression g start) (· ∉ X) :=
  advance.seq fun _ => (scriptBlock h).bind fun _ => (expect .rbrace).seq fun _ =>
    add (by simp +contextual [Node.children])

theorem memberAccess (hp : ∀ {H}, Sparing i X H inner (· ∉ X)) (ht : H → target ∉ X)
    (isStatic nullConditional : Bool) :
    Sparing i X H (memberAccess g inner start target isStatic nullConditional) (· ∉ X) := by
  refine advance.seq fun _ => Sparing.start.seq fun _ => peek.seq fun t => ?_
  have hrest (name : NodeId) : Sparing i X (H ∧ name ∉ X) (do
      let p ← Parser.place
      if p.current? = some (.mark .lparen) ∧ p.isAdjacent then
        Parser.advance
        let arguments ← Parser.untilParen (g.expression false)
        Parser.add (.invokeMember target name arguments isStatic nullConditional) start
      else Parser.add (.member target name isStatic nullConditional) start) (· ∉ X) := by
    refine place.seq fun q => ?_
    split
    · exact advance.seq fun _ => (untilParen (h.expression false)).bind fun _ =>
        add (by simp +contextual [Node.children, ht])
    · exact add (by simp +contextual [Node.children, ht])
  split
  · exact advance.seq fun _ => (add (by simp [Node.children])).bind hrest
  · exact hp.bind hrest

theorem indexAccess (ht : H → target ∉ X) (nullConditional : Bool) :
    Sparing i X H (indexAccess g start target nullConditional) (· ∉ X) :=
  advance.seq fun _ => skipNewlines.seq fun _ => (h.expression true).bind fun _ =>
    skipNewlines.seq fun _ => (expect .rbracket).seq fun _ =>
      add (by simp +contextual [Node.children, ht])

theorem access (hp : ∀ {H}, Sparing i X H inner (· ∉ X)) (ht : H → target ∉ X) :
    Sparing i X H (access g inner start target) fun o => ∀ id ∈ o, id ∉ X := by
  refine place.seq fun q => ?_
  split
  · exact pure fun _ => by simp
  · split
    iterate 3 exact (memberAccess h hp ht _ _).bind fun _ => pure fun h => by simpa using h.2
    iterate 2 exact (indexAccess h ht _).bind fun _ => pure fun h => by simpa using h.2
    iterate 2 exact (trailingUnary _ ht).bind fun _ => pure fun h => by simpa using h.2
    exact pure fun _ => by simp

theorem accesses (hp : ∀ {H}, Sparing i X H inner (· ∉ X)) (ht : H → target ∉ X) :
    Sparing i X H (accesses g inner start target) (· ∉ X) :=
  iterate (fun _ => access h hp And.right) ht

theorem bracketExpression (hp : ∀ {H}, Sparing i X H inner (· ∉ X)) :
    Sparing i X H (bracketExpression g inner) (· ∉ X) := by
  refine Sparing.start.seq fun _ => (bracketHead h).bind fun head => ?_
  split
  · refine h.unary.bind fun child => add ?_
    simp +contextual [Node.children, BracketHead.ids]
  · refine peek.seq fun t => ?_
    split
    · exact (add (by simp [Node.children])).bind fun _ => h.unary.bind fun _ =>
        add (by simp +contextual [Node.children])
    · exact (add (by simp [Node.children])).bind fun _ => accesses h hp And.right

theorem primaryUpTo (n : Nat) : Sparing i X H (primaryUpTo g n) (· ∉ X) := by
  induction n generalizing H with
  | zero => exact throw _
  | succ n ih =>
    refine Sparing.start.seq fun _ => peek.seq fun t => ?_
    split
    · exact advance.seq fun _ => variableRef _ _
    iterate 4 exact advance.seq fun _ => add (by simp [Node.children])
    iterate 2 exact advance.seq fun _ => doubleQuoted _ _ _
    · exact advance.seq fun _ => add (by simp [Node.children])
    · exact paren h _
    iterate 2 exact (statementsInParens h).bind fun _ => add (by simp [Node.children])
    · exact hashtable h _
    · exact scriptBlockExpression h _
    · exact bracketExpression h ih
    · exact unexpected _

theorem primary : Sparing i X H (primary g) (· ∉ X) := place.seq fun _ => primaryUpTo h _

theorem unary : Sparing i X H (unary g) (· ∉ X) := by
  refine Sparing.start.seq fun _ => peek.seq fun t => ?_
  split
  · exact bracketExpression h (primary h)
  · split
    · exact advance.seq fun _ => h.unary.bind fun _ => add (by simp [Node.children])
    · exact (primary h).bind fun _ => accesses h (primary h) And.right

theorem listOrOperand (commas : Bool) : Sparing i X H (listOrOperand g commas) (· ∉ X) := by
  refine Sparing.start.seq fun _ => ?_
  split
  · refine (eat .comma).seq fun found => ?_
    split
    · exact skipNewlines.seq fun _ => h.unary.bind fun _ => add (by simp [Node.children])
    · exact operands h _
  · exact h.unary

omit h in
theorem binaryStep (hp : ∀ {H}, Sparing i X H operand (· ∉ X)) (precedence : Nat) {left : NodeId}
    (hleft : H → left ∉ X) :
    Sparing i X H (binaryStep operand precedence start left) fun o => ∀ id ∈ o, id ∉ X := by
  refine peek.seq fun t => ?_
  split
  · split
    · refine advance.seq fun _ => skipNewlines.seq fun _ => hp.bind fun right =>
        (add ?_).bind fun id => pure fun h => ?_
      · simp +contextual [Node.children, hleft]
      · simpa using h.2
    · exact pure fun _ => by simp
  · exact pure fun _ => by simp

omit h in
theorem binary (hp : ∀ {H}, Sparing i X H operand (· ∉ X)) (levels : Nat) :
    Sparing i X H (binary operand levels) (· ∉ X) := by
  induction levels generalizing H with
  | zero => exact hp
  | succ levels ih =>
    exact Sparing.start.seq fun _ => ih.bind fun _ =>
      iterate (fun _ => binaryStep ih _ And.right) And.right

theorem ternary (commas : Bool) : Sparing i X H (ternary g commas) (· ∉ X) := by
  refine Sparing.start.seq fun _ => (binary (listOrOperand h commas) 7).bind fun condition =>
    (eat .question).seq fun found => ?_
  split
  · refine skipNewlines.seq fun _ => (h.expression commas).bind fun whenTrue =>
      skipNewlines.seq fun _ => (expect .colon).seq fun _ => skipNewlines.seq fun _ =>
        (h.expression commas).bind fun whenFalse => add ?_
    simp +contextual [Node.children]
  · exact pure And.right

/-! Statements. -/

omit h in
theorem label? : Sparing i X H label? fun _ => True := by
  refine place.seq fun q => ?_
  split
  · split
    · exact (advanceBy 2).seq fun _ => pure fun _ => trivial
    · exact pure fun _ => trivial
  · exact pure fun _ => trivial

omit h in
theorem jumpLabel? : Sparing i X H jumpLabel? fun _ => True := by
  refine peek.seq fun t => ?_
  split
  · exact advance.seq fun _ => pure fun _ => trivial
  · exact pure fun _ => trivial

theorem optionalPipeline : Sparing i X H (optionalPipeline g) fun o => ∀ id ∈ o, id ∉ X := by
  refine peek.seq fun t => ?_
  split
  iterate 5 exact pure fun _ => by simp
  exact (pipeline h).bind fun _ => pure fun h => by simpa using h.2

theorem condition : Sparing i X H (condition g) (· ∉ X) :=
  skipNewlines.seq fun _ => (expect .lparen).seq fun _ => skipNewlines.seq fun _ =>
    (pipeline h).bind fun _ => skipNewlines.seq fun _ => (expect .rparen).seq fun _ =>
      pure And.right

theorem clause : Sparing i X H (clause g) fun pair => pair.1 ∉ X ∧ pair.2 ∉ X :=
  (condition h).bind fun _ => (statementBlock h).bind fun _ => pure fun h => ⟨h.1.2, h.2⟩

omit h in
theorem afterWord? {keyword : String} {p : Parser α} {Q : α → Prop} (hp : Sparing i X H p Q) :
    Sparing i X H (afterWord? keyword p) fun o => ∀ a ∈ o, Q a := by
  refine place.seq fun before => skipNewlines.seq fun _ => (atWord _).seq fun found => ?_
  split
  · exact hp.bind fun _ => pure fun h => by simpa using h.2
  · exact (goto before).seq fun _ => pure fun _ => by simp

theorem ifStatement : Sparing i X H (ifStatement g start) (· ∉ X) := by
  refine advance.seq fun _ => (clause h).bind fun first =>
    (many (afterWord? (advance.seq fun _ => clause h))).bind fun others =>
      (afterWord? (advance.seq fun _ => statementBlock h)).bind fun elseBody => add ?_
  rintro ⟨⟨⟨-, hfirst⟩, hothers⟩, helse⟩ c hc
  rcases List.mem_append.mp hc with hc | hc
  · exact Node.forall_mem_pairs (P := (· ∉ X)) (List.forall_mem_cons.mpr ⟨hfirst, hothers⟩) c hc
  · exact helse c (Option.mem_toList.mp hc)

theorem whileLoop (label : Option String) : Sparing i X H (whileLoop g label start) (· ∉ X) :=
  advance.seq fun _ => (clause h).bind fun _ => add (by simp +contextual [Node.children])

theorem doLoop (label : Option String) : Sparing i X H (doLoop g label start) (· ∉ X) := by
  refine advance.seq fun _ => (statementBlock h).bind fun body => skipNewlines.seq fun _ =>
    (atWord _).seq fun found => ?_
  split
  · exact advance.seq fun _ => (condition h).bind fun _ =>
      add (by simp +contextual [Node.children])
  · refine (atWord _).seq fun found => ?_
    split
    · exact advance.seq fun _ => (condition h).bind fun _ =>
        add (by simp +contextual [Node.children])
    · exact unexpected _

theorem forPart (stop : Mark) : Sparing i X H (forPart g stop) fun o => ∀ id ∈ o, id ∉ X := by
  refine skipNewlines.seq fun _ => peek.seq fun t => ?_
  have hrest (part : Option NodeId) : Sparing i X (H ∧ ∀ id ∈ part, id ∉ X) (do
      Parser.skipNewlines
      Parser.expect stop
      return part) fun o => ∀ id ∈ o, id ∉ X :=
    skipNewlines.seq fun _ => (expect _).seq fun _ => pure And.right
  split
  · exact (pure (a := none) fun _ => by simp).bind hrest
  · exact ((pipeline h).map fun _ hid => by simpa using hid).bind hrest

theorem forLoop (label : Option String) : Sparing i X H (forLoop g label start) (· ∉ X) := by
  refine advance.seq fun _ => skipNewlines.seq fun _ => (expect .lparen).seq fun _ =>
    (forPart h _).bind fun first => (forPart h _).bind fun test => (forPart h _).bind fun step =>
      (statementBlock h).bind fun body => add ?_
  simp +contextual [Node.children, or_imp]

theorem forEach (label : Option String) : Sparing i X H (forEach g label start) (· ∉ X) := by
  refine advance.seq fun _ => skipNewlines.seq fun _ => (expect .lparen).seq fun _ =>
    skipNewlines.seq fun _ => (bareVariable _).bind fun item => skipNewlines.seq fun _ =>
      (atWord _).seq fun found => ?_
  split
  · refine advance.seq fun _ => skipNewlines.seq fun _ => (pipeline h).bind fun items =>
      skipNewlines.seq fun _ => (expect .rparen).seq fun _ => (statementBlock h).bind fun body =>
        add ?_
    simp +contextual [Node.children]
  · exact unexpected _

omit h in
theorem caughtTypesUpTo (n : Nat) :
    Sparing i X H (caughtTypesUpTo n) fun ids => ∀ id ∈ ids, id ∉ X := by
  induction n generalizing H with
  | zero => exact throw _
  | succ n ih =>
    refine peek.seq fun t => ?_
    split
    · refine typeConstraint.bind fun type => skipNewlines.seq fun _ =>
        (eat .comma).seq fun found => ?_
      split
      · refine skipNewlines.seq fun _ => ih.bind fun _ => pure fun h => ?_
        exact List.forall_mem_cons.mpr ⟨h.1.2, h.2⟩
      · exact pure fun h => by simpa using h.2
    · exact pure fun _ => by simp

omit h in
theorem caughtTypes : Sparing i X H caughtTypes fun ids => ∀ id ∈ ids, id ∉ X :=
  place.seq fun _ => caughtTypesUpTo _

theorem catchClause : Sparing i X H (catchClause g) (· ∉ X) :=
  Sparing.start.seq fun _ => advance.seq fun _ => caughtTypes.bind fun _ =>
    (statementBlock h).bind fun _ => add (by simp +contextual [Node.children, or_imp])

theorem tryStatement : Sparing i X H (tryStatement g start) (· ∉ X) := by
  refine advance.seq fun _ => (statementBlock h).bind fun body =>
    (many (afterWord? (catchClause h))).bind fun catches =>
      (afterWord? (advance.seq fun _ => statementBlock h)).bind fun cleanup => ?_
  split
  · exact refuse _
  · exact add (by simp +contextual [Node.children, or_imp])

theorem trap : Sparing i X H (trap g start) (· ∉ X) := by
  refine advance.seq fun _ => peek.seq fun t => ?_
  have hrest (type : Option NodeId) : Sparing i X (H ∧ ∀ id ∈ type, id ∉ X) (do
      let body ← Grammar.statementBlock g
      Parser.add (.trap type body) start) (· ∉ X) :=
    (statementBlock h).bind fun _ => add (by simp +contextual [Node.children, or_imp])
  split
  · exact (typeConstraint.map fun _ hid => by simpa using hid).bind hrest
  · exact (pure (a := none) fun _ => by simp).bind hrest

theorem functionDefinition (isFilter : Bool) :
    Sparing i X H (functionDefinition g isFilter start) (· ∉ X) := by
  refine advance.seq fun _ => peek.seq fun t => ?_
  split
  · refine bareWordText.seq fun name => (eat .lparen).seq fun found => ?_
    have hrest (parameters : List NodeId) : Sparing i X (H ∧ ∀ id ∈ parameters, id ∉ X) (do
        Parser.skipNewlines
        Parser.expect .lbrace
        let body ← Grammar.scriptBlock g .brace
        Parser.expect .rbrace
        Parser.add (.functionDefinition name isFilter parameters body) start) (· ∉ X) :=
      skipNewlines.seq fun _ => (expect .lbrace).seq fun _ => (scriptBlock h).bind fun _ =>
        (expect .rbrace).seq fun _ => add (by simp +contextual [Node.children, or_imp])
    split
    · exact (untilParen (parameter h)).bind hrest
    · exact (pure (a := []) fun _ => by simp).bind hrest
  · exact unexpected _

theorem loopRule? {keyword : String} {next : Option Token} {label : Option String}
    {rule : Parser NodeId} (hrule : loopRule? g keyword next label start = some rule) :
    Sparing i X H rule (· ∉ X) := by
  unfold Grammar.loopRule? at hrule
  split at hrule
  · exact Option.some.inj hrule ▸ whileLoop h label
  · exact Option.some.inj hrule ▸ doLoop h label
  · exact Option.some.inj hrule ▸ forLoop h label
  · split at hrule
    · exact Option.some.inj hrule ▸ forEach h label
    · cases hrule
  · cases hrule

theorem statementRule? {keyword : String} {rule : Parser NodeId}
    (hrule : statementRule? g keyword start = some rule) : Sparing i X H rule (· ∉ X) := by
  unfold Grammar.statementRule? at hrule
  split at hrule
  · exact Option.some.inj hrule ▸ functionDefinition h false
  · exact Option.some.inj hrule ▸ functionDefinition h true
  · exact Option.some.inj hrule ▸ ifStatement h
  · exact Option.some.inj hrule ▸ tryStatement h
  · exact Option.some.inj hrule ▸ trap h
  iterate 2
    · exact Option.some.inj hrule ▸ advance.seq fun _ => (optionalPipeline h).bind fun _ =>
        add (by simp +contextual [Node.children])
  iterate 2
    · exact Option.some.inj hrule ▸ advance.seq fun _ => jumpLabel?.seq fun _ =>
        add (by simp [Node.children])
  · cases hrule

theorem statement : Sparing i X H (statement g) (· ∉ X) := by
  refine Sparing.start.seq fun _ => label?.seq fun label => place.seq fun q => ?_
  dsimp only
  split
  · rename_i rule hrule
    obtain ⟨keyword, -, hrule⟩ := Option.bind_eq_some_iff.mp hrule
    exact loopRule? h hrule
  · split
    · exact refuse _
    · split
      · rename_i rule hrule
        obtain ⟨keyword, -, hrule⟩ := Option.bind_eq_some_iff.mp hrule
        exact statementRule? h hrule
      · exact pipeline h

end Nested

end Sparing

/-- At every depth the rules name only nodes that they are handed. -/
theorem sparing_nested (i : Input) (X : Set NodeId) (n : Nat) : SparingNested i X (nested n) := by
  induction n with
  | zero =>
    exact
      { statement := .guarded (.throw _)
        expression := fun _ => .guarded (.throw _)
        unary := .guarded (.throw _) }
  | succ n ih =>
    exact
      { statement := .guarded (.statement ih)
        expression := fun commas => .guarded (.ternary ih commas)
        unary := .guarded (.unary ih) }

end Grammar

end ScriptInject
