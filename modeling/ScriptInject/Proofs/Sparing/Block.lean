import ScriptInject.Proofs.Spans.Attribute
import ScriptInject.Proofs.Sparing.Basic
/-! Types, annotations, commands and blocks name only nodes that they are handed. -/
namespace ScriptInject.Grammar

variable {α : Type} {i : Input} {X : Set NodeId} {H : Prop} {g : Nested} {closer : Closer}

/-- The rules that contain themselves name no id of `X`. -/
structure SparingNested (i : Input) (X : Set NodeId) (g : Nested) : Prop where
  statement : ∀ {H}, Sparing i X H g.statement (· ∉ X)
  expression : ∀ {H} commas, Sparing i X H (g.expression commas) (· ∉ X)
  unary : ∀ {H}, Sparing i X H g.unary (· ∉ X)

namespace Sparing

/-! Types. -/

theorem dottedName : Sparing i X H dottedName fun _ => True := by
  refine peek.seq fun t => ?_
  split
  · refine advance.seq fun _ => (many (Q := fun _ => True) (peek.seq fun t =>
      peekNext.seq fun u => ?_)).seq fun _ => pure fun _ => trivial
    split
    · exact (advanceBy 2).seq fun _ => pure fun _ => by simp
    · exact pure fun _ => by simp
  · exact unexpected _

theorem typeArgument {typeName : Parser TypeName} (h : Sparing i X H typeName fun _ => True) :
    Sparing i X H (typeArgument typeName) fun _ => True := by
  refine (eat .lbracket).seq fun found => ?_
  split
  · exact h.seq fun _ => (expect .rbracket).seq fun _ => pure fun _ => trivial
  · exact h

theorem typeBracket {typeName : Parser TypeName} (h : Sparing i X H typeName fun _ => True)
    (t : TypeName × Nat) : Sparing i X H (typeBracket typeName t) fun _ => True := by
  refine peek.seq fun u => ?_
  split
  · refine peekNext.seq fun v => ?_
    split
    · exact (advanceBy 2).seq fun _ => pure fun _ => trivial
    · exact start.seq fun _ => refuse _
    · exact advance.seq fun _ => (typeArgument h).seq fun _ =>
        (afterCommas (typeArgument h)).seq fun _ => (expect .rbracket).seq fun _ =>
          pure fun _ => trivial
    · exact pure fun _ => trivial
  · exact pure fun _ => trivial

theorem typeNameUpTo (n : Nat) : Sparing i X H (typeNameUpTo n) fun _ => True := by
  induction n generalizing H with
  | zero => exact throw _
  | succ n ih =>
    refine dottedName.seq fun name => (iterate (Q := fun _ => True) (fun t => ?_) ?_).seq fun t =>
      pure fun _ => trivial
    · exact (typeBracket ih t).imp id (by simp)
    · simp

theorem typeName : Sparing i X H typeName fun _ => True := place.seq fun _ => typeNameUpTo _

theorem typeConstraint : Sparing i X H typeConstraint (· ∉ X) :=
  start.seq fun _ => (expect .lbracket).seq fun _ => typeName.seq fun _ =>
    (expect .rbracket).seq fun _ => add (by simp [Node.children])

/-! Variables, annotations and parameters. -/

theorem variableRef (path : String) (start : Nat) :
    Sparing i X H (variableRef path start) (· ∉ X) := by
  unfold Grammar.variableRef
  dsimp only
  split
  · split
    · exact throw _
    · split
      · exact (add (by simp [Node.children])).bind fun target => add (by simp [Node.children])
      · exact add (by simp [Node.children])
  · exact add (by simp [Node.children])

theorem bareVariable (expected : String) : Sparing i X H (bareVariable expected) (· ∉ X) := by
  refine start.seq fun _ => peek.seq fun t => ?_
  split
  · exact advance.seq fun _ => variableRef _ _
  · exact unexpected _

section Nested

variable (h : SparingNested i X g)
include h

theorem annotationArgument : Sparing i X H (annotationArgument g) (·.id ∉ X) := by
  refine start.seq fun _ => peek.seq fun t => peekNext.seq fun u => ?_
  have hlone {name : String} {start : Nat} : Sparing i X H (do
      Parser.advance
      return Argument.named (← Parser.add (.namedArgument name none) start)) (·.id ∉ X) :=
    advance.seq fun _ => (add (by simp [Node.children])).bind fun _ => pure And.right
  split
  · refine (advanceBy 2).seq fun _ => skipNewlines.seq fun _ => (h.expression false).bind
      fun value => ?_
    exact (add (by simp [Node.children])).bind fun _ => pure And.right
  iterate 3 exact hlone
  exact (h.expression false).bind fun _ => pure And.right

theorem bracketHead : Sparing i X H (bracketHead g) fun head => ∀ id ∈ head.ids, id ∉ X := by
  refine start.seq fun _ => (expect .lbracket).seq fun _ => typeName.seq fun t =>
    (eat .lparen).seq fun found => ?_
  split
  · refine (untilParen (annotationArgument h)).bind fun arguments => (expect .rbracket).seq fun _ =>
      (add ?_).bind fun id => pure fun h => by simpa [BracketHead.ids] using h.2
    -- whether named or not, each argument is one of those that have been read
    rintro ⟨-, harguments⟩ c hc
    obtain ⟨a, ha, rfl⟩ := List.mem_map.mp ((Argument.fills t arguments).perm.mem_iff.mp hc)
    exact harguments a ha
  · exact (expect .rbracket).seq fun _ => pure fun _ => by simp [BracketHead.ids]

theorem parameterHead : Sparing i X H (parameterHead g) fun o => ∀ id ∈ o, id ∉ X := by
  refine start.seq fun _ => peek.seq fun t => ?_
  split
  · refine (bracketHead h).bind fun head => ?_
    cases head with
    | attributeSpec id =>
      refine skipNewlines.seq fun _ => pure fun h => ?_
      simpa [BracketHead.ids] using h.2
    | type t =>
      refine (add (by simp [Node.children])).bind fun id => skipNewlines.seq fun _ =>
        pure fun h => ?_
      simpa using h.2
  · exact pure fun _ => by simp

theorem parameter : Sparing i X H (parameter g) (· ∉ X) := by
  refine start.seq fun _ => (many (parameterHead h)).bind fun annotations =>
    (bareVariable _).bind fun name => (eat .assign).seq fun found => ?_
  split
  · refine skipNewlines.seq fun _ => (h.expression false).bind fun value => add ?_
    simp +contextual [Node.children, or_imp]
  · refine add ?_
    simp +contextual [Node.children, or_imp]

theorem annotationsUpTo (n : Nat) :
    Sparing i X H (annotationsUpTo g n) fun o => ∀ ids ∈ o, ∀ id ∈ ids, id ∉ X := by
  induction n generalizing H with
  | zero => exact throw _
  | succ n ih =>
    refine peek.seq fun t => ?_
    split
    · refine (attempt (bracketHead h)).bind fun head => ?_
      split
      · refine skipNewlines.seq fun _ => ih.bind fun found => pure ?_
        rintro ⟨⟨-, hhead⟩, hfound⟩ ids hids
        obtain ⟨others, hothers, rfl⟩ := Option.map_eq_some_iff.mp hids
        exact List.forall_mem_cons.mpr
          ⟨hhead _ rfl _ (List.mem_singleton_self _), hfound others hothers⟩
      · exact pure fun _ => by simp
    · exact pure fun _ => by simp

theorem annotations : Sparing i X H (annotations g) fun o => ∀ ids ∈ o, ∀ id ∈ ids, id ∉ X :=
  place.seq fun _ => annotationsUpTo h _

theorem paramBlock? : Sparing i X H (paramBlock? g) fun o => ∀ id ∈ o, id ∉ X := by
  refine place.seq fun before => start.seq fun _ => (speculatively (annotations h)).bind
    fun found => (atWord _).seq fun named => place.seq fun q => ?_
  split
  · refine advance.seq fun _ => skipNewlines.seq fun _ => (expect .lparen).seq fun _ =>
      (untilParen (parameter h)).bind fun parameters => (add ?_).bind fun id => pure fun h => ?_
    · simp +contextual [Node.children, or_imp]
    · simpa using h.2
  · exact (goto before).seq fun _ => pure fun _ => by simp

/-! Commands and pipelines. -/

omit h in
theorem bareWordText : Sparing i X H bareWordText fun _ => True := by
  refine place.seq fun q => ?_
  split
  · exact pure fun _ => trivial
  · exact (advanceBy _).seq fun _ => slice _ _

omit h in
theorem bareWord : Sparing i X H bareWord (· ∉ X) :=
  start.seq fun _ => bareWordText.seq fun _ => add (by simp [Node.children])

theorem operands (start : Nat) : Sparing i X H (operands g start) (· ∉ X) := by
  refine h.unary.bind fun first => peek.seq fun t => ?_
  split
  · refine (afterCommas (skipNewlines.seq fun _ => h.unary)).bind fun others => add ?_
    simp +contextual [Node.children]
  · exact pure And.right

theorem commandArgument : Sparing i X H (commandArgument g) (· ∉ X) := by
  refine start.seq fun _ => peek.seq fun t => ?_
  split
  iterate 5 exact bareWord
  exact operands h _

theorem commandParameter (dashWord : String) :
    Sparing i X H (commandParameter g dashWord) (· ∉ X) := by
  refine start.seq fun _ => advance.seq fun _ => ?_
  dsimp only
  split
  · exact (commandArgument h).bind fun argument => add (by simp [Node.children])
  · exact add (by simp [Node.children])

theorem commandElement : Sparing i X H (commandElement g) fun o => ∀ id ∈ o, id ∉ X := by
  refine peek.seq fun t => ?_
  split
  iterate 6 exact pure fun _ => by simp
  · exact (commandParameter h _).bind fun id => pure fun h => by simpa using h.2
  · exact (commandArgument h).bind fun id => pure fun h => by simpa using h.2

omit h in
theorem invocation? : Sparing i X H invocation? fun _ => True := by
  refine peek.seq fun t => ?_
  split
  · exact advance.seq fun _ => pure fun _ => trivial
  · refine place.seq fun q => ?_
    split
    · exact pure fun _ => trivial
    · exact advance.seq fun _ => pure fun _ => trivial
  · exact pure fun _ => trivial

theorem command : Sparing i X H (command g) (· ∉ X) := by
  refine start.seq fun _ => invocation?.seq fun invocation => ?_
  have hrest (name : NodeId) {start : Nat} : Sparing i X (H ∧ name ∉ X) (do
      let others ← Parser.many (Grammar.commandElement g)
      Parser.add (.command invocation (name :: others)) start) (· ∉ X) :=
    (many (commandElement h)).bind fun others => add (by simp +contextual [Node.children])
  split
  · exact (commandArgument h).bind fun name => hrest name
  · exact bareWord.bind fun name => hrest name

omit h in
theorem atCommand (afterPipe : Bool) : Sparing i X H (atCommand afterPipe) fun _ => True := by
  refine peek.seq fun t => ?_
  split <;> exact pure fun _ => trivial

omit h in
theorem expressionElement {expression : NodeId} (he : H → expression ∉ X) :
    Sparing i X H (expressionElement expression) (· ∉ X) :=
  get.seq fun _ => addAt _ _ (by simpa [Node.children] using he)

theorem laterElement : Sparing i X H (laterElement g) (· ∉ X) := by
  refine skipNewlines.seq fun _ => (atCommand true).seq fun named => ?_
  split
  · exact command h
  · exact (h.expression true).bind fun _ => expressionElement And.right

theorem pipelineFrom (start : Nat) {first : NodeId} (hfirst : H → first ∉ X) :
    Sparing i X H (pipelineFrom g start first) (· ∉ X) := by
  refine (many (Q := (· ∉ X)) ((eat .pipe).seq fun found => ?_)).bind fun others => add ?_
  · split
    · exact (laterElement h).bind fun id => pure fun h => by simpa using h.2
    · exact pure fun _ => by simp
  · simp +contextual [Node.children, hfirst]

theorem pipeline : Sparing i X H (pipeline g) (· ∉ X) := by
  refine start.seq fun _ => (atCommand false).seq fun named => ?_
  split
  · exact (command h).bind fun _ => pipelineFrom h _ And.right
  · refine (h.expression true).bind fun expression => peek.seq fun t => ?_
    split
    · refine advance.seq fun _ => skipNewlines.seq fun _ => h.statement.bind fun right => add ?_
      simp +contextual [Node.children]
    · exact (expressionElement And.right).bind fun _ => pipelineFrom h _ And.right

/-! Lists of statements and blocks. -/

omit h in
theorem errorStatement : Sparing i X H (errorStatement closer) (· ∉ X) :=
  start.seq fun _ => place.seq fun _ => (advanceBy _).seq fun _ => place.seq fun _ =>
    (slice _ _).seq fun _ => add (by simp [Node.children])

theorem terminatedStatement : Sparing i X H (terminatedStatement g closer) (· ∉ X) := by
  refine h.statement.bind fun id => place.seq fun q => ?_
  dsimp only
  split
  iterate 3 exact pure And.right
  split
  · exact pure And.right
  · exact unexpected _

theorem listedStatement :
    Sparing i X H (listedStatement g closer) fun o => ∀ id ∈ o, id ∉ X := by
  refine skipTerminators.seq fun _ => peek.seq fun t => ?_
  split
  · exact pure fun _ => by simp
  · exact (orElseKeep (terminatedStatement h) errorStatement).bind fun id =>
      pure fun h => by simpa using h.2

theorem statementList :
    Sparing i X H (statementList g closer) fun ids => ∀ id ∈ ids, id ∉ X := many (listedStatement h)

theorem statementBlock : Sparing i X H (statementBlock g) (· ∉ X) :=
  skipNewlines.seq fun _ => start.seq fun _ => (expect .lbrace).seq fun _ =>
    (statementList h).bind fun _ => (expect .rbrace).seq fun _ => add (by simp [Node.children])

omit h in
theorem addNamedBlock (kind : BlockKind) (unnamed : Bool) {statements : List NodeId}
    (hs : H → ∀ id ∈ statements, id ∉ X) (start : Nat) :
    Sparing i X H (addNamedBlock kind unnamed statements start) (· ∉ X) := by
  refine get.seq fun s => add fun hH c hc => ?_
  rcases List.mem_append.mp hc with hc | hc
  · exact hs hH c (List.mem_filter.mp hc).1
  · exact hs hH c (List.mem_filter.mp hc).1

omit h in
theorem atNamedBlock? : Sparing i X H atNamedBlock? fun _ => True := by
  refine place.seq fun q => ?_
  split <;> exact pure fun _ => trivial

theorem namedBlock (kind : BlockKind) : Sparing i X H (namedBlock g kind) (· ∉ X) :=
  start.seq fun _ => advance.seq fun _ => skipNewlines.seq fun _ => (expect .lbrace).seq fun _ =>
    (statementList h).bind fun _ => (expect .rbrace).seq fun _ => addNamedBlock _ _ And.right _

theorem listedNamedBlock : Sparing i X H (listedNamedBlock g) fun o => ∀ id ∈ o, id ∉ X := by
  refine atNamedBlock?.seq fun kind => ?_
  split
  · exact (namedBlock h _).bind fun id => skipTerminators.seq fun _ =>
      pure fun h => by simpa using h.2
  · exact pure fun _ => by simp

omit h in
theorem listedUsing : Sparing i X H listedUsing fun o => ∀ id ∈ o, id ∉ X := by
  refine start.seq fun _ => (atWord _).seq fun found => ?_
  split
  · refine peekNext.seq fun next => ?_
    split
    · split
      · refine (advanceBy 2).seq fun _ => start.seq fun _ => place.seq fun _ =>
          (advanceBy _).seq fun _ => ?_
        split
        · exact unexpected _
        · exact (slice _ _).seq fun _ => (add (by simp [Node.children])).bind fun id =>
            skipTerminators.seq fun _ => pure fun h => by simpa using h.2
      · exact pure fun _ => by simp
    · exact pure fun _ => by simp
  · exact pure fun _ => by simp

theorem blocks : Sparing i X H (blocks g closer) fun ids => ∀ id ∈ ids, id ∉ X := by
  refine atNamedBlock?.seq fun kind => ?_
  split
  · refine (many (listedNamedBlock h)).bind fun ids => peek.seq fun t => ?_
    split
    · exact pure And.right
    · exact unexpected _
  · refine start.seq fun _ => (statementList h).bind fun statements => ?_
    split
    · exact pure fun _ => by simp
    · exact (addNamedBlock _ _ And.right _).bind fun id => pure fun h => by simpa using h.2

theorem scriptBlock : Sparing i X H (scriptBlock g closer) (· ∉ X) := by
  refine start.seq fun _ => skipTerminators.seq fun _ => ?_
  have hrest (usings : List NodeId) {start : Nat} :
      Sparing i X (H ∧ ∀ id ∈ usings, id ∉ X) (do
        let params ← Grammar.paramBlock? g
        Parser.skipTerminators
        let blocks ← Grammar.blocks g closer
        Parser.add (.scriptBlock usings params blocks) start) (· ∉ X) :=
    (paramBlock? h).bind fun params => skipTerminators.seq fun _ => (blocks h).bind fun ids =>
      add (by simp +contextual [Node.children, or_imp])
  split
  · exact (many listedUsing).bind fun usings => hrest usings
  · exact (pure (a := []) fun _ => by simp).bind fun usings => hrest usings

end Nested

end Sparing

end ScriptInject.Grammar
