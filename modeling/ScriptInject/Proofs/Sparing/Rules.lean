import Mathlib.Order.Interval.Set.Defs
import ScriptInject.Proofs.Sparing.Statement
/-! Every rule leaves the depth and the recovery as they were, and an attempt to read a param block
that comes to nothing leaves only nodes on which nothing will ever stand. -/
namespace ScriptInject

namespace Arena

/-- Whatever is in the arena, or named in it, has an id that has been given out. -/
structure Numbered (a : Arena) : Prop where
  get?_lt : ∀ {id n}, a.get? id = some n → id < a.nextId
  child_lt : ∀ {id n}, a.get? id = some n → ∀ c ∈ n.children, c < a.nextId
  span?_lt : ∀ {id}, (a.span? id).isSome → id < a.nextId

theorem numbered_empty : Numbered {} where
  get?_lt h := by simp [Arena.get?] at h
  child_lt h := by simp [Arena.get?] at h
  span?_lt h := by simp [Arena.span?] at h

end Arena

namespace Grammar

variable {α : Type} {i : Input} {X : Set NodeId} {H : Prop} {g : Nested} {s t u : State}

/-- The rules of the grammar: the nodes that each of them is handed, and those that its result
names. -/
inductive Rule (g : Nested) :
    {α : Type} → Parser α → (handed : List NodeId) → (named : α → List NodeId) → Prop where
  -- types
  | dottedName : Rule g dottedName [] fun _ => []
  | typeNameUpTo (n) : Rule g (typeNameUpTo n) [] fun _ => []
  | typeArgument (n) : Rule g (typeArgument (Grammar.typeNameUpTo n)) [] fun _ => []
  | typeBracket (n t) : Rule g (typeBracket (Grammar.typeNameUpTo n) t) [] fun _ => []
  | typeName : Rule g typeName [] fun _ => []
  | typeConstraint : Rule g typeConstraint [] ([·])
  -- variables, annotations and parameters
  | variableRef (path start) : Rule g (variableRef path start) [] ([·])
  | bareVariable (expected) : Rule g (bareVariable expected) [] ([·])
  | annotationArgument : Rule g (annotationArgument g) [] ([·.id])
  | annotationArguments :
    Rule g (Parser.untilParen (Grammar.annotationArgument g)) [] (·.map (·.id))
  | bracketHead : Rule g (bracketHead g) [] BracketHead.ids
  | parameterHead : Rule g (parameterHead g) [] Option.toList
  | parameter : Rule g (parameter g) [] ([·])
  | parameters : Rule g (Parser.untilParen (Grammar.parameter g)) [] id
  | annotationsUpTo (n) : Rule g (annotationsUpTo g n) [] (·.getD [])
  | annotations : Rule g (annotations g) [] (·.getD [])
  | paramBlock? : Rule g (paramBlock? g) [] Option.toList
  -- commands and pipelines
  | bareWordText : Rule g bareWordText [] fun _ => []
  | bareWord : Rule g bareWord [] ([·])
  | operands (start) : Rule g (operands g start) [] ([·])
  | commandArgument : Rule g (commandArgument g) [] ([·])
  | commandParameter (word) : Rule g (commandParameter g word) [] ([·])
  | commandElement : Rule g (commandElement g) [] Option.toList
  | invocation? : Rule g invocation? [] fun _ => []
  | command : Rule g (command g) [] ([·])
  | atCommand (afterPipe) : Rule g (atCommand afterPipe) [] fun _ => []
  | expressionElement (expression) : Rule g (expressionElement expression) [expression] ([·])
  | laterElement : Rule g (laterElement g) [] ([·])
  | pipelineFrom (start first) : Rule g (pipelineFrom g start first) [first] ([·])
  | pipeline : Rule g (pipeline g) [] ([·])
  -- lists of statements and blocks
  | errorStatement (closer) : Rule g (errorStatement closer) [] ([·])
  | terminatedStatement (closer) : Rule g (terminatedStatement g closer) [] ([·])
  | listedStatement (closer) : Rule g (listedStatement g closer) [] Option.toList
  | statementList (closer) : Rule g (statementList g closer) [] id
  | statementBlock : Rule g (statementBlock g) [] ([·])
  | addNamedBlock (kind unnamed statements start) :
    Rule g (addNamedBlock kind unnamed statements start) statements ([·])
  | atNamedBlock? : Rule g atNamedBlock? [] fun _ => []
  | namedBlock (kind) : Rule g (namedBlock g kind) [] ([·])
  | listedNamedBlock : Rule g (listedNamedBlock g) [] Option.toList
  | listedUsing : Rule g listedUsing [] Option.toList
  | blocks (closer) : Rule g (blocks g closer) [] id
  | scriptBlock (closer) : Rule g (scriptBlock g closer) [] ([·])
  -- expressions
  | doubleQuoted (body kind start) : Rule g (doubleQuoted body kind start) [] ([·])
  | paren (start) : Rule g (paren g start) [] ([·])
  | statementsInParens : Rule g (statementsInParens g) [] id
  | hashtablePair : Rule g (hashtablePair g) [] (·.toList.flatMap fun p => [p.1, p.2])
  | hashtable (start) : Rule g (hashtable g start) [] ([·])
  | scriptBlockExpression (start) : Rule g (scriptBlockExpression g start) [] ([·])
  | arguments : Rule g (Parser.untilParen (g.expression false)) [] id
  | memberAccess {inner} (hinner : Rule g inner [] ([·])) (begin target isStatic nullConditional) :
    Rule g (memberAccess g inner begin target isStatic nullConditional) [target] ([·])
  | indexAccess (begin target nullConditional) :
    Rule g (indexAccess g begin target nullConditional) [target] ([·])
  | trailingUnary (begin operator target) :
    Rule g (trailingUnary begin operator target) [target] ([·])
  | access {inner} (hinner : Rule g inner [] ([·])) (begin target) :
    Rule g (access g inner begin target) [target] Option.toList
  | accesses {inner} (hinner : Rule g inner [] ([·])) (begin target) :
    Rule g (accesses g inner begin target) [target] ([·])
  | bracketExpression {inner} (hinner : Rule g inner [] ([·])) :
    Rule g (bracketExpression g inner) [] ([·])
  | primaryUpTo (n) : Rule g (primaryUpTo g n) [] ([·])
  | primary : Rule g (primary g) [] ([·])
  | unary : Rule g (unary g) [] ([·])
  | nestedUnary : Rule g g.unary [] ([·])
  | listOrOperand (commas) : Rule g (listOrOperand g commas) [] ([·])
  | binaryStep {operand} (hoperand : Rule g operand [] ([·])) (precedence begin left) :
    Rule g (binaryStep operand precedence begin left) [left] Option.toList
  | binary {operand} (hoperand : Rule g operand [] ([·])) (levels) :
    Rule g (binary operand levels) [] ([·])
  | ternary (commas) : Rule g (ternary g commas) [] ([·])
  | nestedExpression (commas) : Rule g (g.expression commas) [] ([·])
  -- statements
  | label? : Rule g label? [] fun _ => []
  | jumpLabel? : Rule g jumpLabel? [] fun _ => []
  | optionalPipeline : Rule g (optionalPipeline g) [] Option.toList
  | condition : Rule g (condition g) [] ([·])
  | clause : Rule g (clause g) [] fun p => [p.1, p.2]
  | ifStatement (start) : Rule g (ifStatement g start) [] ([·])
  | whileLoop (label start) : Rule g (whileLoop g label start) [] ([·])
  | doLoop (label start) : Rule g (doLoop g label start) [] ([·])
  | forPart (stop) : Rule g (forPart g stop) [] Option.toList
  | forLoop (label start) : Rule g (forLoop g label start) [] ([·])
  | forEach (label start) : Rule g (forEach g label start) [] ([·])
  | caughtTypesUpTo (n) : Rule g (caughtTypesUpTo n) [] id
  | caughtTypes : Rule g caughtTypes [] id
  | catchClause : Rule g (catchClause g) [] ([·])
  | tryStatement (start) : Rule g (tryStatement g start) [] ([·])
  | trap (start) : Rule g (trap g start) [] ([·])
  | functionDefinition (isFilter start) : Rule g (functionDefinition g isFilter start) [] ([·])
  | loopRule {keyword next label start rule}
    (h : loopRule? g keyword next label start = some rule) : Rule g rule [] ([·])
  | statementRule {keyword start rule} (h : statementRule? g keyword start = some rule) :
    Rule g rule [] ([·])
  | statement : Rule g (statement g) [] ([·])
  | nestedStatement : Rule g g.statement [] ([·])

namespace Sparing

variable {p : Parser α}

theorem none (h : Sparing i X H p fun _ => True) : Sparing i X H p fun _ => ∀ id ∈ [], id ∉ X :=
  h.imp id (by simp)

theorem one {p : Parser NodeId} (h : Sparing i X H p (· ∉ X)) :
    Sparing i X H p fun a => ∀ id ∈ [a], id ∉ X := h.imp id (by simp)

/-- A rule that is handed nothing may run whatever else is known. -/
theorem anyway {p : Parser NodeId}
    (h : Sparing i X (∀ id ∈ ([] : List NodeId), id ∉ X) p fun a => ∀ id ∈ [a], id ∉ X) {H : Prop} :
    Sparing i X H p (· ∉ X) := h.imp (by simp) (by simp)

theorem optional {p : Parser (Option NodeId)} (h : Sparing i X H p fun o => ∀ id ∈ o, id ∉ X) :
    Sparing i X H p fun o => ∀ id ∈ o.toList, id ∉ X := h.imp id (by simp)

theorem getD {p : Parser (Option (List NodeId))}
    (h : Sparing i X H p fun o => ∀ ids ∈ o, ∀ id ∈ ids, id ∉ X) :
    Sparing i X H p fun o => ∀ id ∈ o.getD [], id ∉ X := by
  refine h.imp id fun o ho => ?_
  cases o with
  | none => simp
  | some ids => exact ho ids rfl

end Sparing

/-- No rule names a node that it is not handed. -/
theorem Rule.sparing (hg : SparingNested i X g) {p : Parser α} {handed : List NodeId}
    {named : α → List NodeId} (h : Rule g p handed named) :
    Sparing i X (∀ id ∈ handed, id ∉ X) p fun a => ∀ id ∈ named a, id ∉ X := by
  induction h with
  | dottedName => exact Sparing.dottedName.none
  | typeNameUpTo n => exact (Sparing.typeNameUpTo n).none
  | typeArgument n => exact (Sparing.typeArgument (.typeNameUpTo n)).none
  | typeBracket n t => exact (Sparing.typeBracket (.typeNameUpTo n) t).none
  | typeName => exact Sparing.typeName.none
  | typeConstraint => exact Sparing.typeConstraint.one
  | variableRef path start => exact (Sparing.variableRef path start).one
  | bareVariable expected => exact (Sparing.bareVariable expected).one
  | annotationArgument => exact (Sparing.annotationArgument hg).imp id (by simp)
  | annotationArguments =>
    exact (Sparing.untilParen (.annotationArgument hg)).imp id (by simp)
  | bracketHead => exact .bracketHead hg
  | parameterHead => exact (Sparing.parameterHead hg).optional
  | parameter => exact (Sparing.parameter hg).one
  | parameters => exact .untilParen (.parameter hg)
  | annotationsUpTo n => exact (Sparing.annotationsUpTo hg n).getD
  | annotations => exact (Sparing.annotations hg).getD
  | paramBlock? => exact (Sparing.paramBlock? hg).optional
  | bareWordText => exact Sparing.bareWordText.none
  | bareWord => exact Sparing.bareWord.one
  | operands start => exact (Sparing.operands hg start).one
  | commandArgument => exact (Sparing.commandArgument hg).one
  | commandParameter word => exact (Sparing.commandParameter hg word).one
  | commandElement => exact (Sparing.commandElement hg).optional
  | invocation? => exact Sparing.invocation?.none
  | command => exact (Sparing.command hg).one
  | atCommand afterPipe => exact (Sparing.atCommand afterPipe).none
  | expressionElement expression => exact (Sparing.expressionElement (by simp)).one
  | laterElement => exact (Sparing.laterElement hg).one
  | pipelineFrom start first => exact (Sparing.pipelineFrom hg start (by simp)).one
  | pipeline => exact (Sparing.pipeline hg).one
  | errorStatement closer => exact Sparing.errorStatement.one
  | terminatedStatement closer => exact (Sparing.terminatedStatement hg).one
  | listedStatement closer => exact (Sparing.listedStatement hg).optional
  | statementList closer => exact .statementList hg
  | statementBlock => exact (Sparing.statementBlock hg).one
  | addNamedBlock kind unnamed statements start =>
    exact (Sparing.addNamedBlock kind unnamed id start).one
  | atNamedBlock? => exact Sparing.atNamedBlock?.none
  | namedBlock kind => exact (Sparing.namedBlock hg kind).one
  | listedNamedBlock => exact (Sparing.listedNamedBlock hg).optional
  | listedUsing => exact Sparing.listedUsing.optional
  | blocks closer => exact .blocks hg
  | scriptBlock closer => exact (Sparing.scriptBlock hg).one
  | doubleQuoted body kind start => exact (Sparing.doubleQuoted body kind start).one
  | paren start => exact (Sparing.paren hg start).one
  | statementsInParens => exact .statementsInParens hg
  | hashtablePair =>
    refine (Sparing.hashtablePair hg).imp id fun o ho => ?_
    cases o with
    | none => simp
    | some pair => simpa using ho pair rfl
  | hashtable start => exact (Sparing.hashtable hg start).one
  | scriptBlockExpression start => exact (Sparing.scriptBlockExpression hg start).one
  | arguments => exact .untilParen (hg.expression false)
  | memberAccess _ begin target isStatic nullConditional ih =>
    exact (Sparing.memberAccess hg (ih.anyway) (by simp) isStatic nullConditional).one
  | indexAccess begin target nullConditional =>
    exact (Sparing.indexAccess hg (by simp) nullConditional).one
  | trailingUnary begin operator target => exact (Sparing.trailingUnary operator (by simp)).one
  | access _ begin target ih => exact (Sparing.access hg ih.anyway (by simp)).optional
  | accesses _ begin target ih => exact (Sparing.accesses hg ih.anyway (by simp)).one
  | bracketExpression _ ih => exact (Sparing.bracketExpression hg ih.anyway).one
  | primaryUpTo n => exact (Sparing.primaryUpTo hg n).one
  | primary => exact (Sparing.primary hg).one
  | unary => exact (Sparing.unary hg).one
  | nestedUnary => exact hg.unary.one
  | listOrOperand commas => exact (Sparing.listOrOperand hg commas).one
  | binaryStep _ precedence begin left ih =>
    exact (Sparing.binaryStep ih.anyway precedence (by simp)).optional
  | binary _ levels ih => exact (Sparing.binary ih.anyway levels).one
  | ternary commas => exact (Sparing.ternary hg commas).one
  | nestedExpression commas => exact (hg.expression commas).one
  | label? => exact Sparing.label?.none
  | jumpLabel? => exact Sparing.jumpLabel?.none
  | optionalPipeline => exact (Sparing.optionalPipeline hg).optional
  | condition => exact (Sparing.condition hg).one
  | clause => exact (Sparing.clause hg).imp id (by simp)
  | ifStatement start => exact (Sparing.ifStatement hg).one
  | whileLoop label start => exact (Sparing.whileLoop hg label).one
  | doLoop label start => exact (Sparing.doLoop hg label).one
  | forPart stop => exact (Sparing.forPart hg stop).optional
  | forLoop label start => exact (Sparing.forLoop hg label).one
  | forEach label start => exact (Sparing.forEach hg label).one
  | caughtTypesUpTo n => exact .caughtTypesUpTo n
  | caughtTypes => exact .caughtTypes
  | catchClause => exact (Sparing.catchClause hg).one
  | tryStatement start => exact (Sparing.tryStatement hg).one
  | trap start => exact (Sparing.trap hg).one
  | functionDefinition isFilter start => exact (Sparing.functionDefinition hg isFilter).one
  | loopRule h => exact (Sparing.loopRule? hg h).one
  | statementRule h => exact (Sparing.statementRule? hg h).one
  | statement => exact (Sparing.statement hg).one
  | nestedStatement => exact hg.statement.one

section Runs

variable {n : Nat} {p : Parser α} {handed : List NodeId} {named : α → List NodeId}

theorem Outcome.final {P : State → Prop} {Q : α → State → Prop}
    (h : Outcome p i s (fun _ => P) fun a t => P t ∧ Q a t) : P (final (p i s)) := by
  rw [Outcome] at h
  cases hr : p i s with
  | ok a t =>
    rw [hr] at h
    exact h.1
  | error f t =>
    rw [hr] at h
    exact h

/-- Whatever becomes of a run of a rule, and wherever it starts. -/
theorem Rule.course (h : Rule (nested n) p handed named) (s : State) : Course s (final (p i s)) :=
  (h.sparing (sparing_nested i ∅ n)).course s

/-- All ids stay given out, and so are those of the nodes that a result names. -/
theorem Sparing.numbered
    (h : ∀ X, Sparing i X (∀ id ∈ handed, id ∉ X) p fun a => ∀ id ∈ named a, id ∉ X)
    (hs : s.arena.Numbered) (hhanded : ∀ id ∈ handed, id < s.arena.nextId) :
    Outcome p i s (fun _ t => t.arena.Numbered)
      fun a t => t.arena.Numbered ∧ ∀ id ∈ named a, id < t.arena.nextId := by
  have hcourse := (h ∅).course s
  -- the ids that have not been given out at the end of the run
  have hspares := (h (Set.Ici (final (p i s)).arena.nextId)).secluded
    (fun id hid => Nat.not_le.mpr (Nat.lt_of_lt_of_le (hhanded id hid) hcourse.nextId_le)) s
    (fun id m hm _ c hc =>
      Nat.not_le.mpr (Nat.lt_of_lt_of_le (hs.child_lt hm c hc) hcourse.nextId_le))
    fun _ hid => .inr hid
  have hlt {id : Nat} (hid : id < s.arena.nextId) : id < (final (p i s)).arena.nextId :=
    Nat.lt_of_lt_of_le hid hcourse.nextId_le
  have hget {id : Nat} {m : Node NodeId} (hm : (final (p i s)).arena.get? id = some m) :
      id < (final (p i s)).arena.nextId := by
    by_contra hid
    rw [hcourse.get?_eq id (.inr (Nat.not_lt.mp hid))] at hm
    exact hid (hlt (hs.get?_lt hm))
  have hnumbered : (final (p i s)).arena.Numbered := by
    refine ⟨hget, fun {id m} hm c hc => ?_, fun {id} hspan => ?_⟩
    · exact Nat.not_le.mp (hspares.final id m hm (Nat.not_le.mpr (hget hm)) c hc)
    · by_contra hid
      rw [hcourse.span?_eq id (.inr (Nat.not_lt.mp hid))] at hspan
      exact hid (hlt (hs.span?_lt hspan))
  rw [Outcome] at hspares ⊢
  cases hr : p i s with
  | ok a t =>
    rw [hr] at hspares hnumbered
    exact ⟨hnumbered, fun id hid => Nat.not_le.mp (hspares.2 id hid)⟩
  | error f t =>
    rw [hr] at hnumbered
    exact hnumbered

/-- What a reading may come to from a state in which it can name certain nodes, and the nodes that
it can name then. It runs rules that it hands such nodes, adds nodes that stand on such nodes, and
looks at their children; all but the arena may change in between. -/
inductive Later (i : Input) (s : State) (known : Set NodeId) : State → Set NodeId → Prop where
  | refl : Later i s known s known
  | ran {t : State} {K : Set NodeId} {n : Nat} {α : Type} {p : Parser α} {handed : List NodeId}
      {named : α → List NodeId} (h : Later i s known t K) (hp : Rule (nested n) p handed named)
      (hhanded : ∀ id ∈ handed, id ∈ K) : Later i s known (final (p i t))
        (K ∪ {id | ∃ a u, p i t = .ok a u ∧ id ∈ named a})
  | added {t : State} {K : Set NodeId} {m : Node NodeId} {span : Span} {id : NodeId} {a : Arena}
      (h : Later i s known t K) (hm : ∀ c ∈ m.children, c ∈ K)
      (hadd : t.arena.add m (some span) = .ok (id, a)) :
      Later i s known { t with arena := a } (insert id K)
  | looked {t : State} {K : Set NodeId} {id : NodeId} {m : Node NodeId} (h : Later i s known t K)
      (hid : id ∈ K) (hm : t.arena.get? id = some m) :
      Later i s known t (K ∪ {c | c ∈ m.children})
  | turned {t u : State} {K : Set NodeId} (h : Later i s known t K) (hu : u.arena = t.arena) :
      Later i s known u K

/-- Nodes that cannot be named stay secluded, and cannot be named later either. -/
theorem Later.secluded {known K : Set NodeId} (h : Later i s known t K) (hs : s.arena.Secluded X)
    (hX : ∀ id ∈ X, id < s.arena.nextId) (hknown : ∀ id ∈ known, id ∉ X) :
    t.arena.Secluded X ∧ (∀ id ∈ K, id ∉ X) ∧ s.arena.nextId ≤ t.arena.nextId := by
  induction h with
  | refl => exact ⟨hs, hknown, Nat.le_refl _⟩
  | @ran t K n _ p _ _ _ hp hhanded ih =>
    obtain ⟨ht, hK, hle⟩ := ih
    have hcourse := hp.course (i := i) t
    have hrun := (hp.sparing (sparing_nested i X n)).secluded
      (fun id hid => hK id (hhanded id hid)) t ht
      fun id hid => .inl (Nat.lt_of_lt_of_le (hX id hid) hle)
    refine ⟨hrun.final, ?_, Nat.le_trans hle hcourse.nextId_le⟩
    rintro id (hid | ⟨a, u, hr, hid⟩)
    · exact hK id hid
    · exact (hrun.of_ok hr).2 id hid
  | @added t K m span id a _ hm hadd ih =>
    obtain ⟨ht, hK, hle⟩ := ih
    refine ⟨ht.add hadd fun c hc => hK c (hm c hc), ?_, ?_⟩
    · rintro j (rfl | hj)
      · intro hj
        have hlt := hX _ hj
        rw [Arena.add_id hadd] at hlt
        exact Nat.not_lt.mpr hle hlt
      · exact hK j hj
    · exact Nat.le_trans hle (Course.add hadd).nextId_le
  | looked _ hid hm ih =>
    obtain ⟨ht, hK, hle⟩ := ih
    exact ⟨ht, fun c hc => hc.elim (hK c) (ht _ _ hm (hK _ hid) c), hle⟩
  | turned _ hu ih => rwa [hu]

/-- Without recovery nothing is noted. -/
theorem Sparing.speculatively_errors {Q : α → Prop} (h : Sparing i X H p Q) (s : State) :
    Outcome (Parser.speculatively p) i s (fun _ _ => True) fun _ t => t.errors = s.errors := by
  have hcourse := h.course { s with recovering := false }
  rw [Outcome, Parser.speculatively]
  cases hr : p i { s with recovering := false } with
  | ok a t =>
    rw [hr] at hcourse
    exact hcourse.strict rfl
  | error f t => trivial

/-- An attempt at a param block that comes to nothing goes back to where it began and notes
nothing. -/
theorem paramBlock?_none (hg : SparingNested i ∅ g) (hr : paramBlock? g i s = .ok none t) :
    t.place = s.place ∧ t.errors = s.errors := by
  suffices h : Outcome (paramBlock? g) i s (fun _ _ => True) fun o t =>
      o = none → t.place = s.place ∧ t.errors = s.errors from h.of_ok hr rfl
  have hany {β : Type} (q : Parser β) (u : State) :
      Outcome q i u (fun _ _ => True) fun _ _ => True := by
    rw [Outcome]
    cases q i u <;> trivial
  rw [paramBlock?, Outcome.place_bind, Outcome.start_bind]
  refine ((Sparing.annotations (H := True) hg).speculatively_errors s).bind fun found t ht => ?_
  rw [Outcome.atWord_bind, Outcome.place_bind]
  split
  · -- the block is there
    iterate 5 refine Outcome.bind (P := fun _ _ => True) (hany _ _) fun _ _ _ => ?_
    simp
  · rw [Outcome.goto_bind]
    exact fun _ => ⟨rfl, ht⟩

/-- An attempt from `s` that has come to nothing at `t`. All that it leaves are nodes. Whatever
comes later, no other node stands on one of them, and none of them can be named. -/
structure Retracted (i : Input) (s t : State) : Prop where
  place : t.place = s.place
  errors : t.errors = s.errors
  depth : t.depth = s.depth
  recovering : t.recovering = s.recovering
  root : t.arena.root? = s.arena.root?
  get? : ∀ id m, s.arena.get? id = some m →
    t.arena.get? id = some m ∧ t.arena.span? id = s.arena.span? id
  left : ∀ id, t.arena.get? id ≠ s.arena.get? id ∨ t.arena.span? id ≠ s.arena.span? id →
    id ∈ Set.Ico s.arena.nextId t.arena.nextId
  secluded : ∀ u K, Later i t (Set.Iio s.arena.nextId) u K →
    u.arena.Secluded (Set.Ico s.arena.nextId t.arena.nextId) ∧
      ∀ id ∈ K, id ∉ Set.Ico s.arena.nextId t.arena.nextId

theorem lt_or_le_of_notMem_Ico {id lo hi : Nat} (h : id ∉ Set.Ico lo hi) : id < lo ∨ hi ≤ id := by
  by_contra hid
  exact h ⟨by omega, by omega⟩

theorem retracted_of_paramBlock?_none (hs : s.arena.Numbered)
    (hr : paramBlock? (nested n) i s = .ok none t) : Retracted i s t := by
  have hcourse : Course s t := by
    have h := (Rule.paramBlock? (g := nested n)).course (i := i) s
    rwa [hr] at h
  obtain ⟨hplace, herrors⟩ := paramBlock?_none (sparing_nested i ∅ n) hr
  have hsecluded : t.arena.Secluded (Set.Ico s.arena.nextId t.arena.nextId) := by
    intro id m hm hid c hc hc'
    rw [hcourse.get?_eq id (lt_or_le_of_notMem_Ico hid)] at hm
    exact Nat.not_lt.mpr hc'.1 (hs.child_lt hm c hc)
  exact
    { place := hplace
      errors := herrors
      depth := hcourse.depth
      recovering := hcourse.recovering
      root := hcourse.root
      get? := fun id m hm =>
        have hlt := .inl (hs.get?_lt hm)
        ⟨(hcourse.get?_eq id hlt).trans hm, hcourse.span?_eq id hlt⟩
      left := fun id hne => by
        by_contra h
        have hout := lt_or_le_of_notMem_Ico h
        exact hne.elim (· (hcourse.get?_eq id hout)) (· (hcourse.span?_eq id hout))
      secluded := fun u K hu => by
        obtain ⟨hu, hK, -⟩ := hu.secluded hsecluded (fun _ hid => hid.2) fun _ hid hid' =>
          Nat.not_lt.mpr hid'.1 hid
        exact ⟨hu, hK⟩ }

/-- What a script block reads before it looks for a param block. -/
def scriptHead (closer : Closer) : Parser (List NodeId) := do
  Parser.skipTerminators
  if closer = .endOfText then Parser.many Grammar.listedUsing else pure []

theorem Sparing.scriptHead (closer : Closer) :
    Sparing i X H (scriptHead closer) fun ids => ∀ id ∈ ids, id ∉ X := by
  refine skipTerminators.seq fun _ => ?_
  split
  · exact many listedUsing
  · exact pure fun _ => by simp

/-- A script block in which the attempt at a param block comes to nothing. -/
theorem scriptBlock_run {closer : Closer} {usings : List NodeId} {r : State}
    (hhead : scriptHead closer i s = .ok usings r) (hnone : paramBlock? g i r = .ok none t) :
    scriptBlock g closer i s = (do
      Parser.skipTerminators
      let blocks ← blocks g closer
      Parser.add (.scriptBlock usings none blocks) (s.place.start i.text)) i t := by
  have hstart : Parser.start i s = .ok (s.place.start i.text) s := rfl
  rw [scriptHead, Lockstep.bind_run] at hhead
  rw [scriptBlock, Lockstep.bind_run, hstart]
  dsimp only
  rw [Lockstep.bind_run]
  cases hskip : Parser.skipTerminators i s with
  | error f u =>
    rw [hskip] at hhead
    cases hhead
  | ok _ u =>
    rw [hskip] at hhead
    dsimp only at hhead ⊢
    split at hhead
    · rename_i hc
      rw [if_pos hc, Lockstep.bind_run, hhead]
      dsimp only
      rw [Lockstep.bind_run, hnone]
    · rename_i hc
      rw [if_neg hc, Lockstep.bind_run, hhead]
      dsimp only
      rw [Lockstep.bind_run, hnone]

/-- What such a script block comes to is later than the attempt, and its node can be named then. -/
theorem later_scriptBlock {closer : Closer} {usings : List NodeId} {r : State}
    (hs : s.arena.Numbered) (hhead : scriptHead closer i s = .ok usings r)
    (hnone : paramBlock? (nested n) i r = .ok none t) : ∃ K,
      Later i t (Set.Iio r.arena.nextId) (final (scriptBlock (nested n) closer i s)) K ∧
        ∀ id u, scriptBlock (nested n) closer i s = .ok id u → id ∈ K := by
  have hnames (X : Set NodeId) : Sparing i X (∀ id ∈ ([] : List NodeId), id ∉ X)
      (scriptHead closer) fun ids => ∀ id ∈ ids, id ∉ X := .scriptHead closer
  have husings : ∀ id ∈ usings, id < r.arena.nextId :=
    ((Sparing.numbered hnames hs (by simp)).of_ok hhead).2
  have hskip : Parser.skipTerminators i t = .ok () { t with
      place := t.place.past fun u => u == .newline || u == .mark .semicolon } := rfl
  generalize t.place.past _ = q at hskip
  have hafter : Later i t (Set.Iio r.arena.nextId) t (Set.Iio r.arena.nextId) := .refl
  have hskipped := hafter.turned (u := { t with place := q }) rfl
  have hblocks := hskipped.ran (Rule.blocks (g := nested n) closer) (by simp)
  rw [scriptBlock_run hhead hnone, Lockstep.bind_run, hskip]
  dsimp only
  rw [Lockstep.bind_run]
  cases hr : blocks (nested n) closer i { t with place := q } with
  | error f u =>
    rw [hr] at hblocks
    exact ⟨_, hblocks, by simp⟩
  | ok ids u =>
    rw [hr] at hblocks
    have hchildren : ∀ c ∈ (Node.scriptBlock usings none ids).children,
        c ∈ Set.Iio r.arena.nextId ∪ {id | ∃ a v, EStateM.Result.ok ids u =
          (.ok a v : EStateM.Result Failure State (List NodeId)) ∧ id ∈ a} := by
      intro c hc
      rw [Node.children, Option.toList_none, List.append_nil, List.mem_append] at hc
      exact hc.imp (husings c) fun hc => ⟨ids, u, rfl, hc⟩
    dsimp only
    rw [Parser.add, Lockstep.bind_run]
    change ∃ K, Later i t _ (final (Parser.addAt _ _ i u)) K ∧
      ∀ id v, Parser.addAt _ _ i u = .ok id v → id ∈ K
    rw [Lockstep.addAt_run]
    cases hadd : u.arena.add _ _ with
    | error e => exact ⟨_, hblocks, by simp⟩
    | ok added =>
      refine ⟨_, hblocks.added hchildren hadd, ?_⟩
      rintro _ _ ⟨⟩
      exact .inl rfl

/-- Every rule, wherever it starts and however it ends, leaves the depth and the recovery as they
were, and ids given out. An attempt at a param block that comes to nothing leaves nothing but nodes
that are out of reach, and whatever the script block goes on to do comes later in this sense. -/
theorem rules_restore (i : Input) (n : Nat) :
    (∀ {α : Type} {p : Parser α} {handed : List NodeId} {named : α → List NodeId},
      Rule (nested n) p handed named → ∀ s,
        (final (p i s)).depth = s.depth ∧ (final (p i s)).recovering = s.recovering ∧
        (s.arena.Numbered → (∀ id ∈ handed, id < s.arena.nextId) →
          (final (p i s)).arena.Numbered)) ∧
    (∀ s t, s.arena.Numbered → paramBlock? (nested n) i s = .ok none t → Retracted i s t) ∧
    ∀ closer usings s r t, s.arena.Numbered → scriptHead closer i s = .ok usings r →
      paramBlock? (nested n) i r = .ok none t → ∃ K,
        Later i t (Set.Iio r.arena.nextId) (final (scriptBlock (nested n) closer i s)) K ∧
          ∀ id u, scriptBlock (nested n) closer i s = .ok id u → id ∈ K := by
  refine ⟨fun h s => ⟨(h.course s).depth, (h.course s).recovering, fun hs hhanded => ?_⟩,
    fun _ _ => retracted_of_paramBlock?_none, fun _ _ _ _ _ => later_scriptBlock⟩
  exact (Sparing.numbered (fun X => h.sparing (sparing_nested i X n)) hs hhanded).final

end Runs

/-- `[A()]x`, before which a param block might stand. -/
def annotatedWord : State where
  place :=
    { rest := [⟨.mark .lbracket, ⟨0, 1⟩⟩, ⟨.word "A", ⟨1, 2⟩⟩, ⟨.mark .lparen, ⟨2, 3⟩⟩,
        ⟨.mark .rparen, ⟨3, 4⟩⟩, ⟨.mark .rbracket, ⟨4, 5⟩⟩, ⟨.word "x", ⟨5, 6⟩⟩] }
  recovering := true

theorem rules_restore_annotatedWord :
    (final (statement (nested 128) ⟨"[A()]x".toList, 128⟩ annotatedWord)).depth = 0 ∧
    ∃ t, paramBlock? (nested 128) ⟨"[A()]x".toList, 128⟩ annotatedWord = .ok none t ∧
      t.arena.nextId = 2 ∧ Retracted ⟨"[A()]x".toList, 128⟩ annotatedWord t :=
  ⟨((rules_restore _ 128).1 .statement annotatedWord).1, _, rfl, rfl,
    (rules_restore _ 128).2.1 _ _ Arena.numbered_empty rfl⟩

end Grammar

end ScriptInject
