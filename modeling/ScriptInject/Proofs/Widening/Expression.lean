import ScriptInject.Proofs.Widening.Block
/-! Expressions, with and without room to spare. -/
namespace ScriptInject.Grammar

/-- The run adds one node at most, and fails only if no id is left. -/
inductive Closes (s : State) : EStateM.Result Failure State NodeId → Prop
  | ok {id a} : (s.arena.Full → a.Full) → Closes s (.ok id { s with arena := a })
  | full {e} : s.arena.Full → Closes s (.error e s)

namespace Closes

variable {i : Input} {s : State}

theorem pure (id : NodeId) : Closes s ((Pure.pure id : Parser NodeId) i s) := .ok fun h => h

theorem add (n : Node NodeId) (start : Nat) : Closes s (Parser.add n start i s) := by
  change Closes s (Parser.addAt n ⟨start, max s.place.stop start⟩ i s)
  rw [Lockstep.addAt_run]
  cases hadd : s.arena.add n (some ⟨start, max s.place.stop start⟩) with
  | error e => exact .full (Arena.full_of_add hadd)
  | ok r =>
    refine .ok fun hfull => ?_
    rw [hfull.add] at hadd
    cases hadd

end Closes

namespace Widens

variable {σ : Widening}

theorem of_closes {p q : Parser NodeId} (he : ¬ σ.equal) (hp : ∀ i s, Closes s (p i s))
    (hq : ∀ i s, Closes s (q i s)) : Widens σ veiled p q := by
  have hrest {i : Input} {p : Parser NodeId} (hp : ∀ i s, Closes s (p i s)) : Rests i p := by
    intro s
    have hs := hp i s
    generalize p i s = r at hs
    cases hs with
    | ok h => exact ⟨h, rfl, rfl⟩
    | full _ => exact .refl s
  refine ⟨hrest hp, hrest hq, fun {s s' id t} ha hr => ?_⟩
  have hs := hp σ.narrow s
  rw [hr] at hs
  cases hs with
  | ok _ =>
    have hs' := hq σ.wide s'
    generalize q σ.wide s' = r at hs'
    cases hs' with
    | ok _ => exact .ok (.veiled fun h => absurd h he) { ha with arena := fun h => absurd h he }
    | full hfull => exact .full he hfull

theorem doubleQuoted {body : String} {kind : StringKind} {start : Nat} :
    Widens σ veiled (doubleQuoted body kind start) (doubleQuoted body kind start) := by
  rw [Grammar.doubleQuoted]
  split <;> exact add fun _ => rfl

theorem trailingUnary {begin : Nat} {operator : UnaryOperator} {target target' : NodeId}
    (h : σ.Same veiled target target') :
    Widens σ veiled (trailingUnary begin operator target)
      (trailingUnary begin operator target') := by
  rw [Grammar.trailingUnary, Grammar.trailingUnary]
  exact advance_bind (add fun he => by rw [h.eq he])

section Binary

variable {p q : Parser NodeId} (hp : Widens σ veiled p q)
include hp

theorem binaryStep {precedence begin : Nat} {left left' : NodeId} (h : σ.Same veiled left left') :
    Widens σ (Option.map veiled) (binaryStep p precedence begin left)
      (binaryStep q precedence begin left') := by
  rw [Grammar.binaryStep, Grammar.binaryStep]
  refine peek_bind fun t => ?_
  split
  · split
    · refine advance_bind (skipNewlines_bind (bind hp fun right right' hr => some_bind ?_))
      exact add fun he => by rw [h.eq he, hr.eq he]
    · exact pure (.refl _)
  · exact pure (.refl _)

theorem binary (levels : Nat) : Widens σ veiled (binary p levels) (binary q levels) := by
  induction levels with
  | zero => exact hp
  | succ levels ih =>
    rw [Grammar.binary, Grammar.binary]
    exact start_bind fun start => bind ih fun _ _ h => iterate (fun _ _ => binaryStep ih) h

end Binary

variable {g g' : Nested} (hg : Widened σ g g')
include hg

theorem paren {start : Nat} : Widens σ veiled (paren g start) (paren g' start) := by
  rw [Grammar.paren, Grammar.paren]
  refine advance_bind (skipNewlines_bind (bind (pipeline hg) fun statement statement' h => ?_))
  refine skipNewlines_bind (expect_bind (get_bind fun {s s'} harena => ?_))
  by_cases he : σ.equal
  · rw [h.eq he, harena he]
    split
    · exact pure (.refl _)
    · exact add fun _ => rfl
  -- Whether a list stands in the parentheses is not known, but either way they are closed.
  · refine of_closes he (fun i t => ?_) fun i t => ?_
    · cases loneArray? s.arena statement with
      | some array => exact .pure array
      | none => exact .add _ _
    · cases loneArray? s'.arena statement' with
      | some array => exact .pure array
      | none => exact .add _ _

theorem statementsInParens :
    Widens σ (List.map veiled) (statementsInParens g) (statementsInParens g') := by
  rw [Grammar.statementsInParens, Grammar.statementsInParens]
  exact advance_bind (bind (statementList hg) fun _ _ h => expect_bind (pure h))

theorem hashtablePair :
    Widens σ (Option.map veiled) (hashtablePair g) (hashtablePair g') := by
  rw [Grammar.hashtablePair, Grammar.hashtablePair]
  refine skipTerminators_bind (eat_ite (pure (.refl _)) (peek_bind fun t => ?_))
  split
  case' h_1 => refine bind bareWord fun key key' h => ?_
  case' h_2 => refine bind hg.unary fun key key' h => ?_
  all_goals
    refine skipNewlines_bind (expect_bind (skipNewlines_bind ?_))
    refine bind hg.statement fun value value' hv => peek_bind fun t => ?_
    split
    iterate 3 exact pure (.some (.veiled fun he => by rw [h.eq he, hv.eq he]))
    exact unexpected

theorem hashtable {start : Nat} : Widens σ veiled (hashtable g start) (hashtable g' start) := by
  rw [Grammar.hashtable, Grammar.hashtable]
  exact advance_bind (bind (many (hashtablePair hg)) fun _ _ h => add fun he => by rw [h.eq he])

theorem scriptBlockExpression {start : Nat} :
    Widens σ veiled (scriptBlockExpression g start) (scriptBlockExpression g' start) := by
  rw [Grammar.scriptBlockExpression, Grammar.scriptBlockExpression]
  refine advance_bind (bind (scriptBlock hg) fun _ _ h => expect_bind ?_)
  exact add fun he => by rw [h.eq he]

theorem indexAccess {begin : Nat} {target target' : NodeId} {nullConditional : Bool}
    (h : σ.Same veiled target target') :
    Widens σ veiled (indexAccess g begin target nullConditional)
      (indexAccess g' begin target' nullConditional) := by
  rw [Grammar.indexAccess, Grammar.indexAccess]
  refine advance_bind (skipNewlines_bind (bind (hg.expression true) fun key key' hk => ?_))
  exact skipNewlines_bind (expect_bind (add fun he => by rw [h.eq he, hk.eq he]))

/-! What may contain an operand, given the operand. -/
section Operand

variable {p q : Parser NodeId} (hp : Widens σ veiled p q)
include hp

theorem memberAccess {begin : Nat} {target target' : NodeId} {isStatic nullConditional : Bool}
    (h : σ.Same veiled target target') :
    Widens σ veiled (memberAccess g p begin target isStatic nullConditional)
      (memberAccess g' q begin target' isStatic nullConditional) := by
  rw [Grammar.memberAccess, Grammar.memberAccess]
  refine advance_bind (start_bind fun start => peek_bind fun t => ?_)
  have hname (name name' : NodeId) (hn : σ.Same veiled name name') : Widens σ veiled
      (do
        let r ← Parser.place
        if r.current? = some (.mark .lparen) ∧ r.isAdjacent then
          Parser.advance
          let arguments ← Parser.untilParen (g.expression false)
          Parser.add (.invokeMember target name arguments isStatic nullConditional) begin
        else Parser.add (.member target name isStatic nullConditional) begin)
      (do
        let r ← Parser.place
        if r.current? = some (.mark .lparen) ∧ r.isAdjacent then
          Parser.advance
          let arguments ← Parser.untilParen (g'.expression false)
          Parser.add (.invokeMember target' name' arguments isStatic nullConditional) begin
        else Parser.add (.member target' name' isStatic nullConditional) begin) := by
    refine place_bind fun r => ?_
    split
    · refine advance_bind (bind (untilParen (hg.expression false)) fun _ _ ha => add fun he => ?_)
      rw [h.eq he, hn.eq he, ha.eq he]
    · exact add fun he => by rw [h.eq he, hn.eq he]
  split
  · exact advance_bind (bind (add fun _ => rfl) hname)
  · exact bind hp hname

theorem access {begin : Nat} {target target' : NodeId} (h : σ.Same veiled target target') :
    Widens σ (Option.map veiled) (access g p begin target) (access g' q begin target') := by
  rw [Grammar.access, Grammar.access]
  refine place_bind fun r => ?_
  split
  · exact pure (.refl _)
  · split
    iterate 3 exact some_bind (memberAccess hg hp h)
    iterate 2 exact some_bind (indexAccess hg h)
    iterate 2 exact some_bind (trailingUnary h)
    exact pure (.refl _)

theorem accesses {begin : Nat} {target target' : NodeId} (h : σ.Same veiled target target') :
    Widens σ veiled (accesses g p begin target) (accesses g' q begin target') :=
  iterate (fun _ _ => access hg hp) h

theorem bracketExpression :
    Widens σ veiled (bracketExpression g p) (bracketExpression g' q) := by
  rw [Grammar.bracketExpression, Grammar.bracketExpression]
  refine start_bind fun start => bind (bracketHead hg) fun head head' h => ?_
  cases head with
  | attributeSpec id =>
    cases head' with
    | attributeSpec id' =>
      refine bind hg.unary fun child child' hc => add fun he => ?_
      rw [BracketHead.attributeSpec.inj (h.eq he), hc.eq he]
    | type t => cases h.shape
  | type t =>
    cases head' with
    | attributeSpec id' => cases h.shape
    | type t' =>
      obtain rfl := BracketHead.type.inj h.shape
      refine peek_bind fun u => ?_
      split
      · refine bind (add fun _ => rfl) fun type type' ht => bind hg.unary fun child child' hc => ?_
        exact add fun he => by rw [ht.eq he, hc.eq he]
      · exact bind (add fun _ => rfl) fun _ _ hx => accesses hg hp hx

end Operand

theorem primaryUpTo (n : Nat) : Widens σ veiled (primaryUpTo g n) (primaryUpTo g' n) := by
  induction n with
  | zero => exact throw
  | succ n ih =>
    rw [Grammar.primaryUpTo, Grammar.primaryUpTo]
    refine start_bind fun start => peek_bind fun t => ?_
    split
    · exact advance_bind variableRef
    iterate 4 exact advance_bind (add fun _ => rfl)
    · exact advance_bind doubleQuoted
    · exact advance_bind doubleQuoted
    · exact advance_bind (add fun _ => rfl)
    · exact paren hg
    · exact bind (statementsInParens hg) fun _ _ h => add fun he => by rw [h.eq he]
    · exact bind (statementsInParens hg) fun _ _ h => add fun he => by rw [h.eq he]
    · exact hashtable hg
    · exact scriptBlockExpression hg
    · exact bracketExpression hg ih
    · exact unexpected

theorem primary : Widens σ veiled (primary g) (primary g') := by
  rw [Grammar.primary, Grammar.primary]
  exact place_bind fun p => primaryUpTo hg _

theorem unary : Widens σ veiled (unary g) (unary g') := by
  rw [Grammar.unary, Grammar.unary]
  refine start_bind fun start => peek_bind fun t => ?_
  split
  · exact bracketExpression hg (primary hg)
  · split
    · refine advance_bind (bind hg.unary fun child child' h => ?_)
      exact add fun he => by rw [h.eq he]
    · exact bind (primary hg) fun _ _ h => accesses hg (primary hg) h

theorem listOrOperand {commas : Bool} :
    Widens σ veiled (listOrOperand g commas) (listOrOperand g' commas) := by
  rw [Grammar.listOrOperand, Grammar.listOrOperand]
  refine start_bind fun start => ?_
  split
  · refine eat_ite (skipNewlines_bind (bind hg.unary fun element element' h => ?_)) (operands hg)
    exact add fun he => by rw [h.eq he]
  · exact hg.unary

theorem ternary {commas : Bool} : Widens σ veiled (ternary g commas) (ternary g' commas) := by
  rw [Grammar.ternary, Grammar.ternary]
  refine start_bind fun start => bind (binary (listOrOperand hg) 7) fun test test' h => ?_
  refine eat_ite ?_ (pure h)
  refine skipNewlines_bind (bind (hg.expression commas) fun whenTrue whenTrue' htrue => ?_)
  refine skipNewlines_bind (expect_bind (skipNewlines_bind ?_))
  refine bind (hg.expression commas) fun whenFalse whenFalse' hfalse => add fun he => ?_
  rw [h.eq he, htrue.eq he, hfalse.eq he]

end Widens

end ScriptInject.Grammar
