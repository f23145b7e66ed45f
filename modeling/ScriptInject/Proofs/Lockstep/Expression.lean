import ScriptInject.Proofs.Lockstep.Block
/-! Expressions, read twice. -/
namespace ScriptInject.Grammar

namespace Alignment

variable {σ : Alignment} {a b : Arena} {id : NodeId}

theorem get?_id (h : σ.Arenas a b) (id : NodeId) :
    b.get? (σ.id id) = (a.get? id).map (Node.map σ.id) := σ.get?_eq h id

theorem loneArray?_id (h : σ.Arenas a b) (statement : NodeId) :
    loneArray? b (σ.id statement) = (loneArray? a statement).map σ.id := by
  rw [loneArray?, loneArray?, get?_id h]
  cases hs : a.get? statement with
  | none => rfl
  | some n =>
    cases n with
    | pipeline elements =>
      match elements with
      | [] => rfl
      | [element] =>
        simp only [Option.map_some, Node.map, List.map_cons, List.map_nil, get?_id h]
        cases he : a.get? element with
        | none => rfl
        | some m =>
          cases m with
          | commandExpression expression =>
            simp only [Option.map_some, Node.map, get?_id h]
            cases hx : a.get? expression with
            | none => rfl
            | some l => cases l <;> rfl
          | _ => rfl
      | _ :: _ :: _ => rfl
    | _ => rfl

end Alignment

theorem loneArray?_span {a : Arena} {statement array : NodeId} (ha : a.Spanned)
    (h : loneArray? a statement = some array) : (a.span? array).isSome = true := by
  rw [loneArray?] at h
  split at h
  · split at h
    · split at h
      · obtain rfl := Option.some.inj h
        exact ha _ _ (by assumption)
      · cases h
    · cases h
  · cases h

namespace Lockstep

variable {σ : Alignment} {P : State → Prop} {g : Nested}

theorem doubleQuoted {body : String} {kind : StringKind} {start : Nat}
    (hP : ∀ s, P s → Begun s) :
    Lockstep σ P σ.id (doubleQuoted body kind start) (doubleQuoted body kind (start + σ.offset))
      Stood := by
  rw [Grammar.doubleQuoted, Grammar.doubleQuoted]
  split <;> exact addStood rfl hP

theorem trailingUnary {begin : Nat} {operator : UnaryOperator} {target : NodeId}
    (hP : ∀ s, P s → Begun s) :
    Lockstep σ P σ.id (trailingUnary begin operator target)
      (trailingUnary (begin + σ.offset) operator (σ.id target)) Stood := by
  rw [Grammar.trailingUnary, Grammar.trailingUnary]
  refine advance_bind (addStood rfl ?_)
  rintro _ ⟨hs⟩
  exact Place.last?_advance_isSome (hP _ hs)

section Binary

variable {p : Parser NodeId} (hp : ∀ {P}, Lockstep σ P σ.id p p Stood)
include hp

theorem binaryStep {precedence begin : Nat} {left : NodeId} :
    Lockstep σ (Stood left) (Option.map σ.id) (binaryStep p precedence begin left)
      (binaryStep p precedence (begin + σ.offset) (σ.id left))
      fun o t => (o = none → Stood left t) ∧ ∀ id, o = some id → Stood id t := by
  rw [Grammar.binaryStep, Grammar.binaryStep]
  refine peek_bind fun t => ?_
  split
  · split
    · refine advance_bind (skipNewlines_bind (bind hp fun right => ?_))
      refine (some_bind (addStood rfl fun _ hs => hs.begun)).imp ?_
      rintro _ t ⟨id, rfl, ht⟩
      exact ⟨nofun, fun _ hid => Option.some.inj hid ▸ ht⟩
    · exact pure rfl fun _ hs => ⟨fun _ => hs.1, nofun⟩
  · exact pure rfl fun _ hs => ⟨fun _ => hs.1, nofun⟩

theorem binary (levels : Nat) : Lockstep σ P σ.id (binary p levels) (binary p levels) Stood := by
  induction levels generalizing P with
  | zero => exact hp
  | succ levels ih =>
    rw [Grammar.binary]
    refine start_bind fun start => bind ih fun left => ?_
    exact iterate (fun _ => binaryStep ih) left

end Binary

variable (hg : Paired σ g)
include hg

theorem paren {start : Nat} :
    Lockstep σ P σ.id (paren g start) (paren g (start + σ.offset)) Stood := by
  rw [Grammar.paren, Grammar.paren]
  refine advance_bind (skipNewlines_bind (bind (pipeline hg) fun statement => ?_))
  refine skipNewlines_bind (expect_bind (get_bind (fun s => ?_) fun {s s'} ha hs => ?_))
  · cases loneArray? s.arena statement with
    | some array => exact .refl s
    | none => exact (add (σ := σ) (P := fun _ => True) rfl).onward s
  · rw [Alignment.loneArray?_id ha.arena]
    cases harray : loneArray? s.arena statement with
    | some array =>
      refine pure rfl ?_
      rintro _ ⟨ht, rfl⟩
      exact ⟨loneArray?_span ha.spanned harray, ht.begun⟩
    | none => exact addStood rfl fun _ hs => hs.1.begun

theorem statementsInParens :
    Lockstep σ P (List.map σ.id) (statementsInParens g) (statementsInParens g)
      fun _ => Begun := by
  rw [Grammar.statementsInParens]
  refine advance_bind (bind (statementList hg) fun statements => expect_bind ?_)
  exact pure rfl fun _ hs => hs.begun

theorem hashtablePair :
    Lockstep σ P (Option.map fun (k, v) => (σ.id k, σ.id v)) (hashtablePair g) (hashtablePair g)
      fun o t => o = none → Begun t := by
  rw [Grammar.hashtablePair]
  refine skipTerminators_bind (eat_ite ?_ ?_)
  · exact pure rfl fun _ hs _ => hs.begun
  · refine peek_bind fun t => ?_
    split
    case' h_1 => refine bind bareWord fun key => ?_
    case' h_2 => refine bind hg.unary fun key => ?_
    all_goals
      refine skipNewlines_bind (expect_bind (skipNewlines_bind ?_))
      refine bind hg.statement fun value => peek_bind fun t => ?_
      split
      iterate 3 exact pure rfl fun _ _ => by simp
      exact unexpected

theorem hashtable {start : Nat} :
    Lockstep σ P σ.id (hashtable g start) (hashtable g (start + σ.offset)) Stood := by
  rw [Grammar.hashtable, Grammar.hashtable]
  refine advance_bind (bind (Q := fun _ => Begun) ?_ fun pairs => addStood rfl fun _ hs => hs)
  refine (many (I := fun _ => True) ((hashtablePair hg).imp fun o t ht => ?_)).weaken
    fun _ _ => trivial
  exact ⟨ht, fun _ => trivial⟩

theorem scriptBlockExpression {start : Nat} :
    Lockstep σ P σ.id (scriptBlockExpression g start)
      (scriptBlockExpression g (start + σ.offset)) Stood := by
  rw [Grammar.scriptBlockExpression, Grammar.scriptBlockExpression]
  refine advance_bind (bind (scriptBlock hg) fun body => expect_bind ?_)
  exact addStood rfl fun _ hs => hs.begun

theorem indexAccess {begin : Nat} {target : NodeId} {nullConditional : Bool} :
    Lockstep σ P σ.id (indexAccess g begin target nullConditional)
      (indexAccess g (begin + σ.offset) (σ.id target) nullConditional) Stood := by
  rw [Grammar.indexAccess, Grammar.indexAccess]
  refine advance_bind (skipNewlines_bind (bind (hg.expression true) fun key => ?_))
  exact skipNewlines_bind (expect_bind (addStood rfl fun _ hs => hs.begun))

/-! What may contain an operand is paired if the operand is. -/
section Operand

variable {p : Parser NodeId} (hp : ∀ {P}, Lockstep σ P σ.id p p Stood)
include hp

theorem memberAccess {begin : Nat} {target : NodeId} {isStatic nullConditional : Bool} :
    Lockstep σ P σ.id (memberAccess g p begin target isStatic nullConditional)
      (memberAccess g p (begin + σ.offset) (σ.id target) isStatic nullConditional) Stood := by
  rw [Grammar.memberAccess, Grammar.memberAccess]
  refine advance_bind (start_bind fun start => peek_bind fun t => ?_)
  have hname {P : State → Prop} (hP : ∀ s, P s → Begun s) (name : NodeId) : Lockstep σ P σ.id
      (do
        let q ← Parser.place
        if q.current? = some (.mark .lparen) ∧ q.isAdjacent then
          Parser.advance
          let arguments ← Parser.untilParen (g.expression false)
          Parser.add (.invokeMember target name arguments isStatic nullConditional) begin
        else Parser.add (.member target name isStatic nullConditional) begin)
      (do
        let q ← Parser.place
        if q.current? = some (.mark .lparen) ∧ q.isAdjacent then
          Parser.advance
          let arguments ← Parser.untilParen (g.expression false)
          Parser.add (.invokeMember (σ.id target) (σ.id name) arguments isStatic nullConditional)
            (begin + σ.offset)
        else
          Parser.add (.member (σ.id target) (σ.id name) isStatic nullConditional)
            (begin + σ.offset)) Stood := by
    refine place_bind fun q => ?_
    rw [Place.current?_place]
    refine of_eq (fun b => ite (q.current? = some (.mark .lparen) ∧ b = true) _ _) ?_ ?_
      (y := q.isAdjacent)
    · rintro s ⟨hs, rfl⟩
      exact Place.isAdjacent_place (hP s hs)
    · split
      · refine advance_bind (bind (untilParen ?_) fun arguments => addStood rfl fun _ hs => hs)
        exact (hg.expression false).imp fun _ _ _ => trivial
      · exact addStood rfl fun s hs => hP s hs.1
  split
  · exact advance_bind (bind (addStood rfl fun _ hs => Read.begun hs) fun name =>
      hname (fun _ hs => hs.begun) name)
  · exact bind hp fun name => hname (fun _ hs => hs.begun) name

theorem access {begin : Nat} {target : NodeId} :
    Lockstep σ (Stood target) (Option.map σ.id) (access g p begin target)
      (access g p (begin + σ.offset) (σ.id target))
      fun o t => (o = none → Stood target t) ∧ ∀ id, o = some id → Stood id t := by
  have hsome {P : State → Prop} {q q' : Parser NodeId} (h : Lockstep σ P σ.id q q' Stood) :
      Lockstep σ P (Option.map σ.id) (do return some (← q)) (do return some (← q'))
        fun o t => (o = none → Stood target t) ∧ ∀ id, o = some id → Stood id t := by
    refine (some_bind h).imp ?_
    rintro _ t ⟨id, rfl, ht⟩
    exact ⟨nofun, fun _ hid => Option.some.inj hid ▸ ht⟩
  rw [Grammar.access, Grammar.access]
  refine place_bind fun p => ?_
  rw [Place.current?_place]
  refine of_eq (fun b => if (!b) = true then _ else _) (x := (σ.place p).isAdjacent)
    (y := p.isAdjacent) ?_ ?_
  · rintro s ⟨hs, rfl⟩
    exact Place.isAdjacent_place hs.begun
  split
  · exact pure rfl fun _ hs => ⟨fun _ => hs.1, nofun⟩
  · split
    · exact hsome (memberAccess hg hp)
    · exact hsome (memberAccess hg hp)
    · exact hsome (memberAccess hg hp)
    · exact hsome (indexAccess hg)
    · exact hsome (indexAccess hg)
    · exact hsome (trailingUnary fun _ hs => hs.1.begun)
    · exact hsome (trailingUnary fun _ hs => hs.1.begun)
    · exact pure rfl fun _ hs => ⟨fun _ => hs.1, nofun⟩

theorem accesses {begin : Nat} {target : NodeId} :
    Lockstep σ (Stood target) σ.id (accesses g p begin target)
      (accesses g p (begin + σ.offset) (σ.id target)) Stood :=
  iterate (fun _ => access hg hp) target

theorem bracketExpression :
    Lockstep σ P σ.id (bracketExpression g p) (bracketExpression g p) Stood := by
  rw [Grammar.bracketExpression]
  refine start_bind fun start => bind (bracketHead hg) fun head => ?_
  cases head with
  | attributeSpec id => exact bind hg.unary fun child => addStood rfl fun _ hs => hs.begun
  | type t =>
    refine peek_bind fun u => ?_
    split
    · refine bind (add rfl) fun type => bind hg.unary fun child => ?_
      exact addStood rfl fun _ hs => hs.begun
    · exact bind (addStood rfl fun _ hs => hs.1) fun expression => accesses hg hp

end Operand

theorem primaryUpTo (n : Nat) :
    Lockstep σ P σ.id (primaryUpTo g n) (primaryUpTo g n) Stood := by
  induction n generalizing P with
  | zero => exact throw rfl
  | succ n ih =>
    rw [Grammar.primaryUpTo]
    refine start_bind fun start => peek_bind fun t => ?_
    have hleaf {node : Node NodeId} {t : Token} (hnode : node = node.map σ.id) :
        Lockstep σ (fun s => P s ∧ s.place.current? = some t) σ.id
          (do Parser.advance; Parser.add node start)
          (do Parser.advance; Parser.add node (start + σ.offset)) Stood :=
      advance_bind (addStood hnode fun _ hs => Read.begun hs)
    split
    · exact advance_bind (variableRef fun _ hs => Read.begun hs)
    iterate 4 exact hleaf rfl
    · exact advance_bind (doubleQuoted fun _ hs => Read.begun hs)
    · exact advance_bind (doubleQuoted fun _ hs => Read.begun hs)
    · exact hleaf rfl
    · exact paren hg
    · exact bind (statementsInParens hg) fun statements => addStood rfl fun _ hs => hs
    · exact bind (statementsInParens hg) fun statements => addStood rfl fun _ hs => hs
    · exact hashtable hg
    · exact scriptBlockExpression hg
    · exact bracketExpression hg ih
    · exact unexpected

theorem primary : Lockstep σ P σ.id (primary g) (primary g) Stood := by
  rw [Grammar.primary]
  refine place_bind fun p => ?_
  rw [show (σ.place p).rest.length = p.rest.length from List.length_map _]
  exact primaryUpTo hg _

theorem unary : Lockstep σ P σ.id (unary g) (unary g) Stood := by
  rw [Grammar.unary]
  refine start_bind fun start => peek_bind fun t => ?_
  split
  · exact bracketExpression hg (primary hg)
  · split
    · refine advance_bind (bind hg.unary fun child => ?_)
      exact addStood rfl fun _ hs => hs.begun
    · exact bind (primary hg) fun target => accesses hg (primary hg)

theorem listOrOperand {commas : Bool} :
    Lockstep σ P σ.id (listOrOperand g commas) (listOrOperand g commas) Stood := by
  rw [Grammar.listOrOperand]
  refine start_bind fun start => ?_
  split
  · refine eat_ite (skipNewlines_bind (bind hg.unary fun element => ?_)) (operands hg)
    exact addStood rfl fun _ hs => hs.begun
  · exact hg.unary

theorem ternary {commas : Bool} :
    Lockstep σ P σ.id (ternary g commas) (ternary g commas) Stood := by
  rw [Grammar.ternary]
  refine start_bind fun start => bind (binary (listOrOperand hg) 7) fun condition => ?_
  refine eat_ite ?_ (pure rfl fun _ hs => hs)
  refine skipNewlines_bind (bind (hg.expression commas) fun whenTrue => ?_)
  refine skipNewlines_bind (expect_bind (skipNewlines_bind ?_))
  exact bind (hg.expression commas) fun whenFalse => addStood rfl fun _ hs => hs.begun

end Lockstep

end ScriptInject.Grammar
