import ScriptInject.Proofs.Spans.Block
/-! Expressions, by the rows that they lay. -/
namespace ScriptInject.Grammar
open Grammar.Parser

variable {i : Input} {ls : List Lexeme} {s t u : State} {xs : List NodeId} {g : Nested}
  {token : Token} {inner : Parser NodeId} {target : NodeId}

/-- The array literal of a statement stands where the statement does. -/
theorem row_loneArray? {a : Arena} {cs : List Char} {lo hi : Nat} {statement array : NodeId}
    (ha : a.Tiled cs ls) (h : a.Row lo hi [statement]) (harray : loneArray? a statement = some array) :
    a.Row lo hi [array] := by
  unfold loneArray? at harray
  split at harray
  · rename_i element hstatement
    split at harray
    · rename_i expression helement
      split at harray
      · rw [← Option.some.inj harray]
        exact ha.child (ha.child h hstatement rfl) helement rfl
      · simp at harray
    · simp at harray
  · simp at harray

namespace Lays

theorem doubleQuoted {body : String} {kind : StringKind} (h : Laid i ls s t [])
    (hs : Standing i ls s) (hbehind : s.place.start i.text ≤ t.place.stop) :
    Outcome (doubleQuoted body kind (s.place.start i.text)) i t (Spares i ls s)
      fun id u => Laid i ls s u [id] := by
  rw [Grammar.doubleQuoted]
  split <;> exact h.add hs hbehind (.inOrder rfl rfl)

theorem trailingUnary {operator : UnaryOperator} (h : Laid i ls s t [target])
    (hs : Standing i ls s) :
    Outcome (trailingUnary (s.place.start i.text) operator target) i t (Spares i ls s)
      fun id u => Laid i ls s u [id] := by
  rw [Grammar.trailingUnary, Outcome.advance_bind]
  exact h.advance.add hs (h.advance.behind (by simp)) (.inOrder rfl rfl)

variable (hg : Laying i ls g)
include hg

theorem paren (hs : Standing i ls s) :
    Outcome (paren g (s.place.start i.text)) i s (Spares i ls s)
      fun id t => Laid i ls s t [id] := by
  rw [Grammar.paren, Outcome.advance_bind, Outcome.skipNewlines_bind]
  refine (hs.laid.advance.past _).bind (pipeline hg) fun statement t ht => ?_
  rw [Outcome.skipNewlines_bind]
  refine (ht.past _).expect fun hbehind => ?_
  have hu := (ht.past (· == .newline)).advance
  rw [Outcome.get_bind]
  split
  · rename_i array harray
    exact { hu with row := row_loneArray? hu.tiled hu.row harray }
  · exact hu.add hs hbehind (.inOrder rfl rfl)

/-- The closing parenthesis is behind. -/
theorem statementsInParens (hs : Standing i ls s) :
    Outcome (statementsInParens g) i s (Spares i ls s) fun ids t =>
      Laid i ls s t ids ∧ s.place.start i.text ≤ t.place.stop := by
  rw [Grammar.statementsInParens, Outcome.advance_bind]
  refine hs.laid.advance.bind (statementList hg) fun ids t ht => ?_
  exact ht.expect fun hbehind => ⟨ht.advance, hbehind⟩

theorem hashtablePair : LaysSome i ls (fun p => [p.1, p.2]) (hashtablePair g) := by
  intro s hs
  rw [Grammar.hashtablePair, Outcome.skipTerminators_bind, Outcome.eat_ite]
  have ht := hs.laid.past isTerminator
  constructor
  · intro _
    exact ht.advance
  · intro _
    rw [Outcome.peek_bind]
    split
    case' h_1 =>
      refine (ht.goOn (f := fun id => [id]) (bareWord ht.standing ‹_›)).bind fun key u hu => ?_
    case' h_2 => refine ht.bind hg.unary fun key u hu => ?_
    all_goals
      rw [Outcome.skipNewlines_bind]
      refine (hu.past _).expect fun _ => ?_
      rw [Outcome.skipNewlines_bind]
      refine ((hu.past _).advance.past _).bind hg.statement fun value v hv => ?_
      rw [Outcome.peek_bind]
      split
      iterate 3 exact hv
      exact hv.unexpected

theorem hashtable (hs : Standing i ls s) (hcur : s.place.current? = some token) :
    Outcome (hashtable g (s.place.start i.text)) i s (Spares i ls s)
      fun id t => Laid i ls s t [id] := by
  rw [Grammar.hashtable, Outcome.advance_bind]
  refine hs.laid.advance.bindBehind (many (hashtablePair hg)) (hs.laid.behind_advance hcur)
    fun pairs t ht hbehind => ?_
  exact ht.add hs hbehind (.inOrder rfl rfl)

theorem scriptBlockExpression (hs : Standing i ls s) :
    Outcome (scriptBlockExpression g (s.place.start i.text)) i s (Spares i ls s)
      fun id t => Laid i ls s t [id] := by
  rw [Grammar.scriptBlockExpression, Outcome.advance_bind]
  refine closedBlock hg hs.laid.advance fun body t ht => ?_
  exact ht.add hs (ht.behind (by simp)) (.inOrder rfl rfl)

theorem memberAccess {isStatic nullConditional : Bool} (hinner : LaysNode i ls inner)
    (h : Laid i ls s t [target]) (hs : Standing i ls s) :
    Outcome (memberAccess g inner (s.place.start i.text) target isStatic nullConditional) i t
      (Spares i ls s) fun id u => Laid i ls s u [id] := by
  rw [Grammar.memberAccess, Outcome.advance_bind, Outcome.start_bind, Outcome.peek_bind]
  have hrest {name : NodeId} {u : State} (hu : Laid i ls s u [target, name]) : Outcome (do
      let p ← place
      if p.current? = some (.mark .lparen) ∧ p.isAdjacent then
        advance
        let arguments ← untilParen (g.expression false)
        add (.invokeMember target name arguments isStatic nullConditional) (s.place.start i.text)
      else add (.member target name isStatic nullConditional) (s.place.start i.text)) i u
      (Spares i ls s) fun id v => Laid i ls s v [id] := by
    rw [Outcome.place_bind]
    split
    · rw [Outcome.advance_bind]
      refine (hu.advance.untilParen (hg.expression false)).bind ?_
      rintro arguments v ⟨hv, hbehind⟩
      exact hv.add hs hbehind (.inOrder (by simp [Node.children]) rfl)
    · exact hu.add hs (hu.behind (by simp)) (.inOrder rfl rfl)
  have ht := h.advance.standing
  split
  · rename_i w hcur
    rw [Outcome.advance_bind]
    have hname := ht.laid.advance.add ht (n := .stringConstant w .bareWord)
      (ht.laid.behind_advance hcur) (.inOrder rfl rfl)
    exact (hname.mono (fun _ _ hu => h.advance.toLeaves.trans hu)
      fun _ _ hu => h.advance.trans hu).bind fun name u hu => hrest hu
  · exact h.advance.bind hinner fun name u hu => hrest hu

theorem indexAccess {nullConditional : Bool} (h : Laid i ls s t [target]) (hs : Standing i ls s) :
    Outcome (indexAccess g (s.place.start i.text) target nullConditional) i t (Spares i ls s)
      fun id u => Laid i ls s u [id] := by
  rw [Grammar.indexAccess, Outcome.advance_bind, Outcome.skipNewlines_bind]
  refine (h.advance.past _).bind (hg.expression true) fun key u hu => ?_
  rw [Outcome.skipNewlines_bind]
  refine (hu.past _).expect fun hbehind => ?_
  exact (hu.past _).advance.add hs hbehind (.inOrder rfl rfl)

theorem access (hinner : LaysNode i ls inner) (h : Laid i ls s t [target])
    (hs : Standing i ls s) :
    Outcome (access g inner (s.place.start i.text) target) i t (Spares i ls s)
      fun o u => Laid i ls s u [o.getD target] := by
  rw [Grammar.access, Outcome.place_bind]
  split
  · exact h
  · split
    · exact (memberAccess hg hinner h hs).bind fun id u hu => hu
    · exact (memberAccess hg hinner h hs).bind fun id u hu => hu
    · exact (memberAccess hg hinner h hs).bind fun id u hu => hu
    · exact (indexAccess hg h hs).bind fun id u hu => hu
    · exact (indexAccess hg h hs).bind fun id u hu => hu
    · exact (trailingUnary h hs).bind fun id u hu => hu
    · exact (trailingUnary h hs).bind fun id u hu => hu
    · exact h

theorem accesses (hinner : LaysNode i ls inner) (h : Laid i ls s t [target])
    (hs : Standing i ls s) :
    Outcome (accesses g inner (s.place.start i.text) target) i t (Spares i ls s)
      fun id u => Laid i ls s u [id] :=
  iterate (f := fun id => [id]) h fun _ _ hu => access hg hinner hu hs

theorem bracketExpression (hinner : LaysNode i ls inner) :
    LaysNode i ls (bracketExpression g inner) := by
  intro s hs
  rw [Grammar.bracketExpression, Outcome.start_bind]
  refine (bracketHead hg hs).bind ?_
  rintro head t ⟨ht, hbehind⟩
  cases head with
  | attributeSpec id =>
    refine ht.bind hg.unary fun child u hu => ?_
    exact hu.add hs (hu.behind (by simp)) (.inOrder rfl rfl)
  | type type =>
    rw [Outcome.peek_bind]
    split
    · refine (ht.add hs hbehind (.inOrder rfl rfl)).bind fun type u hu => ?_
      refine hu.bind hg.unary fun child v hv => ?_
      exact hv.add hs (hv.behind (by simp)) (.inOrder rfl rfl)
    · refine (ht.add hs hbehind (.inOrder rfl rfl)).bind fun expression u hu => ?_
      exact accesses hg hinner hu hs

theorem primaryUpTo (n : Nat) : LaysNode i ls (primaryUpTo g n) := by
  induction n with
  | zero => exact fun s hs => .refl hs.tiled
  | succ n ih =>
    intro s hs
    rw [Grammar.primaryUpTo, Outcome.start_bind, Outcome.peek_bind]
    split
    · rw [Outcome.advance_bind]
      exact variableRef hs.laid.advance hs (hs.laid.behind_advance ‹_›)
    iterate 4
      · rw [Outcome.advance_bind]
        exact hs.laid.advance.add hs (hs.laid.behind_advance ‹_›) (.inOrder rfl rfl)
    iterate 2
      · rw [Outcome.advance_bind]
        exact doubleQuoted hs.laid.advance hs (hs.laid.behind_advance ‹_›)
    · rw [Outcome.advance_bind]
      exact hs.laid.advance.add hs (hs.laid.behind_advance ‹_›) (.inOrder rfl rfl)
    · exact paren hg hs
    iterate 2
      · refine (statementsInParens hg hs).bind ?_
        rintro ids t ⟨ht, hbehind⟩
        exact ht.add hs hbehind (.inOrder rfl rfl)
    · exact hashtable hg hs ‹_›
    · exact scriptBlockExpression hg hs
    · exact bracketExpression hg ih s hs
    · exact hs.laid.unexpected

theorem primary : LaysNode i ls (primary g) := by
  intro s hs
  rw [Grammar.primary, Outcome.place_bind]
  exact primaryUpTo hg _ s hs

theorem unary : LaysNode i ls (unary g) := by
  intro s hs
  rw [Grammar.unary, Outcome.start_bind, Outcome.peek_bind]
  split
  · exact bracketExpression hg (primary hg) s hs
  · split
    · rw [Outcome.advance_bind]
      refine hs.laid.advance.bind hg.unary fun child t ht => ?_
      exact ht.add hs (ht.behind (by simp)) (.inOrder rfl rfl)
    · exact hs.laid.bind (primary hg) fun target t ht => accesses hg (primary hg) ht hs

theorem listOrOperand (commas : Bool) : LaysNode i ls (listOrOperand g commas) := by
  intro s hs
  rw [Grammar.listOrOperand, Outcome.start_bind]
  split
  · rw [Outcome.eat_ite]
    constructor
    · intro _
      rw [Outcome.skipNewlines_bind]
      refine (hs.laid.advance.past _).bind hg.unary fun element t ht => ?_
      exact ht.add hs (ht.behind (by simp)) (.inOrder rfl rfl)
    · intro _
      exact operands hg hs
  · exact hg.unary s hs

omit hg in
theorem binaryStep {operand : Parser NodeId} {precedence : Nat} (hoperand : LaysNode i ls operand)
    (h : Laid i ls s t [target]) (hs : Standing i ls s) :
    Outcome (binaryStep operand precedence (s.place.start i.text) target) i t (Spares i ls s)
      fun o u => Laid i ls s u [o.getD target] := by
  rw [Grammar.binaryStep, Outcome.peek_bind]
  split
  · split
    · rw [Outcome.advance_bind, Outcome.skipNewlines_bind]
      refine (h.advance.past _).bind hoperand fun right u hu => ?_
      exact (hu.add hs (hu.behind (by simp)) (.inOrder rfl rfl)).bind fun id v hv => hv
    · exact h
  · exact h

omit hg in
theorem binary {operand : Parser NodeId} (hoperand : LaysNode i ls operand) (levels : Nat) :
    LaysNode i ls (binary operand levels) := by
  induction levels with
  | zero => exact hoperand
  | succ levels ih =>
    intro s hs
    rw [Grammar.binary, Outcome.start_bind]
    refine hs.laid.bind ih fun left t ht => ?_
    exact iterate (f := fun id => [id]) ht fun _ _ hu => binaryStep ih hu hs

theorem ternary (commas : Bool) : LaysNode i ls (ternary g commas) := by
  intro s hs
  rw [Grammar.ternary, Outcome.start_bind]
  refine hs.laid.bind (binary (listOrOperand hg commas) 7) fun condition t ht => ?_
  rw [Outcome.eat_ite]
  constructor
  · intro _
    rw [Outcome.skipNewlines_bind]
    refine (ht.advance.past _).bind (hg.expression commas) fun whenTrue u hu => ?_
    rw [Outcome.skipNewlines_bind]
    refine (hu.past _).expect fun _ => ?_
    rw [Outcome.skipNewlines_bind]
    refine ((hu.past _).advance.past _).bind (hg.expression commas) fun whenFalse v hv => ?_
    exact hv.add hs (hv.behind (by simp)) (.inOrder rfl rfl)
  · intro _
    exact ht

end Lays

end ScriptInject.Grammar
