import ScriptInject.Proofs.Spans.Expression
/-! Statements, by the rows that they lay. -/
namespace ScriptInject.Grammar
open Grammar.Parser

variable {α : Type} {i : Input} {ls : List Lexeme} {s t : State} {xs : List NodeId} {g : Nested}
  {token : Token} {label : Option String}

namespace Lays

theorem label? : LaysNone i ls label? := by
  intro s hs
  rw [Grammar.label?, Outcome.place_bind]
  split
  · split
    · rw [Outcome.advanceBy_bind]
      exact hs.laid.advanceBy 2
    · exact hs.laid
  · exact hs.laid

theorem jumpLabel? : LaysNone i ls jumpLabel? := by
  intro s hs
  rw [Grammar.jumpLabel?, Outcome.peek_bind]
  split
  · rw [Outcome.advance_bind]
    exact hs.laid.advance
  · exact hs.laid

theorem afterWord? {keyword : String} {f : α → List NodeId} {p : Parser α} (h : Lays i ls f p) :
    LaysSome i ls f (afterWord? keyword p) := by
  intro s hs
  rw [Grammar.afterWord?, Outcome.place_bind, Outcome.skipNewlines_bind, Outcome.atWord_bind]
  split
  · exact (hs.laid.past _).run h.some_bind
  · rw [Outcome.goto_bind]
    exact hs.laid

/-- A rule behind the word that introduces it. -/
theorem afterAdvance {f : α → List NodeId} {p : Parser α} (h : Lays i ls f p) :
    Lays i ls f (do advance; p) := by
  intro s hs
  rw [Outcome.advance_bind]
  exact hs.laid.advance.run h

theorem caughtTypesUpTo (n : Nat) : Lays i ls (fun ids => ids) (caughtTypesUpTo n) := by
  induction n with
  | zero => exact fun s hs => .refl hs.tiled
  | succ n ih =>
    intro s hs
    rw [Grammar.caughtTypesUpTo, Outcome.peek_bind]
    split
    · refine hs.laid.bind typeConstraint fun type t ht => ?_
      rw [Outcome.skipNewlines_bind, Outcome.eat_ite]
      constructor
      · intro _
        rw [Outcome.skipNewlines_bind]
        exact ((ht.past _).advance.past _).bind ih fun types u hu => hu
      · intro _
        exact ht.past _
    · exact hs.laid

theorem caughtTypes : Lays i ls (fun ids => ids) caughtTypes := by
  intro s hs
  rw [Grammar.caughtTypes, Outcome.place_bind]
  exact caughtTypesUpTo _ s hs

variable (hg : Laying i ls g)
include hg

theorem optionalPipeline : LaysSome i ls (fun id => [id]) (optionalPipeline g) := by
  intro s hs
  rw [Grammar.optionalPipeline, Outcome.peek_bind]
  split
  iterate 5 exact hs.laid
  exact (pipeline hg).some_bind s hs

theorem condition : LaysNode i ls (condition g) := by
  intro s hs
  rw [Grammar.condition, Outcome.skipNewlines_bind]
  refine (hs.laid.past _).expect fun _ => ?_
  rw [Outcome.skipNewlines_bind]
  refine ((hs.laid.past _).advance.past _).bind (pipeline hg) fun id t ht => ?_
  rw [Outcome.skipNewlines_bind]
  exact (ht.past _).expect fun _ => (ht.past _).advance

theorem clause : Lays i ls (fun p => [p.1, p.2]) (clause g) := by
  intro s hs
  rw [Grammar.clause]
  refine hs.laid.bind (condition hg) fun test t ht => ?_
  exact ht.bind (statementBlock hg) fun body u hu => hu

/-! From here on a rule starts at the word that tells the statement, perhaps behind a label. -/

theorem ifStatement (h : Laid i ls s t []) (hs : Standing i ls s) :
    Outcome (ifStatement g (s.place.start i.text)) i t (Spares i ls s)
      fun id u => Laid i ls s u [id] := by
  rw [Grammar.ifStatement, Outcome.advance_bind]
  refine h.advance.bind (clause hg) fun first u hu => ?_
  refine hu.bind (many (afterWord? (afterAdvance (clause hg)))) fun others v hv => ?_
  refine hv.bind (afterWord? (afterAdvance (statementBlock hg))) fun elseBody w hw => ?_
  exact hw.add hs (hw.behind (by simp)) (.inOrder (by simp [Node.children]) rfl)

theorem whileLoop (h : Laid i ls s t []) (hs : Standing i ls s) :
    Outcome (whileLoop g label (s.place.start i.text)) i t (Spares i ls s)
      fun id u => Laid i ls s u [id] := by
  rw [Grammar.whileLoop, Outcome.advance_bind]
  refine h.advance.bind (clause hg) fun clause u hu => ?_
  exact hu.add hs (hu.behind (by simp)) (.inOrder rfl rfl)

theorem doLoop (h : Laid i ls s t []) (hs : Standing i ls s) :
    Outcome (doLoop g label (s.place.start i.text)) i t (Spares i ls s)
      fun id u => Laid i ls s u [id] := by
  rw [Grammar.doLoop, Outcome.advance_bind]
  refine h.advance.bind (statementBlock hg) fun body u hu => ?_
  rw [Outcome.skipNewlines_bind, Outcome.atWord_bind]
  split
  · rw [Outcome.advance_bind]
    refine (hu.past _).advance.bind (condition hg) fun test v hv => ?_
    exact hv.add hs (hv.behind (by simp)) (.inOrder rfl rfl)
  · rw [Outcome.atWord_bind]
    split
    · rw [Outcome.advance_bind]
      refine (hu.past _).advance.bind (condition hg) fun test v hv => ?_
      exact hv.add hs (hv.behind (by simp)) (.inOrder rfl rfl)
    · exact (hu.past _).unexpected

theorem forPart {stop : Mark} : LaysSome i ls (fun id => [id]) (forPart g stop) := by
  intro s hs
  rw [Grammar.forPart, Outcome.skipNewlines_bind, Outcome.peek_bind]
  have hrest {part : Option NodeId} {t : State}
      (ht : Laid i ls s t (part.toList.flatMap fun id => [id])) : Outcome (do
        skipNewlines
        expect stop
        return part) i t (Spares i ls s) fun o u =>
          Laid i ls s u (o.toList.flatMap fun id => [id]) := by
    rw [Outcome.skipNewlines_bind]
    exact (ht.past _).expect fun _ => (ht.past _).advance
  split
  · exact hrest (hs.laid.past _)
  · exact (hs.laid.past _).bind (pipeline hg).some_map fun part t ht => hrest ht

theorem forLoop (h : Laid i ls s t []) (hs : Standing i ls s) :
    Outcome (forLoop g label (s.place.start i.text)) i t (Spares i ls s)
      fun id u => Laid i ls s u [id] := by
  rw [Grammar.forLoop, Outcome.advance_bind, Outcome.skipNewlines_bind]
  refine (h.advance.past _).expect fun _ => ?_
  refine (h.advance.past _).advance.bind (forPart hg) fun first u hu => ?_
  refine hu.bind (forPart hg) fun test v hv => hv.bind (forPart hg) fun step w hw => ?_
  refine hw.bind (statementBlock hg) fun body x hx => ?_
  exact hx.add hs (hx.behind (by simp)) (.inOrder (by simp [Node.children]) rfl)

theorem forEach (h : Laid i ls s t []) (hs : Standing i ls s) :
    Outcome (forEach g label (s.place.start i.text)) i t (Spares i ls s)
      fun id u => Laid i ls s u [id] := by
  rw [Grammar.forEach, Outcome.advance_bind, Outcome.skipNewlines_bind]
  refine (h.advance.past _).expect fun _ => ?_
  rw [Outcome.skipNewlines_bind]
  refine ((h.advance.past _).advance.past _).bind bareVariable fun item u hu => ?_
  rw [Outcome.skipNewlines_bind, Outcome.atWord_bind]
  split
  · rw [Outcome.advance_bind, Outcome.skipNewlines_bind]
    refine ((hu.past _).advance.past _).bind (pipeline hg) fun items v hv => ?_
    rw [Outcome.skipNewlines_bind]
    refine (hv.past _).expect fun _ => ?_
    refine (hv.past _).advance.bind (statementBlock hg) fun body w hw => ?_
    exact hw.add hs (hw.behind (by simp)) (.inOrder rfl rfl)
  · exact (hu.past _).unexpected

theorem catchClause : LaysNode i ls (catchClause g) := by
  intro s hs
  rw [Grammar.catchClause, Outcome.start_bind, Outcome.advance_bind]
  refine hs.laid.advance.bind caughtTypes fun types t ht => ?_
  refine ht.bind (statementBlock hg) fun body u hu => ?_
  exact hu.add hs (hu.behind (by simp)) (.inOrder rfl rfl)

theorem tryStatement (h : Laid i ls s t []) (hs : Standing i ls s) :
    Outcome (tryStatement g (s.place.start i.text)) i t (Spares i ls s)
      fun id u => Laid i ls s u [id] := by
  rw [Grammar.tryStatement, Outcome.advance_bind]
  refine h.advance.bind (statementBlock hg) fun body u hu => ?_
  refine hu.bind (many (afterWord? (catchClause hg))) fun catches v hv => ?_
  refine hv.bind (afterWord? (afterAdvance (statementBlock hg))) fun cleanup w hw => ?_
  split
  · exact hw.toLeaves
  · exact hw.add hs (hw.behind (by simp)) (.inOrder (by simp [Node.children]) rfl)

theorem trap (h : Laid i ls s t []) (hs : Standing i ls s) :
    Outcome (trap g (s.place.start i.text)) i t (Spares i ls s)
      fun id u => Laid i ls s u [id] := by
  rw [Grammar.trap, Outcome.advance_bind, Outcome.peek_bind]
  have hrest {type : Option NodeId} {u : State}
      (hu : Laid i ls s u (type.toList.flatMap fun id => [id])) : Outcome (do
        let body ← Grammar.statementBlock g
        add (.trap type body) (s.place.start i.text)) i u (Spares i ls s)
        fun id v => Laid i ls s v [id] := by
    refine hu.bind (statementBlock hg) fun body v hv => ?_
    exact hv.add hs (hv.behind (by simp)) (.inOrder (by simp [Node.children]) rfl)
  split
  · exact h.advance.bind typeConstraint.some_map fun type u hu => hrest hu
  · exact hrest h.advance

theorem functionDefinition {isFilter : Bool} (h : Laid i ls s t []) (hs : Standing i ls s) :
    Outcome (functionDefinition g isFilter (s.place.start i.text)) i t (Spares i ls s)
      fun id u => Laid i ls s u [id] := by
  rw [Grammar.functionDefinition, Outcome.advance_bind, Outcome.peek_bind]
  split
  · refine (bareWordText h.advance ‹_›).bind ?_
    rintro name u ⟨hu, -⟩
    have hrest {parameters : List NodeId} {v : State} (hv : Laid i ls s v parameters) :
        Outcome (do
          skipNewlines
          expect .lbrace
          let body ← Grammar.scriptBlock g .brace
          expect .rbrace
          add (.functionDefinition name isFilter parameters body) (s.place.start i.text)) i v
          (Spares i ls s) fun id w => Laid i ls s w [id] := by
      rw [Outcome.skipNewlines_bind]
      refine (hv.past _).expect fun _ => closedBlock hg (hv.past _).advance fun body w hw => ?_
      exact hw.add hs (hw.behind (by simp)) (.inOrder rfl rfl)
    rw [Outcome.eat_ite]
    constructor
    · intro _
      refine (hu.advance.untilParen (parameter hg)).bind ?_
      rintro parameters v ⟨hv, -⟩
      exact hrest (by simpa using hv)
    · intro _
      exact hrest hu
  · exact h.advance.unexpected

/-- A value that may be missing, behind a word. -/
theorem optionalValue {make : Option NodeId → Node NodeId}
    (hmake : ∀ value, (make value).Fills value.toList) (h : Laid i ls s t [])
    (hs : Standing i ls s) (hcur : t.place.current? = some token) :
    Outcome (do
      advance
      let value ← Grammar.optionalPipeline g
      add (make value) (s.place.start i.text)) i t (Spares i ls s)
      fun id u => Laid i ls s u [id] := by
  rw [Outcome.advance_bind]
  refine h.advance.bindBehind (optionalPipeline hg) (h.behind_advance hcur)
    fun value u hu hbehind => ?_
  exact hu.add hs hbehind (by simpa using hmake value)

omit hg in
theorem jump {make : Option String → Node NodeId} (hmake : ∀ label, (make label).Fills [])
    (h : Laid i ls s t []) (hs : Standing i ls s) (hcur : t.place.current? = some token) :
    Outcome (do
      advance
      let label ← Grammar.jumpLabel?
      add (make label) (s.place.start i.text)) i t (Spares i ls s)
      fun id u => Laid i ls s u [id] := by
  rw [Outcome.advance_bind]
  refine h.advance.bindBehind jumpLabel? (h.behind_advance hcur) fun label u hu hbehind => ?_
  exact hu.add hs hbehind (hmake label)

theorem loopRule? {keyword : String} {next : Option Token} {rule : Parser NodeId}
    (h : Laid i ls s t []) (hs : Standing i ls s)
    (hrule : loopRule? g keyword next label (s.place.start i.text) = some rule) :
    Outcome rule i t (Spares i ls s) fun id u => Laid i ls s u [id] := by
  unfold Grammar.loopRule? at hrule
  split at hrule
  · exact Option.some.inj hrule ▸ whileLoop hg h hs
  · exact Option.some.inj hrule ▸ doLoop hg h hs
  · exact Option.some.inj hrule ▸ forLoop hg h hs
  · split at hrule
    · exact Option.some.inj hrule ▸ forEach hg h hs
    · simp at hrule
  · simp at hrule

theorem statementRule? {keyword : String} {rule : Parser NodeId} (h : Laid i ls s t [])
    (hs : Standing i ls s) (hcur : t.place.current? = some token)
    (hrule : statementRule? g keyword (s.place.start i.text) = some rule) :
    Outcome rule i t (Spares i ls s) fun id u => Laid i ls s u [id] := by
  unfold Grammar.statementRule? at hrule
  split at hrule
  · exact Option.some.inj hrule ▸ functionDefinition hg h hs
  · exact Option.some.inj hrule ▸ functionDefinition hg h hs
  · exact Option.some.inj hrule ▸ ifStatement hg h hs
  · exact Option.some.inj hrule ▸ tryStatement hg h hs
  · exact Option.some.inj hrule ▸ trap hg h hs
  · exact Option.some.inj hrule ▸ optionalValue hg (fun _ => .inOrder rfl rfl) h hs hcur
  · exact Option.some.inj hrule ▸ optionalValue hg (fun _ => .inOrder rfl rfl) h hs hcur
  · exact Option.some.inj hrule ▸ jump (fun _ => .inOrder rfl rfl) h hs hcur
  · exact Option.some.inj hrule ▸ jump (fun _ => .inOrder rfl rfl) h hs hcur
  · simp at hrule

theorem statement : LaysNode i ls (statement g) := by
  intro s hs
  rw [Grammar.statement, Outcome.start_bind]
  refine hs.laid.bind label? fun label t ht => ?_
  rw [Outcome.place_bind]
  dsimp only
  split
  · rename_i rule hrule
    obtain ⟨keyword, -, hrule⟩ := Option.bind_eq_some_iff.mp hrule
    exact loopRule? hg ht hs hrule
  · split
    · exact ht.toLeaves
    · split
      · rename_i rule hrule
        obtain ⟨keyword, hkeyword, hrule⟩ := Option.bind_eq_some_iff.mp hrule
        cases hcur : t.place.current? with
        | none => simp [hcur] at hkeyword
        | some token => exact statementRule? hg ht hs hcur hrule
      · exact ht.run (pipeline hg)

end Lays

end ScriptInject.Grammar
