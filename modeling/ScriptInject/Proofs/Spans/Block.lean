import ScriptInject.Proofs.Parsing.Block
import ScriptInject.Proofs.Spans.Command
/-! Lists of statements and the blocks that hold them, by the rows that they lay. -/
namespace ScriptInject.Grammar
open Grammar.Parser

variable {i : Input} {ls : List Lexeme} {s t : State} {xs : List NodeId} {g : Nested}
  {token : Token} {closer : Closer}

theorem Place.current?_of_wordAt {p : Place} {keyword : String} (h : p.wordAt keyword = true) :
    ∃ token, p.current? = some token := by
  cases hcur : p.current? with
  | none => simp [wordAt, hcur] at h
  | some token => exact ⟨token, rfl⟩

/-- Traps are taken out of the row of statements. -/
theorem fills_namedBlock {kind : BlockKind} {unnamed : Bool} (isTrap : NodeId → Bool)
    (ids : List NodeId) :
    (Node.namedBlock kind unnamed (ids.filter (!isTrap ·)) (ids.filter isTrap)).Fills ids := by
  constructor
  · refine (List.perm_append_comm).trans ?_
    exact List.filter_append_perm isTrap ids
  · simp [Node.runs]

namespace Lays

/-- What is refused gives way to what can be made in its place. -/
theorem orElseKeep {p other : Parser NodeId} (hs : Standing i ls s) (h : LaysNode i ls p)
    (hother : ∀ {t}, Laid i ls s t [] → t.place = s.place →
      Outcome other i t (Spares i ls s) fun id u => Laid i ls s u [id]) :
    Outcome (Grammar.orElseKeep p other) i s (Spares i ls s) fun id t => Laid i ls s t [id] := by
  have hrun := h s hs
  rw [Outcome] at hrun
  rw [Outcome, Grammar.orElseKeep]
  cases hr : p i s with
  | ok id t =>
    rw [hr] at hrun
    exact hrun
  | error e t =>
    rw [hr] at hrun
    cases e with
    | cut => exact hrun
    | stalled => exact hrun
    | refused e =>
      by_cases hkeep : (t.recovering && isRecoverable e) = true
      · simp only [hkeep, if_true]
        exact hother (Leaves.back ⟨hrun.grows, hrun.tiled⟩ hs rfl) rfl
      · simp only [hkeep]
        exact hrun

theorem errorStatement (h : Laid i ls s t []) (hs : Standing i ls s) (hplace : t.place = s.place)
    (hcur : s.place.current? = some token) :
    Outcome (errorStatement closer) i t (Spares i ls s) fun id u => Laid i ls s u [id] := by
  rw [← hplace] at hcur
  rw [Grammar.errorStatement, Outcome.start_bind, Outcome.place_bind, Outcome.advanceBy_bind,
    Outcome.place_bind]
  have hu := h.advanceBy (errorLength closer t.place.rest)
  refine (hu.slice (P := fun _ v => v = _) fun _ => rfl).bind ?_
  rintro text _ rfl
  have hbehind := h.behind_advanceBy hcur (errorLength_pos closer t.place.rest)
  rw [show t.place.start i.text = s.place.start i.text by rw [hplace]]
  exact hu.add hs hbehind (.inOrder rfl rfl)

theorem listedUsing : LaysSome i ls (fun id => [id]) listedUsing := by
  intro s hs
  rw [Grammar.listedUsing, Outcome.start_bind, Outcome.atWord_bind]
  split
  · rename_i husing
    obtain ⟨token, hcur⟩ := Place.current?_of_wordAt husing
    rw [Outcome.peekNext_bind]
    split
    · split
      · rw [Outcome.advanceBy_bind, Outcome.start_bind, Outcome.place_bind]
        dsimp only
        rw [Outcome.advanceBy_bind]
        have hbehind := hs.laid.behind_advanceBy hcur Nat.two_pos
        have ht := hs.laid.advanceBy 2
        generalize usingTarget _ _ = reach
        have hu := ht.advanceBy reach.1
        split
        · exact hu.unexpected
        · refine (hu.slice (P := fun _ v => v = _) fun _ => rfl).bind ?_
          rintro name _ rfl
          refine (hu.add hs ?_ (.inOrder rfl rfl)).bind fun id v hv => ?_
          · exact Nat.le_trans hbehind (ht.along.advanceBy reach.1).2.2
          · rw [Outcome.skipTerminators_bind]
            exact hv.past _
      · exact hs.laid
    · exact hs.laid
  · exact hs.laid

theorem addNamedBlock {kind : BlockKind} {unnamed : Bool} {statements : List NodeId}
    (h : Laid i ls s t statements) (hs : Standing i ls s)
    (hbehind : s.place.start i.text ≤ t.place.stop) :
    Outcome (addNamedBlock kind unnamed statements (s.place.start i.text)) i t (Spares i ls s)
      fun id u => Laid i ls s u [id] := by
  rw [Grammar.addNamedBlock, Outcome.get_bind]
  exact h.add hs hbehind (fills_namedBlock _ _)

theorem atNamedBlock? : LaysNone i ls atNamedBlock? := by
  intro s hs
  rw [Grammar.atNamedBlock?, Outcome.place_bind]
  split <;> exact hs.laid

variable (hg : Laying i ls g)
include hg

theorem terminatedStatement : LaysNode i ls (terminatedStatement g closer) := by
  intro s hs
  rw [Grammar.terminatedStatement]
  refine hs.laid.bind hg.statement fun id t ht => ?_
  rw [Outcome.place_bind]
  dsimp only
  split
  iterate 3 exact ht
  split
  · exact ht
  · exact ht.unexpected

theorem listedStatement : LaysSome i ls (fun id => [id]) (listedStatement g closer) := by
  intro s hs
  rw [Grammar.listedStatement, Outcome.skipTerminators_bind, Outcome.peek_bind]
  have ht := hs.laid.past isTerminator
  split
  · exact ht
  · rename_i hopen
    cases hcur : (s.place.past isTerminator).current? with
    | none => simp [hcur] at hopen
    | some token =>
      refine (ht.goOn (f := fun id => [id]) ?_).bind fun id u hu => hu
      refine orElseKeep ht.standing (terminatedStatement hg) fun hu hplace => ?_
      exact errorStatement hu ht.standing hplace hcur

theorem statementList : Lays i ls (fun ids => ids) (statementList g closer) := by
  intro s hs
  exact (many (listedStatement hg) s hs).imp fun ids t ht => by simpa using ht

theorem statementBlock : LaysNode i ls (statementBlock g) := by
  intro s hs
  rw [Grammar.statementBlock, Outcome.skipNewlines_bind, Outcome.start_bind]
  have ht := hs.laid.past (· == .newline)
  refine ht.goOn (f := fun id => [id]) ?_
  refine ht.standing.laid.expect fun _ => ?_
  refine ht.standing.laid.advance.bind (statementList hg) fun statements u hu => ?_
  refine hu.expect fun hbehind => ?_
  exact hu.advance.add ht.standing hbehind (.inOrder (by simp [Node.children]) rfl)

theorem namedBlock {kind : BlockKind} : LaysNode i ls (namedBlock g kind) := by
  intro s hs
  rw [Grammar.namedBlock, Outcome.start_bind, Outcome.advance_bind, Outcome.skipNewlines_bind]
  refine (hs.laid.advance.past _).expect fun _ => ?_
  refine (hs.laid.advance.past _).advance.bind (statementList hg) fun statements u hu => ?_
  exact hu.expect fun hbehind => addNamedBlock (by simpa using hu.advance) hs hbehind

theorem listedNamedBlock : LaysSome i ls (fun id => [id]) (listedNamedBlock g) := by
  intro s hs
  rw [Grammar.listedNamedBlock]
  refine hs.laid.bind atNamedBlock? fun kind? t ht => ?_
  split
  · refine ht.bind (namedBlock hg) fun id u hu => ?_
    rw [Outcome.skipTerminators_bind]
    exact hu.past _
  · exact ht

theorem blocks : Lays i ls (fun ids => ids) (blocks g closer) := by
  intro s hs
  rw [Grammar.blocks]
  refine hs.laid.bind atNamedBlock? fun kind? t ht => ?_
  split
  · refine ht.bind (many (listedNamedBlock hg)) fun ids u hu => ?_
    rw [Outcome.peek_bind]
    split
    · simpa using hu
    · exact hu.unexpected
  · rw [Outcome.start_bind]
    refine ht.goOn (f := fun ids => ids) ?_
    refine ht.standing.laid.bind (statementList hg) fun statements u hu => ?_
    split
    · rename_i hnone
      simpa [List.isEmpty_iff.mp hnone] using hu
    · rename_i hsome
      have hbehind := hu.behind (by simpa using hsome)
      exact (addNamedBlock hu ht.standing hbehind).bind fun id v hv => hv

/-- The span of a script block ends no later than what follows the block starts. It can be empty
behind all that has been read. -/
theorem scriptBlock (hs : Standing i ls s) :
    Outcome (scriptBlock g closer) i s (Spares i ls s) fun id t =>
      Laid i ls s t [] ∧ t.arena.Row (s.place.start i.text) (t.place.start i.text) [id] := by
  rw [Grammar.scriptBlock, Outcome.start_bind, Outcome.skipTerminators_bind]
  have hrest {usings : List NodeId} {t : State} (ht : Laid i ls s t usings) : Outcome (do
        let params ← Grammar.paramBlock? g
        skipTerminators
        let blocks ← Grammar.blocks g closer
        add (.scriptBlock usings params blocks) (s.place.start i.text)) i t (Spares i ls s)
        fun id t => Laid i ls s t [] ∧
          t.arena.Row (s.place.start i.text) (t.place.start i.text) [id] := by
    refine ht.bind (paramBlock? hg) fun params u hu => ?_
    rw [Outcome.skipTerminators_bind]
    refine (hu.past _).bind (blocks hg) fun blocks v hv => ?_
    refine (hv.addOver hs (.inOrder (by simp [Node.children]) rfl)).imp ?_
    rintro id w ⟨hw, hplace, hid⟩
    refine ⟨hw, .single hid (Nat.le_refl _) (Nat.le_max_right _ _) (Nat.max_le.mpr ⟨?_, ?_⟩)⟩
    · exact hplace ▸ hw.along.stop_le_start
    · exact hw.onto.1
  split
  · exact (hs.laid.past _).bind (many listedUsing) fun usings t ht => hrest (by simpa using ht)
  · exact hrest (hs.laid.past _)

/-- A script block and the brace that closes it. -/
theorem closedBlock {α : Type} {k : NodeId → Parser α} {Q : α → State → Prop}
    (h : Laid i ls s t xs) (hk : ∀ id u, Laid i ls s u (xs ++ [id]) → Outcome (k id) i u (Spares i ls s) Q) :
    Outcome (do
      let body ← Grammar.scriptBlock g .brace
      expect .rbrace
      k body) i t (Spares i ls s) Q := by
  refine ((scriptBlock hg h.standing).mono (fun _ _ hu => h.toLeaves.trans hu)
    fun _ _ hu => hu).bind ?_
  rintro id u ⟨hu, hrow⟩
  rw [Outcome.expect_bind]
  refine ⟨fun hbrace => hk id _ ?_, fun _ => ?_⟩
  · have hv : Laid i ls t { u with place := u.place.advance } [id] :=
      { hu.advance with
        row := hrow.widen (Nat.le_refl _) (hu.along.start_le_stop_advance hbrace) }
    exact h.trans hv
  · exact Outcome.unexpected_bind fun _ => h.toLeaves.trans hu.toLeaves

end Lays

end ScriptInject.Grammar
