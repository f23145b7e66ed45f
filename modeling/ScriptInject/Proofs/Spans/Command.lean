import ScriptInject.Proofs.Reading.Command
import ScriptInject.Proofs.Spans.Attribute
/-! Commands and pipelines, by the rows that they lay. -/
namespace ScriptInject.Grammar
open Grammar.Parser

variable {i : Input} {ls : List Lexeme} {s t : State} {xs : List NodeId} {g : Nested}
  {token : Token}

namespace Lays

theorem bareWordText (h : Laid i ls s t xs) (hcur : t.place.current? = some token) :
    Outcome bareWordText i t (Spares i ls s) fun _ u =>
      Laid i ls s u xs ∧ s.place.start i.text ≤ u.place.stop := by
  rw [Grammar.bareWordText, Outcome.place_bind]
  cases hr : t.place.rest with
  | nil => simp [Place.current?, hr] at hcur
  | cons l rest =>
    dsimp only
    generalize glued l.span.stop rest = reach
    obtain ⟨n, stop⟩ := reach
    rw [Outcome.advanceBy_bind]
    have hu := h.advanceBy (n + 1)
    exact hu.slice fun _ => ⟨hu, h.behind_advanceBy hcur (Nat.succ_pos n)⟩

theorem bareWord (hs : Standing i ls s) (hcur : s.place.current? = some token) :
    Outcome bareWord i s (Spares i ls s) fun id t => Laid i ls s t [id] := by
  rw [Grammar.bareWord, Outcome.start_bind]
  refine (bareWordText hs.laid hcur).bind ?_
  rintro value t ⟨ht, hbehind⟩
  exact ht.add hs hbehind (.inOrder rfl rfl)

theorem invocation? (hs : Standing i ls s) :
    Outcome invocation? i s (Spares i ls s) fun o t =>
      Laid i ls s t [] ∧ (o = none → t.place = s.place) := by
  rw [Grammar.invocation?, Outcome.peek_bind]
  split
  · rw [Outcome.advance_bind]
    exact ⟨hs.laid.advance, by simp⟩
  · rw [Outcome.place_bind]
    split
    · exact ⟨hs.laid, fun _ => rfl⟩
    · rw [Outcome.advance_bind]
      exact ⟨hs.laid.advance, by simp⟩
  · exact ⟨hs.laid, fun _ => rfl⟩

/-- The element stands where its expression does. -/
theorem expressionElement {expression : NodeId} (h : Laid i ls s t [expression]) :
    Outcome (expressionElement expression) i t (Spares i ls s) fun id u => Laid i ls s u [id] := by
  obtain ⟨span, hspan, hlo, hle, hhi⟩ := h.row.within expression (by simp)
  have hrow : t.arena.Row span.start span.stop [expression] :=
    .single hspan (Nat.le_refl _) hle (Nat.le_refl _)
  rw [Grammar.expressionElement, Outcome.get_bind, hspan, Option.getD_some]
  refine (h.addAt (n := .commandExpression expression) (.inOrder rfl rfl) hrow
    (h.tiled.bounds _ _ hspan)).imp ?_
  rintro id u ⟨hu, hplace, hid⟩
  exact ⟨hu, hplace ▸ h.along, hplace ▸ h.onto, .single hid hlo hle (hplace ▸ hhi)⟩

variable (hg : Laying i ls g)
include hg

theorem operands (hs : Standing i ls s) :
    Outcome (operands g (s.place.start i.text)) i s (Spares i ls s)
      fun id t => Laid i ls s t [id] := by
  rw [Grammar.operands]
  refine hs.laid.bind hg.unary fun first t ht => ?_
  rw [Outcome.peek_bind]
  split
  · have hnext : LaysNode i ls (do skipNewlines; g.unary) := by
      intro u hu
      rw [Outcome.skipNewlines_bind]
      exact (hu.laid.past _).run hg.unary
    refine ht.bind (afterCommas hnext) fun others u hu => ?_
    exact hu.add hs (hu.behind (by simp)) (.inOrder (by simp [Node.children]) rfl)
  · exact ht

theorem commandArgument : LaysNode i ls (commandArgument g) := by
  intro s hs
  rw [Grammar.commandArgument, Outcome.start_bind, Outcome.peek_bind]
  split
  · exact bareWord hs ‹_›
  · exact bareWord hs ‹_›
  · exact bareWord hs ‹_›
  · exact bareWord hs ‹_›
  · exact bareWord hs ‹_›
  · exact operands hg hs

theorem commandParameter {word : String} (hs : Standing i ls s)
    (hcur : s.place.current? = some token) :
    Outcome (commandParameter g word) i s (Spares i ls s) fun id t => Laid i ls s t [id] := by
  rw [Grammar.commandParameter, Outcome.start_bind, Outcome.advance_bind]
  dsimp only
  split
  · refine hs.laid.advance.bind (commandArgument hg) fun argument t ht => ?_
    exact ht.add hs (ht.behind (by simp)) (.inOrder rfl rfl)
  · exact hs.laid.advance.add hs (hs.laid.behind_advance hcur) (.inOrder rfl rfl)

theorem commandElement : LaysSome i ls (fun id => [id]) (commandElement g) := by
  intro s hs
  rw [Grammar.commandElement, Outcome.peek_bind]
  split
  iterate 6 exact hs.laid
  · exact (commandParameter hg hs ‹_›).bind fun id t ht => ht
  · exact hs.laid.bind (commandArgument hg) fun id t ht => ht

theorem command (hs : Standing i ls s) (hcur : s.place.current? = some token) :
    Outcome (command g) i s (Spares i ls s) fun id t => Laid i ls s t [id] := by
  have hrest {invocation : Option Invocation} {name : NodeId} {t : State}
      (ht : Laid i ls s t [name]) : Outcome (do
        let others ← Parser.many (Grammar.commandElement g)
        add (.command invocation (name :: others)) (s.place.start i.text)) i t (Spares i ls s)
        fun id t => Laid i ls s t [id] := by
    refine ht.bind (many (commandElement hg)) fun others u hu => ?_
    exact hu.add hs (hu.behind (by simp)) (.inOrder (by simp [Node.children]) rfl)
  rw [Grammar.command, Outcome.start_bind]
  refine (invocation? hs).bind ?_
  rintro invocation t ⟨ht, hsame⟩
  cases invocation with
  | some mark => exact ht.bind (commandArgument hg) fun name u hu => hrest hu
  | none =>
    refine (ht.goOn (bareWord ht.standing (by rwa [hsame rfl]))).bind fun name u hu => hrest hu

theorem laterElement : LaysNode i ls (laterElement g) := by
  intro s hs
  rw [Grammar.laterElement, Outcome.skipNewlines_bind]
  have ht := hs.laid.past (· == .newline)
  refine atCommand_ite ?_ fun _ => ?_
  · rintro ⟨token, hcur, -⟩
    exact ht.goOn (command hg ht.standing hcur)
  · exact ht.bind (hg.expression true) fun expression u hu => expressionElement hu

theorem pipelineFrom {first : NodeId} (h : Laid i ls s t [first]) (hs : Standing i ls s) :
    Outcome (pipelineFrom g (s.place.start i.text) first) i t (Spares i ls s)
      fun id u => Laid i ls s u [id] := by
  rw [Grammar.pipelineFrom]
  refine h.bind (many (f := fun id => [id]) fun u hu => ?_) fun others u hu => ?_
  · rw [Outcome.eat_ite]
    constructor
    · intro _
      exact hu.laid.advance.bind (laterElement hg) fun id v hv => hv
    · intro _
      exact hu.laid
  · exact hu.add hs (hu.behind (by simp)) (.inOrder (by simp [Node.children]) rfl)

theorem pipeline : LaysNode i ls (pipeline g) := by
  intro s hs
  rw [Grammar.pipeline, Outcome.start_bind]
  refine atCommand_ite ?_ fun _ => ?_
  · rintro ⟨token, hcur, -⟩
    exact (command hg hs hcur).bind fun first t ht => pipelineFrom hg ht hs
  · refine hs.laid.bind (hg.expression true) fun expression t ht => ?_
    rw [Outcome.peek_bind]
    split
    · rw [Outcome.advance_bind, Outcome.skipNewlines_bind]
      refine (ht.advance.past _).bind hg.statement fun right u hu => ?_
      exact hu.add hs (hu.behind (by simp)) (.inOrder rfl rfl)
    · exact (expressionElement ht).bind fun first u hu => pipelineFrom hg hu hs

end Lays

end ScriptInject.Grammar
