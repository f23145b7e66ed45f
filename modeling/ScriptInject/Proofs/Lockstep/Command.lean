import ScriptInject.Proofs.Lockstep.Attribute
/-! Pipelines, read twice. -/
namespace ScriptInject.Grammar

theorem glued_shift (offset stop : Nat) (ls : List Lexeme) :
    glued (stop + offset) (ls.map (Lexeme.shift offset)) =
      ((glued stop ls).1, (glued stop ls).2 + offset) := by
  induction ls generalizing stop with
  | nil => rfl
  | cons l ls ih =>
    have hstart : (l.span.start + offset == stop + offset) = (l.span.start == stop) :=
      Place.beq_add_right _ _ _
    simp only [List.map_cons, glued, Lexeme.shift, Span.shift, hstart]
    split
    · rw [ih]
    · rfl

namespace Lockstep

variable {σ : Alignment} {P : State → Prop} {g : Nested}

theorem bareWordText : Lockstep σ P (fun a => a) bareWordText bareWordText Any := by
  rw [Grammar.bareWordText]
  refine place_bind fun p => ?_
  cases hrest : p.rest with
  | nil =>
    simp only [Alignment.place, hrest, List.map_nil]
    exact pure rfl fun _ _ => trivial
  | cons l ls =>
    simp only [Alignment.place, hrest, List.map_cons, Lexeme.shift, Span.shift, glued_shift]
    exact advanceBy_bind (slice.imp fun _ _ _ => trivial)

theorem bareWord : Lockstep σ P σ.id bareWord bareWord Any := by
  rw [Grammar.bareWord]
  exact start_bind fun start => bind bareWordText fun value => add rfl

theorem invocation? : Lockstep σ P (fun a => a) invocation? invocation? Any := by
  rw [Grammar.invocation?]
  refine peek_bind fun t => ?_
  split
  · exact advance_bind (pure rfl fun _ _ => trivial)
  · refine place_bind fun p => ?_
    rw [Place.isNextAdjacent_place]
    split
    · exact pure rfl fun _ _ => trivial
    · exact advance_bind (pure rfl fun _ _ => trivial)
  · exact pure rfl fun _ _ => trivial

theorem atCommand {afterPipe : Bool} :
    Lockstep σ P (fun a => a) (atCommand afterPipe) (atCommand afterPipe) Any := by
  rw [Grammar.atCommand]
  refine peek_bind fun t => ?_
  split <;> exact pure rfl fun _ _ => trivial

/-- The expression has a span, which moves along. -/
theorem expressionElement {expression : NodeId} (hP : ∀ s, P s → Stood expression s) :
    Lockstep σ P σ.id (expressionElement expression) (expressionElement (σ.id expression)) Any := by
  rw [Grammar.expressionElement, Grammar.expressionElement]
  refine get_bind (fun s => onward_addAt _ _ _ _) fun {s s'} ha hs => ?_
  obtain ⟨span, hspan⟩ := Option.isSome_iff_exists.mp (hP s hs).span
  have hspan' : s'.arena.span? (σ.id expression) = some (span.shift σ.offset) := by
    rw [Alignment.id, σ.span?_eq ha.arena, hspan]
    rfl
  rw [hspan, hspan']
  exact addAt rfl rfl fun _ _ _ _ _ => trivial

variable (hg : Paired σ g)
include hg

theorem operands {start : Nat} :
    Lockstep σ P σ.id (operands g start) (operands g (start + σ.offset)) Stood := by
  rw [Grammar.operands, Grammar.operands]
  refine bind hg.unary fun first => peek_bind fun t => ?_
  split
  · refine bind (Q := fun _ => Begun) ?_ fun others => addStood rfl fun _ hs => hs
    refine (afterCommas ?_).weaken fun _ hs => hs.1.begun
    exact skipNewlines_bind (hg.unary.imp fun _ _ hs => hs.begun)
  · exact pure rfl fun _ hs => hs.1

theorem commandArgument : Lockstep σ P σ.id (commandArgument g) (commandArgument g) Any := by
  rw [Grammar.commandArgument]
  refine start_bind fun start => peek_bind fun t => ?_
  split
  iterate 5 exact bareWord
  exact (operands hg).imp fun _ _ _ => trivial

theorem commandParameter {dashWord : String} :
    Lockstep σ P σ.id (commandParameter g dashWord) (commandParameter g dashWord) Any := by
  simp only [Grammar.commandParameter]
  refine start_bind fun start => advance_bind ?_
  split
  · exact bind (commandArgument hg) fun argument => add rfl
  · exact add rfl

theorem commandElement :
    Lockstep σ P (Option.map σ.id) (commandElement g) (commandElement g) Any := by
  rw [Grammar.commandElement]
  refine peek_bind fun t => ?_
  split
  iterate 6 exact pure rfl fun _ _ => trivial
  · exact (some_bind (commandParameter hg)).imp fun _ _ _ => trivial
  · exact (some_bind (commandArgument hg)).imp fun _ _ _ => trivial

theorem command : Lockstep σ P σ.id (command g) (command g) Any := by
  rw [Grammar.command]
  refine start_bind fun start => bind invocation? fun invocation => ?_
  have hothers {P : State → Prop} (name : NodeId) : Lockstep σ P σ.id
      (do
        let others ← Parser.many (Grammar.commandElement g)
        Parser.add (.command invocation (name :: others)) start)
      (do
        let others ← Parser.many (Grammar.commandElement g)
        Parser.add (.command invocation (σ.id name :: others)) (start + σ.offset)) Any :=
    bind (manyAny (commandElement hg)) fun others => add rfl
  split
  · exact bind (commandArgument hg) hothers
  · exact bind bareWord hothers

theorem laterElement : Lockstep σ P σ.id (laterElement g) (laterElement g) Any := by
  rw [Grammar.laterElement]
  refine skipNewlines_bind (bind atCommand fun isCommand => ?_)
  split
  · exact command hg
  · exact bind (hg.expression true) fun expression => expressionElement fun _ hs => hs

theorem pipelineFrom {start : Nat} {first : NodeId} :
    Lockstep σ P σ.id (pipelineFrom g start first) (pipelineFrom g (start + σ.offset) (σ.id first))
      Any := by
  rw [Grammar.pipelineFrom, Grammar.pipelineFrom]
  refine bind (manyAny (eat_ite ?_ ?_)) fun others => add rfl
  · exact (some_bind (laterElement hg)).imp fun _ _ _ => trivial
  · exact pure rfl fun _ _ => trivial

theorem pipeline : Lockstep σ P σ.id (pipeline g) (pipeline g) Any := by
  rw [Grammar.pipeline]
  refine start_bind fun start => bind atCommand fun isCommand => ?_
  split
  · exact bind (command hg) fun first => pipelineFrom hg
  · refine bind (hg.expression true) fun expression => peek_bind fun t => ?_
    split
    · refine advance_bind (skipNewlines_bind ?_)
      exact bind hg.statement fun right => add rfl
    · exact bind (expressionElement fun _ hs => hs.1) fun first => pipelineFrom hg

end Lockstep

end ScriptInject.Grammar
