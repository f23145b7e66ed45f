import ScriptInject.Proofs.Widening.Attribute
/-! Pipelines, with and without room to spare. -/
namespace ScriptInject.Grammar.Widens

variable {σ : Widening}

theorem bareWordText : Widens σ id bareWordText bareWordText := by
  rw [Grammar.bareWordText]
  refine place_bind fun p => ?_
  cases p.rest with
  | nil => exact pure (.refl _)
  | cons l ls => exact advanceBy_bind slice

theorem bareWord : Widens σ veiled bareWord bareWord := by
  rw [Grammar.bareWord]
  exact start_bind fun start => bindEq bareWordText fun value => add fun _ => rfl

theorem invocation? : Widens σ id invocation? invocation? := by
  rw [Grammar.invocation?]
  refine peek_bind fun t => ?_
  split
  · exact advance_bind (pure (.refl _))
  · refine place_bind fun p => ?_
    split
    · exact pure (.refl _)
    · exact advance_bind (pure (.refl _))
  · exact pure (.refl _)

theorem atCommand {afterPipe : Bool} :
    Widens σ id (atCommand afterPipe) (atCommand afterPipe) := by
  rw [Grammar.atCommand]
  refine peek_bind fun t => ?_
  split <;> exact pure (.refl _)

/-- Equal arenas know the same span of the expression. -/
theorem expressionElement {expression expression' : NodeId}
    (h : σ.Same veiled expression expression') :
    Widens σ veiled (expressionElement expression) (expressionElement expression') := by
  rw [Grammar.expressionElement, Grammar.expressionElement]
  refine get_bind fun harena => addAt (fun he => ?_) fun he => ?_
  · rw [h.eq he]
  · rw [h.eq he, harena he]

variable {g g' : Nested} (hg : Widened σ g g')
include hg

theorem operands {start : Nat} : Widens σ veiled (operands g start) (operands g' start) := by
  rw [Grammar.operands, Grammar.operands]
  refine bind hg.unary fun first first' h => peek_bind fun t => ?_
  split
  · refine bind (afterCommas (skipNewlines_bind hg.unary)) fun others others' hs => ?_
    exact add fun he => by rw [h.eq he, hs.eq he]
  · exact pure h

theorem commandArgument : Widens σ veiled (commandArgument g) (commandArgument g') := by
  rw [Grammar.commandArgument, Grammar.commandArgument]
  refine start_bind fun start => peek_bind fun t => ?_
  split
  iterate 5 exact bareWord
  exact operands hg

theorem commandParameter {dashWord : String} :
    Widens σ veiled (commandParameter g dashWord) (commandParameter g' dashWord) := by
  simp only [Grammar.commandParameter]
  refine start_bind fun start => advance_bind ?_
  split
  · exact bind (commandArgument hg) fun argument argument' h => add fun he => by rw [h.eq he]
  · exact add fun _ => rfl

theorem commandElement : Widens σ (Option.map veiled) (commandElement g) (commandElement g') := by
  rw [Grammar.commandElement, Grammar.commandElement]
  refine peek_bind fun t => ?_
  split
  iterate 6 exact pure (.refl _)
  · exact some_bind (commandParameter hg)
  · exact some_bind (commandArgument hg)

theorem command : Widens σ veiled (command g) (command g') := by
  rw [Grammar.command, Grammar.command]
  refine start_bind fun start => bindEq invocation? fun invocation => ?_
  have hothers (name name' : NodeId) (h : σ.Same veiled name name') : Widens σ veiled
      (do
        let others ← Parser.many (Grammar.commandElement g)
        Parser.add (.command invocation (name :: others)) start)
      (do
        let others ← Parser.many (Grammar.commandElement g')
        Parser.add (.command invocation (name' :: others)) start) :=
    bind (many (commandElement hg)) fun others others' hs => add fun he => by
      rw [h.eq he, hs.eq he]
  split
  · exact bind (commandArgument hg) hothers
  · exact bind bareWord hothers

theorem laterElement : Widens σ veiled (laterElement g) (laterElement g') := by
  rw [Grammar.laterElement, Grammar.laterElement]
  refine skipNewlines_bind (bindEq atCommand fun isCommand => ?_)
  split
  · exact command hg
  · exact bind (hg.expression true) fun _ _ h => expressionElement h

theorem pipelineFrom {start : Nat} {first first' : NodeId} (h : σ.Same veiled first first') :
    Widens σ veiled (pipelineFrom g start first) (pipelineFrom g' start first') := by
  rw [Grammar.pipelineFrom, Grammar.pipelineFrom]
  refine bind (many (eat_ite (some_bind (laterElement hg)) (pure (.refl _))))
    fun others others' hs => add fun he => ?_
  rw [h.eq he, hs.eq he]

theorem pipeline : Widens σ veiled (pipeline g) (pipeline g') := by
  rw [Grammar.pipeline, Grammar.pipeline]
  refine start_bind fun start => bindEq atCommand fun isCommand => ?_
  split
  · exact bind (command hg) fun _ _ h => pipelineFrom hg h
  · refine bind (hg.expression true) fun expression expression' h => peek_bind fun t => ?_
    split
    · refine advance_bind (skipNewlines_bind (bind hg.statement fun right right' hr => ?_))
      exact add fun he => by rw [h.eq he, hr.eq he]
    · exact bind (expressionElement h) fun _ _ h => pipelineFrom hg h

end ScriptInject.Grammar.Widens
