import ScriptInject.Proofs.Widening.Command
import ScriptInject.Proofs.Widening.Speculation
/-! Lists of statements and the blocks that hold them, with and without room to spare. -/
namespace ScriptInject.Grammar

namespace Widens

variable {σ : Widening} {closer : Closer}

theorem errorStatement : Widens σ veiled (errorStatement closer) (errorStatement closer) := by
  rw [Grammar.errorStatement]
  refine start_bind fun start => place_bind fun p => advanceBy_bind (place_bind fun q => ?_)
  exact bindEq slice fun text => add fun _ => rfl

theorem addNamedBlock {kind : BlockKind} {unnamed : Bool} {statements statements' : List NodeId}
    {start : Nat} (h : σ.Same (List.map veiled) statements statements') :
    Widens σ veiled (addNamedBlock kind unnamed statements start)
      (addNamedBlock kind unnamed statements' start) := by
  rw [Grammar.addNamedBlock, Grammar.addNamedBlock]
  exact get_bind fun harena => add fun he => by rw [h.eq he, harena he]

theorem atNamedBlock? : Widens σ id atNamedBlock? atNamedBlock? := by
  rw [Grammar.atNamedBlock?]
  refine place_bind fun p => ?_
  split <;> exact pure (.refl _)

theorem listedUsing : Widens σ (Option.map veiled) listedUsing listedUsing := by
  rw [Grammar.listedUsing]
  refine start_bind fun start => atWord_bind fun isUsing => ?_
  split
  · refine peekNext_bind fun t => ?_
    split
    · split
      · refine advanceBy_bind (start_bind fun nameStart => place_bind fun p => advanceBy_bind ?_)
        split
        · exact unexpected
        · refine bindEq slice fun name => bind (add fun _ => rfl) fun id id' h => ?_
          exact skipTerminators_bind (pure h.some)
      · exact pure (.refl _)
    · exact pure (.refl _)
  · exact pure (.refl _)

variable {g g' : Nested} (hg : Widened σ g g')
include hg

theorem terminatedStatement :
    Widens σ veiled (terminatedStatement g closer) (terminatedStatement g' closer) := by
  rw [Grammar.terminatedStatement, Grammar.terminatedStatement]
  refine bind hg.statement fun id id' h => place_bind fun p => ?_
  dsimp only
  split
  iterate 3 exact pure h
  split
  · exact pure h
  · exact unexpected

theorem listedStatement :
    Widens σ (Option.map veiled) (listedStatement g closer) (listedStatement g' closer) := by
  rw [Grammar.listedStatement, Grammar.listedStatement]
  refine skipTerminators_bind (peek_bind fun t => ?_)
  split
  · exact pure (.refl _)
  · exact some_bind (orElseKeep (terminatedStatement hg) errorStatement.narrow errorStatement.wide)

theorem statementList :
    Widens σ (List.map veiled) (statementList g closer) (statementList g' closer) :=
  many (listedStatement hg)

theorem statementBlock : Widens σ veiled (statementBlock g) (statementBlock g') := by
  rw [Grammar.statementBlock, Grammar.statementBlock]
  refine skipNewlines_bind (start_bind fun start => expect_bind ?_)
  refine bind (statementList hg) fun statements statements' h => expect_bind ?_
  exact add fun he => by rw [h.eq he]

theorem namedBlock {kind : BlockKind} :
    Widens σ veiled (namedBlock g kind) (namedBlock g' kind) := by
  rw [Grammar.namedBlock, Grammar.namedBlock]
  refine start_bind fun start => advance_bind (skipNewlines_bind (expect_bind ?_))
  exact bind (statementList hg) fun statements statements' h => expect_bind (addNamedBlock h)

theorem listedNamedBlock :
    Widens σ (Option.map veiled) (listedNamedBlock g) (listedNamedBlock g') := by
  rw [Grammar.listedNamedBlock, Grammar.listedNamedBlock]
  refine bindEq atNamedBlock? fun kind? => ?_
  split
  · exact bind (namedBlock hg) fun id id' h => skipTerminators_bind (pure h.some)
  · exact pure (.refl _)

theorem blocks : Widens σ (List.map veiled) (blocks g closer) (blocks g' closer) := by
  rw [Grammar.blocks, Grammar.blocks]
  refine bindEq atNamedBlock? fun kind? => ?_
  split
  · refine bind (many (listedNamedBlock hg)) fun ids ids' h => peek_bind fun t => ?_
    split
    · exact pure h
    · exact unexpected
  · refine start_bind fun start => bind (statementList hg) fun statements statements' h => ?_
    have hempty : statements.isEmpty = statements'.isEmpty := by
      simpa using congrArg List.isEmpty h.shape
    rw [hempty]
    split
    · exact pure (.refl _)
    · exact bind (addNamedBlock h) fun id id' hid => pure (.cons hid (.refl []))

end Widens

/-- What comes after the `using` statements of a script block. -/
def sectionsFrom (g : Nested) (closer : Closer) (start : Nat) (usings : List NodeId) :
    Parser NodeId := do
  let params ← paramBlock? g
  Parser.skipTerminators
  let blocks ← blocks g closer
  Parser.add (.scriptBlock usings params blocks) start

section Blocks

variable {σ : Widening} {i : Input} {closer : Closer} {g g' : Nested} {s t u : State} {start : Nat}
  {usings usings' : List NodeId} {params : Option NodeId}

theorem add_full (h : s.arena.Full) (n : Node NodeId) (start : Nat) :
    Parser.add n start i s = .error (.refused (.arena .full)) s := by
  change Parser.addAt n ⟨start, max s.place.stop start⟩ i s = _
  rw [Lockstep.addAt_run, h.add]

/-- Where an annotation is refused, statements are read instead, and these are refused as well. -/
theorem Refused.blocks_error (hg : Widened σ g g') (hu : Refused σ.narrow g s u)
    (hd : s.depth = σ.depth) (hs : s.recovering = false) {id : NodeId} :
    (do
      Parser.skipTerminators
      let blocks ← blocks g closer
      Parser.add (.scriptBlock usings params blocks) start) σ.narrow { u with place := s.place } ≠
        .ok id t := by
  intro hr
  have hcalm := hu.calm (Widens.bracketHead hg).narrow
  change (blocks g closer >>= fun blocks => Parser.add (.scriptBlock usings params blocks) start)
    σ.narrow { u with place := s.place.past isTerminator } = .ok id t at hr
  rw [Place.past_bracket hu.bracket, Lockstep.bind_run] at hr
  cases hblocks : blocks g closer σ.narrow { u with place := s.place } with
  | error e v =>
    rw [hblocks] at hr
    cases hr
  | ok ids v =>
    rw [hblocks] at hr
    rcases hg.refused hu hd hs with hfull | hhopeless
    · have hrest : Rests σ.narrow (blocks g closer) := (Widens.blocks hg).narrow
      have hcalm' := hrest { u with place := s.place }
      rw [hblocks] at hcalm'
      have hv : v.arena.Full := hcalm'.full hfull
      dsimp only at hr
      rw [add_full hv] at hr
      cases hr
    · have hfails : Hopeless (blocks g closer) σ.narrow { u with place := s.place } :=
        hhopeless rfl hcalm.depth (hcalm.recovering.trans hs)
      exact hfails.of_ok hblocks

theorem Widens.sectionsFrom (hg : Widened σ g g') (h : σ.Same (List.map veiled) usings usings') :
    Widens σ veiled (sectionsFrom g closer start usings) (sectionsFrom g' closer start usings') := by
  have hrest {usings usings' : List NodeId} (h : σ.Same (List.map veiled) usings usings')
      {params params' : Option NodeId} (hp : σ.Same (Option.map veiled) params params') :
      Widens σ veiled
        (do
          Parser.skipTerminators
          let blocks ← Grammar.blocks g closer
          Parser.add (.scriptBlock usings params blocks) start)
        (do
          Parser.skipTerminators
          let blocks ← Grammar.blocks g' closer
          Parser.add (.scriptBlock usings' params' blocks) start) :=
    skipTerminators_bind (bind (blocks hg) fun _ _ hb => add fun he => by
      rw [h.eq he, hp.eq he, hb.eq he])
  have hparams := rests_paramBlock? hg
  refine ⟨hparams.1.bind fun params => (hrest (.refl usings) (.refl params)).narrow,
    hparams.2.bind fun params => (hrest (.refl usings') (.refl params)).wide, fun ha hr => ?_⟩
  rename_i s s' id t
  rw [Grammar.sectionsFrom, Lockstep.bind_run] at hr
  cases hfound : paramBlock? g σ.narrow s with
  | error e u =>
    rw [hfound] at hr
    cases hr
  | ok params u =>
    rw [hfound] at hr
    rcases paramBlock?_sustains hg ha hfound with hsame | ⟨v, hv, rfl⟩
    · refine hsame.bind (fun params' u' hp hu => (hrest h hp).follows hu hr) fun params' => ?_
      exact (hrest h (.refl params')).wide
    · exact absurd hr (hv.blocks_error hg ha.depth ha.strict)

theorem Widens.scriptBlock (hg : Widened σ g g') :
    Widens σ veiled (scriptBlock g closer) (scriptBlock g' closer) := by
  rw [Grammar.scriptBlock, Grammar.scriptBlock]
  refine start_bind fun start => skipTerminators_bind ?_
  split
  · exact bind (many listedUsing) fun _ _ h => sectionsFrom hg h
  · exact bind (pure (.refl _)) fun _ _ h => sectionsFrom hg h

end Blocks

end ScriptInject.Grammar
