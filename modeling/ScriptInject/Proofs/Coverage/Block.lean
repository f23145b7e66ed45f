import ScriptInject.Proofs.Coverage.Command
/-! Lists of statements and blocks: every token is read as part of a statement, broken or not, or as a
terminator between two of them. -/
namespace ScriptInject.Grammar
open Grammar.Parser

variable {α β : Type} {i : Input} {ls : List Lexeme} {s t : State} {g : Nested} {closer : Closer}
  {p : Parser α} {k : α → Parser NodeId} {start : Nat} {E E' : Failure → State → Prop}
  {P P' : α → State → Prop}

namespace Outcome

theorem and (h : Outcome p i s E P) (k : Outcome p i s E' P') :
    Outcome p i s (fun f t => E f t ∧ E' f t) fun a t => P a t ∧ P' a t := by
  rw [Outcome] at h k ⊢
  cases hr : p i s with
  | ok a t | error f t =>
    rw [hr] at h k
    exact ⟨h, k⟩

theorem any (p : Parser α) (i : Input) (s : State) :
    Outcome p i s (fun _ _ => True) fun _ _ => True := by
  rw [Outcome]
  cases p i s <;> trivial

end Outcome

/-- The run ends with a node that covers what lies between byte `start` and the token just read. -/
def Ends (i : Input) (start : Nat) (p : Parser NodeId) : Prop :=
  ∀ s, Outcome p i s (fun _ _ => True) fun id t =>
    t.arena.span? id = some ⟨start, max t.place.stop start⟩

namespace Ends

theorem bind (h : ∀ a, Ends i start (k a)) : Ends i start (p >>= k) :=
  fun s => (Outcome.any p i s).bind fun a t _ => h a t

theorem refuse {e : ParseError} : Ends i start (Parser.refuse e) := fun _ => trivial

theorem unexpected {expected : String} : Ends i start (Parser.unexpected expected) :=
  bind fun q => by split <;> exact refuse

theorem add {n : Node NodeId} : Ends i start (Parser.add n start) := by
  intro s
  rw [Parser.add, Outcome.place_bind, Parser.addAt, Outcome.get_bind]
  cases hadd : s.arena.add n (some ⟨start, max s.place.stop start⟩) with
  | error e => trivial
  | ok r =>
    obtain ⟨id, a⟩ := r
    exact Arena.add_span?_some hadd

theorem addNamedBlock {kind : BlockKind} {unnamed : Bool} {statements : List NodeId} :
    Ends i start (addNamedBlock kind unnamed statements start) := bind fun _ => add

end Ends

/-- The end of a rule tells what it covers from its start. -/
theorem Spans.of_ends {k : Nat → Parser NodeId} (h : ∀ start, Ends i start (k start)) :
    Spans i (Parser.start >>= k) := fun s => h (s.place.start i.text) s

namespace Spans

theorem errorStatement : Spans i (errorStatement closer) :=
  .of_ends fun _ => .bind fun _ => .bind fun _ => .bind fun _ => .bind fun _ => .add

theorem namedBlock {kind : BlockKind} : Spans i (namedBlock g kind) :=
  .of_ends fun _ => .bind fun _ => .bind fun _ => .bind fun _ => .bind fun _ => .bind fun _ =>
    .addNamedBlock

theorem terminatedStatement (h : Spans i g.statement) : Spans i (terminatedStatement g closer) := by
  intro s
  refine (h s).bind fun id t ht => ?_
  rw [Outcome.place_bind]
  dsimp only
  split
  iterate 3 exact ht
  split
  · exact ht
  · exact Outcome.unexpected fun _ => trivial

theorem orElseKeep {p other : Parser NodeId} (hp : Spans i p) (hother : Spans i other) :
    Spans i (orElseKeep p other) := by
  intro s
  have hrun := hp s
  rw [Outcome] at hrun
  rw [Outcome, Grammar.orElseKeep]
  cases hr : p i s with
  | ok id t =>
    rw [hr] at hrun
    exact hrun
  | error f t =>
    cases f with
    | cut | stalled => trivial
    | refused e =>
      by_cases hkeep : (t.recovering && isRecoverable e) = true
      · simp only [hkeep, if_true]
        exact hother { t with errors := t.errors ++ [e], place := s.place }
      · simp only [hkeep]
        trivial

end Spans

namespace Keeps

theorem errorStatement : Keeps i ls (errorStatement closer) := by
  refine start.bind fun begin => place.bind fun q => (advanceBy _).bind fun _ => ?_
  -- The text is that between the two bytes that the node is then added with.
  intro s hs
  rw [Outcome.place_bind]
  unfold Parser.slice
  refine Outcome.bind (P := fun text t => t = s ∧
    Text.slice? i.text begin (max s.place.stop begin) = some text.toList) ?_ ?_
  · refine Outcome.bind (P := fun j t => j = i ∧ t = s) ⟨rfl, rfl⟩ ?_
    rintro _ _ ⟨rfl, rfl⟩
    split
    · rename_i cs hslice
      exact ⟨rfl, by rw [hslice, String.toList_ofList]⟩
    · exact hs.preserves
  · rintro text t ⟨rfl, hslice⟩
    rw [Parser.add, Outcome.place_bind]
    have hfit (a : Arena) : a.Fit i.text ls ⟨begin, max t.place.stop begin⟩ (.error text) := hslice
    exact addAt hfit _ hs

end Keeps

/-! Lists of statements. -/

/-- The nodes cover what has been read between the two states. -/
def Takes (i : Input) (ls : List Lexeme) (s : State) (ids : List NodeId) (t : State) : Prop :=
  Preserves i ls s t ∧ t.arena.Covered ls (s.place.start i.text) t.place.stop ids

/-- Wherever the rule starts, the nodes that its result stands for cover what it has read. -/
def Complete (i : Input) (ls : List Lexeme) (f : α → List NodeId) (p : Parser α) : Prop :=
  ∀ s, Held i ls s → Outcome p i s (fun _ t => Preserves i ls s t) fun a t => Takes i ls s (f a) t

namespace Takes

variable {u : State} {xs ys : List NodeId}

theorem refl (hsolid : ∀ l ∈ ls, l.span.start < l.span.stop) (h : Held i ls s) :
    Takes i ls s [] s := ⟨h.preserves, Arena.covered_nil hsolid h.along.stop_le_start⟩

theorem trans (h : Takes i ls s xs t) (k : Takes i ls t ys u) : Takes i ls s (xs ++ ys) u :=
  ⟨h.1.trans k.1, (h.2.grows h.1.intact k.1.grows).trans h.1.along k.2⟩

theorem past (hsolid : ∀ l ∈ ls, l.span.start < l.span.stop) (h : Takes i ls s xs t) :
    Takes i ls s xs { t with place := t.place.past isTerminator } := by
  have hskip : Takes i ls t [] { t with place := t.place.past isTerminator } :=
    ⟨h.1.toHeld.preserves.goto (h.1.along.advanceBy _).1, h.1.along.covered_past hsolid⟩
  simpa using h.trans hskip

end Takes

theorem Complete.of_spans {p : Parser NodeId} (h : Keeps i ls p) (hp : Spans i p) :
    Complete i ls (fun id => [id]) p :=
  fun s hs => ((h s hs).and (hp s)).mono (fun _ _ hf => hf.1) fun _ _ ha => ⟨ha.1, .single ha.2⟩

/-- Nothing belongs to the list any more. -/
def Closer.Over (closer : Closer) (p : Place) : Prop :=
  (p.current?.isNone || closer.isAt p.current?) = true

/-- Items of a list, up to where it is over. -/
theorem Complete.many {item : Parser (Option NodeId)} {F : Place → Prop}
    (hsolid : ∀ l ∈ ls, l.span.start < l.span.stop)
    (h : ∀ s, Held i ls s → Outcome item i s (fun _ t => Preserves i ls s t) fun o t =>
      Takes i ls s o.toList t ∧ (o = none → F t.place)) (hs : Held i ls s) :
    Outcome (Parser.many item) i s (fun _ t => Preserves i ls s t) fun ids t =>
      Takes i ls s ids t ∧ F t.place := by
  refine Outcome.many (I := fun ids t => Takes i ls s ids t) (.refl hsolid hs)
    (fun ids t ht => ht.1) fun ids t ht => ?_
  refine (h t ht.1.toHeld).mono (fun _ u hu => ht.1.trans hu) fun o u hu => ⟨?_, ?_⟩
  · rintro rfl
    exact ⟨by simpa using ht.trans hu.1, hu.2 rfl⟩
  · rintro id rfl
    exact ht.trans hu.1

variable (hg : Keeping i ls g)
include hg

theorem Keeps.terminatedStatement : Keeps i ls (terminatedStatement g closer) := by
  refine hg.statement.bind fun id => place.bind fun q => ?_
  dsimp only
  split
  iterate 3 exact pure id
  split
  · exact pure id
  · exact unexpected _

namespace Complete

/-- A statement, or what is kept of it. -/
theorem keptStatement : Complete i ls (fun id => [id])
    (orElseKeep (terminatedStatement g closer) (errorStatement closer)) :=
  .of_spans (Keeps.orElseKeep (.terminatedStatement hg) .errorStatement)
    (.orElseKeep (.terminatedStatement hg.spans) .errorStatement)

theorem listedStatement (hs : Held i ls s) :
    Outcome (listedStatement g closer) i s (fun _ t => Preserves i ls s t) fun o t =>
      Takes i ls s o.toList t ∧ (o = none → closer.Over t.place) := by
  have hskip := (Takes.refl hg.solid hs).past hg.solid
  rw [Grammar.listedStatement, Outcome.skipTerminators_bind, Outcome.peek_bind]
  dsimp only
  split
  · rename_i hover
    exact ⟨hskip, fun _ => hover⟩
  · refine ((keptStatement hg _ hskip.1.toHeld).mono (fun _ _ ht => hskip.1.trans ht)
      fun _ _ ht => ht).bind fun id t ht => ⟨?_, fun h => by cases h⟩
    simpa using hskip.trans ht

theorem statementList (hs : Held i ls s) :
    Outcome (statementList g closer) i s (fun _ t => Preserves i ls s t) fun ids t =>
      Takes i ls s ids t ∧ closer.Over t.place :=
  many hg.solid (fun _ ht => listedStatement hg ht) hs

end Complete

namespace Keeps

theorem statementList : Keeps i ls (statementList g closer) :=
  fun _ hs => (Complete.statementList hg hs).imp fun _ _ ht => ht.1.1

theorem statementBlock : Keeps i ls (statementBlock g) :=
  skipNewlines.bind fun _ => start.bind fun _ => (expect .lbrace).bind fun _ =>
    (statementList hg).bind fun _ => (expect .rbrace).bind fun _ => add rfl

theorem namedBlock (kind : BlockKind) : Keeps i ls (namedBlock g kind) :=
  start.bind fun _ => advance.bind fun _ => skipNewlines.bind fun _ => (expect .lbrace).bind fun _ =>
    (statementList hg).bind fun _ => (expect .rbrace).bind fun _ => get.bind fun _ => add rfl

end Keeps

/-! Blocks. -/

namespace Complete

theorem listedNamedBlock (hs : Held i ls s) :
    Outcome (listedNamedBlock g) i s (fun _ t => Preserves i ls s t) fun o t =>
      Takes i ls s o.toList t := by
  rw [Grammar.listedNamedBlock, Grammar.atNamedBlock?]
  simp only [Outcome.assoc, Outcome.place_bind]
  split
  · simp only [Outcome.pure_bind]
    split
    · refine (of_spans (Keeps.namedBlock hg _) Spans.namedBlock _ hs).bind fun id t ht => ?_
      rw [Outcome.skipTerminators_bind]
      exact ht.past hg.solid
    · exact .refl hg.solid hs
  · exact .refl hg.solid hs

omit hg in
/-- A block around the statements that have been read. -/
theorem addNamedBlock {kind : BlockKind} {unnamed : Bool} {statements : List NodeId}
    (hsolid : ∀ l ∈ ls, l.span.start < l.span.stop) (ht : Held i ls t)
    (h : t.arena.Covered ls start t.place.stop statements) :
    Outcome (addNamedBlock kind unnamed statements start) i t (fun _ u => Preserves i ls t u)
      fun id u => Preserves i ls t u ∧ u.place = t.place ∧
        u.arena.span? id = some ⟨start, max t.place.stop start⟩ := by
  have hsorted : (statements.filter (!isTrap t.arena ·) ++ statements.filter (isTrap t.arena)).Perm
      statements := List.perm_append_comm.trans (List.filter_append_perm _ statements)
  rw [Grammar.addNamedBlock, Outcome.get_bind, Parser.add, Outcome.place_bind, Parser.addAt,
    Outcome.get_bind]
  split
  · rename_i id a hadd
    obtain ⟨hintact, hgrows⟩ := ht.intact.add (by
      cases unnamed with
      | true => exact (h.max hsolid).perm hsorted.symm
      | false => trivial) hadd
    exact ⟨⟨⟨ht.along, hintact⟩, hgrows⟩, rfl, Arena.add_span?_some hadd⟩
  · exact ht.preserves

/-- The statements of a block without a name, which covers nothing else. -/
theorem unnamedBlock (hs : Held i ls s) :
    Outcome (do
      let start ← Parser.start
      let statements ← Grammar.statementList g closer
      if statements.isEmpty then
        return []
      return [← Grammar.addNamedBlock .endBlock true statements start]) i s
      (fun _ t => Preserves i ls s t) fun ids t => Takes i ls s ids t ∧ closer.Over t.place := by
  rw [Outcome.start_bind]
  refine (statementList hg hs).bind ?_
  rintro statements t ⟨ht, hover⟩
  split
  · rename_i hnone
    rw [List.isEmpty_iff.mp hnone] at ht
    exact ⟨ht, hover⟩
  · refine ((addNamedBlock hg.solid ht.1.toHeld ht.2).mono (fun _ _ hu => ht.1.trans hu)
      fun _ _ hu => hu).bind ?_
    rintro id u ⟨hu, hplace, hspan⟩
    rw [← hplace] at hspan hover
    exact ⟨⟨ht.1.trans hu, .single hspan⟩, hover⟩

theorem blocks (hs : Held i ls s) :
    Outcome (blocks g closer) i s (fun _ t => Preserves i ls s t) fun ids t =>
      Takes i ls s ids t ∧ closer.Over t.place := by
  rw [Grammar.blocks]
  have hat : Outcome Grammar.atNamedBlock? i s (fun _ t => Preserves i ls s t) fun _ t => t = s := by
    rw [Grammar.atNamedBlock?, Outcome.place_bind]
    split <;> rfl
  refine hat.bind ?_
  rintro kind? _ rfl
  split
  · refine (many hg.solid (F := fun _ => True) (fun t ht => (listedNamedBlock hg ht).imp
      fun _ _ hu => ⟨hu, fun _ => trivial⟩) hs).bind ?_
    rintro ids t ⟨ht, -⟩
    rw [Outcome.peek_bind]
    split
    · rename_i hover
      exact ⟨ht, by rw [Closer.Over, hover, Bool.or_true]⟩
    · exact Outcome.unexpected fun _ => ht.1
  · exact unnamedBlock hg hs

/-! Script blocks. -/

theorem paramBlock? (hs : Held i ls s) :
    Outcome (paramBlock? g) i s (fun _ t => Preserves i ls s t) fun o t => Takes i ls s o.toList t := by
  have hspan : Outcome (Grammar.paramBlock? g) i s (fun _ _ => True) fun o t =>
      (o = none → t.place = s.place) ∧ ∀ id, o = some id →
        t.arena.span? id = some ⟨s.place.start i.text, max t.place.stop (s.place.start i.text)⟩ := by
    rw [Grammar.paramBlock?, Outcome.place_bind, Outcome.start_bind]
    refine (Outcome.any _ _ _).bind fun found t _ => ?_
    rw [Outcome.atWord_bind, Outcome.place_bind]
    split
    · refine (Outcome.any advance _ _).bind fun _ t _ => ?_
      refine (Outcome.any skipNewlines _ _).bind fun _ t _ => ?_
      refine (Outcome.any (expect _) _ _).bind fun _ t _ => ?_
      refine (Outcome.any (untilParen _) _ _).bind fun parameters t _ => ?_
      refine (Ends.add t).bind fun id u hu => ⟨fun h => (by cases h), fun _ hid => ?_⟩
      exact Option.some.inj hid ▸ hu
    · rw [Outcome.goto_bind]
      exact ⟨fun _ => rfl, fun _ h => by cases h⟩
  refine ((Keeps.paramBlock? hg s hs).and hspan).mono (fun _ _ ht => ht.1) ?_
  rintro o t ⟨ht, hnone, hsome⟩
  cases o with
  | some id => exact ⟨ht, .single (hsome id rfl)⟩
  | none =>
    refine ⟨ht, ?_⟩
    rw [hnone rfl]
    exact Arena.covered_nil hg.solid hs.along.stop_le_start

omit hg in
theorem listedUsing (hsolid : ∀ l ∈ ls, l.span.start < l.span.stop) (hs : Held i ls s) :
    Outcome listedUsing i s (fun _ t => Preserves i ls s t) fun o t => Takes i ls s o.toList t := by
  have hnone : Takes i ls s [] s := .refl hsolid hs
  rw [Grammar.listedUsing, Outcome.start_bind, Outcome.atWord_bind]
  split
  · rw [Outcome.peekNext_bind]
    split
    · split
      · rw [Outcome.advanceBy_bind, Outcome.start_bind, Outcome.place_bind]
        dsimp only
        rw [Outcome.advanceBy_bind]
        generalize usingTarget _ _ = reach
        have hu : Preserves i ls s
            { s with place := (s.place.advanceBy 2).advanceBy reach.1 } :=
          hs.preserves.goto ((hs.along.advanceBy 2).1.advanceBy reach.1).1
        split
        · exact Outcome.unexpected fun _ => hu
        · refine ((Keeps.slice _ _ _ hu.toHeld).mono (fun _ _ hv => hu.trans hv)
            fun _ _ hv => hu.trans hv).bind fun name v hv => ?_
          refine (((Keeps.add rfl) v hv.toHeld).and (Ends.add v)).mono (fun _ _ hw => hv.trans hw.1)
            (fun _ _ hw => hw) |>.bind ?_
          rintro id w ⟨hw, hspan⟩
          rw [Outcome.skipTerminators_bind]
          exact Takes.past hsolid ⟨hv.trans hw, .single hspan⟩
      · exact hnone
    · exact hnone
  · exact hnone

/-- The sections of a script block cover all that it has read. -/
structure Sections (i : Input) (ls : List Lexeme) (s : State) (id : NodeId) (t : State) : Prop
    extends Preserves i ls s t where
  sections : ∃ usings params blocks, t.arena.get? id = some (.scriptBlock usings params blocks) ∧
    t.arena.Covered ls (s.place.start i.text) t.place.stop (usings ++ params.toList ++ blocks)

theorem scriptBlock (hs : Held i ls s) :
    Outcome (scriptBlock g closer) i s (fun _ t => Preserves i ls s t) fun id t =>
      Sections i ls s id t ∧ closer.Over t.place := by
  rw [Grammar.scriptBlock, Outcome.start_bind, Outcome.skipTerminators_bind]
  have hskip := (Takes.refl hg.solid hs).past hg.solid
  have hrest {usings : List NodeId} {t : State} (ht : Takes i ls s usings t) : Outcome (do
        let params ← Grammar.paramBlock? g
        skipTerminators
        let blocks ← Grammar.blocks g closer
        add (.scriptBlock usings params blocks) (s.place.start i.text)) i t
        (fun _ t => Preserves i ls s t) fun id t =>
          Sections i ls s id t ∧ closer.Over t.place := by
    refine ((paramBlock? hg ht.1.toHeld).mono (fun _ _ hu => ht.1.trans hu)
      fun _ _ hu => ht.trans hu).bind fun params u hu => ?_
    rw [Outcome.skipTerminators_bind]
    have hu := hu.past hg.solid
    refine ((blocks hg hu.1.toHeld).mono (fun _ _ hv => hu.1.trans hv)
      fun _ _ hv => And.intro (hu.trans hv.1) hv.2).bind ?_
    rintro blocks v ⟨hv, hover⟩
    rw [Parser.add, Outcome.place_bind, Parser.addAt, Outcome.get_bind]
    split
    · rename_i id a hadd
      obtain ⟨hintact, hgrows⟩ := hv.1.intact.add (by trivial) hadd
      refine ⟨⟨⟨⟨hv.1.along, hintact⟩, hv.1.grows.trans hgrows⟩, _, _, _, Arena.add_get? hadd, ?_⟩,
        hover⟩
      exact hv.2.grows hv.1.intact hgrows
    · exact hv.1
  split
  · refine ((many hg.solid (F := fun _ => True) (fun t ht => (listedUsing hg.solid ht).imp
      fun _ _ hu => ⟨hu, fun _ => trivial⟩) hskip.1.toHeld).mono (fun _ _ ht => hskip.1.trans ht)
      fun _ _ ht => ht.1).bind fun usings t ht => ?_
    exact hrest (by simpa using hskip.trans ht)
  · exact hrest hskip

end Complete

theorem Keeps.scriptBlock : Keeps i ls (scriptBlock g closer) :=
  fun _ hs => (Complete.scriptBlock hg hs).imp fun _ _ ht => ht.1.toPreserves

end ScriptInject.Grammar
