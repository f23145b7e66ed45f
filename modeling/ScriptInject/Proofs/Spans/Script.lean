import ScriptInject.Proofs.Spans.Statement
import ScriptInject.Proofs.WellFormed
/-! Where the nodes of a script stand in its text. -/
namespace ScriptInject

namespace Arena

variable {a : Arena} {cs : List Char} {ls : List Lexeme} {root id : NodeId}

/-- What the nodes cover does not overlap. -/
def Apart (a : Arena) (x y : NodeId) : Prop :=
  ∀ span span', a.span? x = some span → a.span? y = some span' →
    span.stop ≤ span'.start ∨ span'.stop ≤ span.start

/-- A node stands in the text around its children, which stand apart from each other and in the
order in which they are listed. -/
structure Stands (cs : List Char) (ls : List Lexeme) (a : Arena) (span : Span)
    (n : Node NodeId) : Prop where
  bounds : span.Bounds cs ls
  within : ∀ c ∈ n.children, ∃ below, a.span? c = some below ∧
    span.start ≤ below.start ∧ below.stop ≤ span.stop
  apart : n.children.Pairwise a.Apart
  ordered : ∀ run ∈ n.runs, run.Pairwise a.Before

/-- Every node that the root leads to stands in the text. -/
def InPlace (cs : List Char) (ls : List Lexeme) (a : Arena) : Prop :=
  ∀ root, a.root? = some root → ∀ id, a.Reaches root id →
    ∃ n span, a.get? id = some n ∧ a.span? id = some span ∧ a.Stands cs ls span n

namespace Tiled

theorem withRoot (h : a.Tiled cs ls) : (a.withRoot root).Tiled cs ls where
  tidy := h.tidy.withRoot
  bounds := h.bounds
  row id n hn := by
    obtain ⟨span, row, hspan, hfills, hrow⟩ := h.row id n hn
    exact ⟨span, row, hspan, hfills, hrow.within, hrow.ordered⟩

theorem stands (h : a.Tiled cs ls) {n : Node NodeId} (hn : a.get? id = some n) :
    ∃ span, a.span? id = some span ∧ a.Stands cs ls span n := by
  obtain ⟨span, row, hspan, hfills, hrow⟩ := h.row id n hn
  refine ⟨span, hspan, h.bounds id span hspan, fun c hc => ?_, ?_, fun run hrun => ?_⟩
  · obtain ⟨below, hbelow, hstart, -, hstop⟩ := hrow.within c (hfills.perm.subset hc)
    exact ⟨below, hbelow, hstart, hstop⟩
  · refine (hfills.perm.pairwise_iff fun {x y} hxy => ?_).mpr (hrow.ordered.imp fun hxy => ?_)
    · exact fun s s' hs hs' => (hxy s' s hs' hs).symm
    · exact fun s s' hs hs' => .inl (hxy s s' hs hs')
  · exact hrow.ordered.sublist (hfills.runs run hrun)

theorem inPlace (h : a.Tiled cs ls)
    (hroot : ∀ root, a.root? = some root → (a.get? root).isSome) : a.InPlace cs ls := by
  intro root hr id hid
  have hget : (a.get? id).isSome := by
    induction hid with
    | root => exact hroot root hr
    | child _ hn hc _ => exact h.tidy.child_get? hn _ hc
  obtain ⟨n, hn⟩ := Option.isSome_iff_exists.mp hget
  obtain ⟨span, hspan, hstands⟩ := h.stands hn
  exact ⟨n, span, hn, hspan, hstands⟩

end Tiled

end Arena

namespace Grammar
open Grammar.Parser

variable {i : Input} {ls : List Lexeme}

/-- At every depth the rules lay a node each. -/
theorem laying_nested (n : Nat) : Laying i ls (nested n) := by
  induction n with
  | zero =>
    have hnone : LaysNode i ls (guarded (throw .stalled)) := Lays.guarded fun s hs => .refl hs.tiled
    exact ⟨hnone, fun _ => hnone, hnone⟩
  | succ n ih =>
    exact
      { statement := Lays.guarded (Lays.statement ih)
        expression := fun commas => Lays.guarded (Lays.ternary ih commas)
        unary := Lays.guarded (Lays.unary ih) }

/-- Whether or not it succeeds, the reading of a script leaves a tiled arena. -/
theorem tiled_script {s : State} (h : Standing i ls s) :
    Outcome script i s (fun _ t => t.arena.Tiled i.text ls) fun _ t =>
      t.arena.Tiled i.text ls := by
  have hrun : Outcome (scriptBlock (nested i.maxDepth) .endOfText) i s
      (fun _ t => t.arena.Tiled i.text ls) fun _ t => t.arena.Tiled i.text ls :=
    (Lays.scriptBlock (laying_nested i.maxDepth) h).mono (fun _ _ ht => ht.tiled)
      fun _ _ ht => ht.1.tiled
  unfold Outcome at hrun ⊢
  unfold script
  exact hrun

end Grammar

namespace Script
open Grammar

variable {source : String} {a : Arena} {maxDepth : Nat} {errors : List ParseError}

theorem tiled_of_parseWithin (h : parseWithin maxDepth source = .ok a) :
    a.Tiled source.toList (Lexeme.ofBrokenText source.toList).1 := by
  have hlined := Lexeme.lined_ofBrokenText source.toList
  rw [parseWithin] at h
  cases hl : Lexeme.ofText? source.toList with
  | error e => simp [hl] at h
  | ok lexemes =>
    rw [Lexeme.ofText?_eq_ok_iff.mp hl] at hlined ⊢
    have hrun := tiled_script (i := ⟨source.toList, maxDepth⟩)
      (s := { place := { rest := lexemes } }) ⟨⟨hlined, [], rfl, rfl⟩, .empty⟩
    rw [hl] at h
    unfold Outcome at hrun
    dsimp only at h
    cases hs : script ⟨source.toList, maxDepth⟩ { place := { rest := lexemes } } with
    | error f t => simp [hs] at h
    | ok root t =>
      rw [hs] at h hrun
      exact Except.ok.inj h ▸ hrun.withRoot

theorem tiled_of_parseRecovering (h : parseRecovering source = .ok (a, errors)) :
    a.Tiled source.toList (Lexeme.ofBrokenText source.toList).1 := by
  have hlined := Lexeme.lined_ofBrokenText source.toList
  rw [parseRecovering] at h
  dsimp only at h
  generalize Lexeme.ofBrokenText source.toList = broken at h hlined ⊢
  obtain ⟨lexemes, tokenErrors⟩ := broken
  have hrun := tiled_script (i := ⟨source.toList, defaultMaxDepth⟩)
    (s := { place := { rest := lexemes }, recovering := true })
    ⟨⟨hlined, [], rfl, rfl⟩, .empty⟩
  unfold Outcome at hrun
  dsimp only at h
  cases hs : script ⟨source.toList, defaultMaxDepth⟩
      { place := { rest := lexemes }, recovering := true } with
  | error f t =>
    rw [hs] at h hrun
    cases f with
    | refused e => exact (Prod.mk.inj (Except.ok.inj h)).1 ▸ hrun
    | cut => simp at h
    | stalled => simp at h
  | ok root t =>
    rw [hs] at h hrun
    exact (Prod.mk.inj (Except.ok.inj h)).1 ▸ hrun.withRoot

theorem Forms.get?_root {recovering : Bool} {t : Tree NodeId} (h : Forms recovering a t) :
    ∀ root, a.root? = some root → (a.get? root).isSome := by
  intro root hr
  obtain rfl := Option.some.inj (h.root.symm.trans hr)
  rw [h.holds.get?]
  rfl

/-- Every node of a script covers a range of the text that begins and ends with tokens. It covers
its children, which do not overlap, in the order in which they are listed. Only traps are listed
after the other statements of their block, and named arguments after those without a name. -/
theorem parse_inPlace (source : String) (maxDepth : Nat) :
    (match parseWithin maxDepth source with
      | .ok a => a.InPlace source.toList (Lexeme.ofBrokenText source.toList).1
      | .error _ => True) ∧
    match parseRecovering source with
      | .ok (a, _) => a.InPlace source.toList (Lexeme.ofBrokenText source.toList).1
      | .error _ => True := by
  constructor
  · cases h : parseWithin maxDepth source with
    | error f => trivial
    | ok a =>
      obtain ⟨t, ht⟩ := forms_of_parseWithin h
      exact (tiled_of_parseWithin h).inPlace ht.get?_root
  · cases h : parseRecovering source with
    | error f => trivial
    | ok r =>
      obtain ⟨a, errors⟩ := r
      refine (tiled_of_parseRecovering h).inPlace ?_
      rcases forms_of_parseRecovering h with ⟨t, ht⟩ | ⟨hnone, -⟩
      · exact ht.get?_root
      · exact fun root hr => absurd (hnone.symm.trans hr) (by simp)

end Script

end ScriptInject
