import ScriptInject.Proofs.Coverage.Statement
import ScriptInject.Proofs.Spans.Script
/-! What a script's nodes cover of its tokens: everything, and nothing twice. -/
namespace ScriptInject

namespace Arena

open Grammar (isTerminator)

variable {a : Arena} {cs : List Char} {ls : List Lexeme} {root id : NodeId} {ids : List NodeId}
  {span : Span}

/-- Exactly one of the nodes covers the range, and that one is listed once. -/
def CoversOnce (a : Arena) (ids : List NodeId) (span : Span) : Prop :=
  ∃ before id after, ids = before ++ id :: after ∧ a.Covers id span ∧
    ∀ other ∈ before ++ after, ¬ a.Covers other span

/-- Nothing of a text is lost: the sections of the script, and in a block without a name the
statements and traps, each cover every token except the terminators, and none twice. What could not
be read is kept as it stands. -/
structure Lossless (cs : List Char) (ls : List Lexeme) (a : Arena) (root : NodeId) : Prop where
  sections : ∃ usings params blocks, a.get? root = some (.scriptBlock usings params blocks) ∧
    ∀ l ∈ ls, isTerminator l.token = false →
      a.CoversOnce (usings ++ params.toList ++ blocks) l.span
  statements : ∀ id kind statements traps,
    a.get? id = some (.namedBlock kind true statements traps) →
    ∀ l ∈ ls, isTerminator l.token = false → a.Covers id l.span →
      a.CoversOnce (statements ++ traps) l.span
  errors : ∀ id text, a.get? id = some (.error text) →
    ∃ span, a.span? id = some span ∧ Text.slice? cs span.start span.stop = some text.toList

/-- Of nodes that stand apart only one covers a token. -/
theorem coversOnce_of_apart (h : ids.Pairwise a.Apart) (hspan : span.start < span.stop)
    (hcovers : ∃ id ∈ ids, a.Covers id span) : a.CoversOnce ids span := by
  obtain ⟨id, hid, hcovers⟩ := hcovers
  obtain ⟨before, after, rfl⟩ := List.append_of_mem hid
  refine ⟨before, id, after, rfl, hcovers, fun other hother hcovers' => ?_⟩
  have hapart : a.Apart other id ∨ a.Apart id other := by
    obtain ⟨-, hafter, hbefore⟩ := List.pairwise_append.mp h
    rcases List.mem_append.mp hother with hother | hother
    · exact .inl (hbefore other hother id (by simp))
    · exact .inr ((List.pairwise_cons.mp hafter).1 other hother)
  obtain ⟨around, haround, hstart, hstop⟩ := hcovers
  obtain ⟨around', haround', hstart', hstop'⟩ := hcovers'
  rcases hapart with hapart | hapart
  · have := hapart _ _ haround' haround
    omega
  · have := hapart _ _ haround haround'
    omega

/-- A tiled arena in which the tokens are covered, and so covered once. -/
theorem Tiled.lossless (h : a.Tiled cs ls) (ha : a.Intact cs ls)
    (hsolid : ∀ l ∈ ls, l.span.start < l.span.stop)
    (hroot : ∃ usings params blocks, a.get? root = some (.scriptBlock usings params blocks) ∧
      ∀ l ∈ ls, isTerminator l.token = false →
        ∃ id ∈ usings ++ params.toList ++ blocks, a.Covers id l.span) : a.Lossless cs ls root where
  sections := by
    obtain ⟨usings, params, blocks, hget, hcovered⟩ := hroot
    obtain ⟨span, -, hstands⟩ := h.stands hget
    refine ⟨usings, params, blocks, hget, fun l hl hterminator => ?_⟩
    exact coversOnce_of_apart hstands.apart (hsolid l hl) (hcovered l hl hterminator)
  statements id kind statements traps hget l hl hterminator hcovers := by
    obtain ⟨span, hspan, hcovered⟩ := ha.block hget
    obtain ⟨around, haround, hstart, hstop⟩ := hcovers
    obtain rfl := Option.some.inj (hspan.symm.trans haround)
    obtain ⟨around', -, hstands⟩ := h.stands hget
    exact coversOnce_of_apart hstands.apart (hsolid l hl) (hcovered l hl hterminator hstart hstop)
  errors _ _ hget := ha.error hget

theorem Lossless.withRoot (h : a.Lossless cs ls root) : (a.withRoot root).Lossless cs ls root :=
  ⟨h.sections, h.statements, h.errors⟩

end Arena

namespace Grammar

/-- A script is read to the end, and no token of it is lost. -/
theorem lossless_script {i : Input} {ls : List Lexeme} {b : Bool}
    (hlined : Lexeme.Lined i.text ls) (hsolid : ∀ l ∈ ls, l.span.start < l.span.stop) :
    Outcome script i { place := { rest := ls }, recovering := b } (fun _ _ => True) fun id t =>
      t.arena.Lossless i.text ls id := by
  have halong : ({ rest := ls } : Place).Along i.text ls := ⟨hlined, [], rfl, rfl⟩
  have hrun : Outcome (scriptBlock (nested i.maxDepth) .endOfText) i
      { place := { rest := ls }, recovering := b } (fun _ _ => True) fun id t =>
        t.arena.Lossless i.text ls id := by
    refine ((Complete.scriptBlock (keeping_nested hsolid i.maxDepth)
      ⟨halong, Arena.intact_empty⟩).and (Lays.scriptBlock (laying_nested i.maxDepth)
      ⟨halong, .empty⟩)).mono (fun _ _ _ => trivial) ?_
    rintro id t ⟨⟨⟨hpreserves, usings, params, blocks, hget, hcovered⟩, hover⟩, hlaid, -⟩
    refine hlaid.tiled.lossless hpreserves.intact hsolid ⟨usings, params, blocks, hget, ?_⟩
    intro l hl hterminator
    refine hcovered l hl hterminator (halong.start_le_of_ahead hl) ?_
    have hrest : t.place.rest = [] := by
      simpa [Closer.Over, Closer.isAt, Place.current?] using hover
    obtain ⟨done, hls, hlast⟩ := hpreserves.along.split
    rw [hrest, List.append_nil] at hls
    exact hpreserves.along.stop_le_of_read (by rw [hrest, List.append_nil, hls]) hlast (hls ▸ hl)
  unfold Outcome at hrun ⊢
  unfold script
  exact hrun

end Grammar

namespace Script
open Grammar

variable {source : String} {a : Arena} {maxDepth : Nat} {errors : List ParseError}
  {t : Tree NodeId} {id : NodeId}

theorem lossless_of_parseWithin (h : parseWithin maxDepth source = .ok a) :
    ∃ root, a.root? = some root ∧
      a.Lossless source.toList (Lexeme.ofBrokenText source.toList).1 root := by
  have hlined := Lexeme.lined_ofBrokenText source.toList
  have hsolid := Lexeme.solid_ofBrokenText source.toList
  rw [parseWithin] at h
  cases hl : Lexeme.ofText? source.toList with
  | error e => simp [hl] at h
  | ok lexemes =>
    rw [Lexeme.ofText?_eq_ok_iff.mp hl] at hlined hsolid ⊢
    have hrun := lossless_script (i := ⟨source.toList, maxDepth⟩) (b := false) hlined hsolid
    unfold Outcome at hrun
    rw [hl] at h
    dsimp only at h hrun
    cases hs : script ⟨source.toList, maxDepth⟩ { place := { rest := lexemes } } with
    | error f u => simp [hs] at h
    | ok root u =>
      rw [hs] at h hrun
      obtain rfl := Except.ok.inj h
      exact ⟨root, rfl, hrun.withRoot⟩

theorem lossless_of_parseRecovering (h : parseRecovering source = .ok (a, errors)) :
    a.root? = none ∨ ∃ root, a.root? = some root ∧
      a.Lossless source.toList (Lexeme.ofBrokenText source.toList).1 root := by
  have hlined := Lexeme.lined_ofBrokenText source.toList
  have hsolid := Lexeme.solid_ofBrokenText source.toList
  rw [parseRecovering] at h
  dsimp only at h
  generalize Lexeme.ofBrokenText source.toList = broken at h hlined hsolid ⊢
  obtain ⟨lexemes, tokenErrors⟩ := broken
  have hrun := lossless_script (i := ⟨source.toList, defaultMaxDepth⟩) (b := true) hlined hsolid
  have hroot := script_bears ⟨source.toList, defaultMaxDepth⟩
    (s := { place := { rest := lexemes }, recovering := true }) Arena.tidy_empty rfl
  unfold Outcome at hrun hroot
  dsimp only at h hrun
  cases hs : script ⟨source.toList, defaultMaxDepth⟩
      { place := { rest := lexemes }, recovering := true } with
  | error f u =>
    rw [hs] at h hroot
    cases f with
    | refused e =>
      obtain rfl := (Prod.mk.inj (Except.ok.inj h)).1
      exact .inl hroot.2.root
    | cut | stalled => cases h
  | ok root u =>
    rw [hs] at h hrun
    obtain rfl := (Prod.mk.inj (Except.ok.inj h)).1
    exact .inr ⟨root, rfl, hrun.withRoot⟩

/-- Without recovery nothing broken is kept. -/
theorem Forms.get?_ne_error (h : Forms false a t) (hid : a.Reaches t.label id) (text : String) :
    a.get? id ≠ some (.error text) := by
  intro hget
  obtain ⟨x, hx, rfl⟩ := h.holds.reaches_iff.mp hid
  have hwhole := (h.proper x hx).whole rfl
  rw [(h.holds.subtree hx).get?] at hget
  generalize x.node = n at hwhole hget
  cases n with
  | error _ => cases hwhole
  | _ => cases Option.some.inj hget

/-- The nodes of a script cover all its tokens, whether or not it was read with recovery: only
terminators stand outside of the sections of a script and outside of the statements of a block, and
only recovery leaves broken statements, which keep their text. -/
theorem parse_lossless (source : String) (maxDepth : Nat) :
    let ls := (Lexeme.ofBrokenText source.toList).1
    (match parseWithin maxDepth source with
      | .ok a => ∃ root, a.root? = some root ∧ a.Lossless source.toList ls root ∧
        ∀ id text, a.Reaches root id → a.get? id ≠ some (.error text)
      | .error _ => True) ∧
    match parseRecovering source with
      | .ok (a, _) => a.root? = none ∨ ∃ root, a.root? = some root ∧
        a.Lossless source.toList ls root
      | .error _ => True := by
  intro ls
  constructor
  · cases h : parseWithin maxDepth source with
    | error f => trivial
    | ok a =>
      obtain ⟨root, hroot, hlossless⟩ := lossless_of_parseWithin h
      obtain ⟨t, ht⟩ := forms_of_parseWithin h
      obtain rfl := Option.some.inj (ht.root.symm.trans hroot)
      exact ⟨t.label, hroot, hlossless, fun id text hid => ht.get?_ne_error hid text⟩
  · cases h : parseRecovering source with
    | error f => trivial
    | ok r => exact lossless_of_parseRecovering h

end Script

end ScriptInject
