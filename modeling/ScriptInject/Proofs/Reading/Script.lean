import ScriptInject.Grammar.Script
import ScriptInject.Proofs.Reading.Statement
/-! The rules tied together, and what is read of a whole text. -/
namespace ScriptInject.Grammar
open Grammar.Parser ScriptInject.Tree

variable {i : Input} {s t : State} {ts : List (Tree NodeId)} {source : String} {a : Arena}

/-- With every level of nesting the rules make what they should if they do so with one less. -/
theorem sound_nested (n : Nat) : Sound (nested n) := by
  induction n with
  | zero =>
    have hstalled {R : Tree NodeId → Place → Prop} {i : Input} {s t : State}
        {ts : List (Tree NodeId)} (h : Made i s t ts) :
        Outcome (guarded (throw .stalled)) i t (Lost s) (Yields i s ts R) :=
      h.guarded fun hu _ => Outcome.throw_iff.mpr hu.toKept
    exact ⟨hstalled, fun _ => hstalled, hstalled⟩
  | succ n ih =>
    constructor
    · intro i s t ts h
      exact h.guarded fun hu hp => hp ▸ statement_yields ih hu
    · intro i s t ts commas h
      exact h.guarded fun hu hp => hp ▸ ternary_yields ih hu
    · intro i s t ts h
      exact h.guarded fun hu hp => hp ▸ unary_yields ih hu

/-- What is read of the tokens of a whole text. -/
theorem script_yields (i : Input) {s : State} (h : Valid i s) :
    Outcome script i s (Lost s) (Yields i s [] fun x _ => Parsed (.script true) x) := by
  have hrun := @scriptBlock_yields _ _ _ _ _ .endOfText (sound_nested i.maxDepth) (Made.start h)
  simpa only [Outcome, script, decide_true] using hrun

end Grammar

namespace Script
open Grammar

variable {source : String} {a : Arena} {maxDepth : Nat}

/-- The arena of a text holds one tree and nothing but nodes of the text. -/
structure Reads (source : String) (a : Arena) (t : Tree NodeId) : Prop where
  root : a.root? = some t.label
  holds : a.Holds t
  tidy : a.Tidy
  spanned : a.Spanned
  nodup : t.labels.Nodup
  parsed : Parsed (.script true) t

theorem reads_of_parseWithin (h : parseWithin maxDepth source = .ok a) :
    ∃ t, Reads source a t := by
  rw [parseWithin] at h
  cases hl : Lexeme.ofText? source.toList with
  | error e =>
    rw [hl] at h
    exact absurd h nofun
  | ok lexemes =>
    obtain ⟨ws, htext, hclean, rfl⟩ := Lexeme.chunks_of_ofText? hl
    rw [hl] at h
    dsimp only at h
    have hplace : Place.Scanned source.toList { rest := Chunk.lexemes 0 ws } :=
      ⟨[], ws, htext ▸ Place.at_start ws, by simpa using hclean⟩
    have hvalid : Valid ⟨source.toList, maxDepth⟩ { place := { rest := Chunk.lexemes 0 ws } } :=
      ⟨hplace, Arena.tidy_empty, Arena.spanned_empty, rfl⟩
    have hrun := script_yields ⟨source.toList, maxDepth⟩ hvalid
    unfold Outcome at hrun
    generalize script ⟨source.toList, maxDepth⟩ { place := { rest := Chunk.lexemes 0 ws } } = r
      at h hrun
    cases r with
    | error f u => exact absurd h nofun
    | ok root u =>
      obtain rfl := Except.ok.inj h
      obtain ⟨t, hu, rfl, ht⟩ := hrun
      have hheld := hu.held t (by simp)
      exact ⟨t, rfl, hheld.withRoot, hu.tidy.withRoot, hu.spanned, by simpa using hu.nodup, ht⟩

end Script

end ScriptInject
