import ScriptInject.Proofs.Widening.Refusal
/-! The limit of depth tells which texts are read, but not how. -/
namespace ScriptInject.Script
open Grammar

variable {source : String} {maxDepth maxDepth' : Nat} {a : Arena}

/-- The same tokens, with a higher limit. -/
def raised (text : List Char) (h : maxDepth ≤ maxDepth') : Widening :=
  ⟨⟨text, maxDepth⟩, ⟨text, maxDepth'⟩, 0, 0, True, rfl, h⟩

theorem script_mono {text : List Char} {s t : State} {root : NodeId} (h : maxDepth ≤ maxDepth')
    (hd : s.depth = 0) (hs : s.recovering = false)
    (hr : script ⟨text, maxDepth⟩ s = .ok root t) :
    ∃ t', script ⟨text, maxDepth'⟩ s = .ok root t' ∧ t'.arena = t.arena := by
  have hnested : Widened (raised text h) (nested maxDepth) (nested maxDepth') :=
    widened_nested (Nat.zero_add _) (Nat.zero_add _)
  have hscript : Widens (raised text h) veiled (scriptBlock (nested maxDepth) .endOfText)
      (scriptBlock (nested maxDepth') .endOfText) := .scriptBlock hnested
  have hsame := hscript.follows ⟨rfl, fun _ => rfl, hd, hd, hs, hs⟩ hr
  change Sustains _ _ _ _ (script ⟨text, maxDepth'⟩ s) at hsame
  generalize script ⟨text, maxDepth'⟩ s = r at hsame ⊢
  cases hsame with
  | ok hroot ht =>
    obtain rfl := hroot.eq trivial
    exact ⟨_, rfl, ht.arena trivial⟩
  | full hne _ => exact absurd trivial hne

/-- A text that is read within some limit of depth is read within every higher one, and the arena is
the same. -/
theorem parseWithin_mono (hle : maxDepth ≤ maxDepth') (h : parseWithin maxDepth source = .ok a) :
    parseWithin maxDepth' source = .ok a := by
  rw [parseWithin] at h ⊢
  cases hl : Lexeme.ofText? source.toList with
  | error e =>
    rw [hl] at h
    cases h
  | ok lexemes =>
    rw [hl] at h
    dsimp only at h ⊢
    cases hs : script ⟨source.toList, maxDepth⟩ { place := { rest := lexemes } } with
    | error f t =>
      rw [hs] at h
      cases h
    | ok root t =>
      obtain ⟨t', hs', harena⟩ := script_mono hle rfl rfl hs
      rw [hs] at h
      rw [hs', ← Except.ok.inj h]
      dsimp only
      rw [harena]

/-- An annotation is looked for with more levels left than it is read with afterwards. -/
theorem parseWithin_mono_annotated :
    5 ≤ 6 ∧ ∃ a, parseWithin 5 "[A(1)]$x" = .ok a ∧ parseWithin 6 "[A(1)]$x" = .ok a := by
  have hok : (parseWithin 5 "[A(1)]$x").toOption.isSome = true := by decide +kernel
  obtain ⟨a, h⟩ : ∃ a, parseWithin 5 "[A(1)]$x" = .ok a := by
    cases h : parseWithin 5 "[A(1)]$x" with
    | error f =>
      rw [h] at hok
      cases hok
    | ok a => exact ⟨a, rfl⟩
  exact ⟨by decide, a, h, parseWithin_mono (by decide) h⟩

end ScriptInject.Script
