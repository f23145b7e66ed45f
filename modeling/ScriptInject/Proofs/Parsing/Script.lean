import ScriptInject.Proofs.Parsing.Statement
/-! The rules tied together, and the arenas that readings of whole texts return. -/
namespace ScriptInject
namespace Grammar
open Grammar.Parser ScriptInject.Tree

variable {α : Type} {i : Input} {d : Nat} {s : State}

/-- The levels of nesting that are left do until the limit is reached. -/
theorem steady_nested {n : Nat} (h : i.maxDepth = d + n) : Steady i d (nested n) := by
  induction n generalizing d with
  | zero =>
    have hfull {s t : State} {ts : List (Tree NodeId)} (ht : Grown d s t ts) :
        Outcome (guarded (throw .stalled)) i t (Fails d s) (Bears d s ts (Plain t.place)) :=
      ht.guarded fun hd => absurd hd (by omega)
    exact ⟨hfull, fun _ => hfull, hfull⟩
  | succ n ih =>
    have hg : Steady i (d + 1) (nested n) := ih (by omega)
    constructor
    · intro s t ts ht
      exact ht.guarded fun _ hu hp => hp ▸ statement_bears hg hu
    · intro s t ts commas ht
      exact ht.guarded fun _ hu hp => hp ▸ ternary_bears hg hu
    · intro s t ts ht
      exact ht.guarded fun _ hu hp => hp ▸ unary_bears hg hu

theorem script_bears (i : Input) (h : s.arena.Tidy) (hd : s.depth = 0) :
    Outcome script i s (Fails 0 s)
      (Bears 0 s [] fun x q => x.isMarker = false ∧ q.left ≤ s.place.left) := by
  have hsteady : Steady i 0 (nested i.maxDepth) := steady_nested (Nat.zero_add _).symm
  have hrun : Outcome (scriptBlock (nested i.maxDepth) .endOfText) i s (Fails 0 s)
      (Bears 0 s [] fun x q => x.isMarker = false ∧ q.left ≤ s.place.left) :=
    scriptBlock_bears hsteady (Grown.start h hd)
  unfold Outcome at hrun ⊢
  unfold script
  exact hrun

/-! The top of a script. -/

theorem Outcome.unknown (p : Parser α) :
    Outcome p i s (fun _ _ => True) (fun _ _ => True) := by
  unfold Outcome
  split <;> trivial

theorem addAt_get? (n : Node NodeId) (span : Span) :
    Outcome (addAt n span) i s (fun _ _ => True) (fun id t => t.arena.get? id = some n) := by
  rw [addAt, Outcome.get_bind]
  cases hadd : s.arena.add n (some span) with
  | error e => trivial
  | ok r => exact Arena.add_get? hadd

theorem scriptBlock_get? (g : Nested) (closer : Closer) :
    Outcome (scriptBlock g closer) i s (fun _ _ => True) fun id t =>
      ∃ usings params? blocks, t.arena.get? id = some (.scriptBlock usings params? blocks) := by
  have hrest (usings : List NodeId) (start : Nat) (s : State) :
      Outcome (do
        let params ← paramBlock? g
        skipTerminators
        let blocks ← blocks g closer
        add (.scriptBlock usings params blocks) start) i s (fun _ _ => True) fun id t =>
          ∃ usings params? blocks, t.arena.get? id = some (.scriptBlock usings params? blocks) := by
    refine (Outcome.unknown _).bind fun params _ _ => (Outcome.unknown _).bind fun _ _ _ => ?_
    refine (Outcome.unknown _).bind fun blocks t _ => ?_
    rw [Parser.add, Outcome.place_bind]
    exact (addAt_get? _ _).imp fun id t ht => ⟨usings, params, blocks, ht⟩
  refine (Outcome.unknown _).bind fun start _ _ => (Outcome.unknown _).bind fun _ t _ => ?_
  by_cases hcloser : closer = .endOfText
  · simp only [hcloser, if_true]
    exact (Outcome.unknown _).bind fun usings t _ => hcloser ▸ hrest usings start t
  · simp only [hcloser, if_false]
    exact hrest [] start t

end Grammar

namespace Script
open Grammar

variable {source : String} {a : Arena} {maxDepth : Nat} {errors : List ParseError} {f : Failure}

/-- The arena of a text holds one tree, whose nodes are as the rules make them. -/
structure Forms (recovering : Bool) (a : Arena) (t : Tree NodeId) : Prop where
  root : a.root? = some t.label
  holds : a.Holds t
  tidy : a.Tidy
  nodup : t.labels.Nodup
  proper : t.All (Tree.Proper recovering)
  plain : t.isMarker = false

theorem forms_of_bears {s t : State} {id : NodeId}
    (h : Bears 0 s [] (fun x q => x.isMarker = false ∧ q.left ≤ s.place.left) id t) :
    ∃ x, Forms s.recovering (t.arena.withRoot id) x := by
  obtain ⟨x, hx, rfl, hmark, -⟩ := h
  have hheld := hx.held x (by simp)
  exact ⟨x, rfl, hheld.withRoot, hx.tidy.withRoot, by simpa using hx.nodup, hx.proper x (by simp),
    hmark⟩

theorem forms_of_parseWithin (h : parseWithin maxDepth source = .ok a) :
    ∃ t, Forms false a t := by
  rw [parseWithin] at h
  cases hl : Lexeme.ofText? source.toList with
  | error e =>
    rw [hl] at h
    cases h
  | ok lexemes =>
    rw [hl] at h
    have hrun := script_bears ⟨source.toList, maxDepth⟩ (s := { place := { rest := lexemes } })
      Arena.tidy_empty rfl
    unfold Outcome at hrun
    dsimp only at h
    cases hs : script ⟨source.toList, maxDepth⟩ { place := { rest := lexemes } } with
    | error f u =>
      rw [hs] at h
      cases h
    | ok root u =>
      rw [hs] at h hrun
      obtain rfl := Except.ok.inj h
      exact forms_of_bears hrun

/-- A failure that is no refusal is one of the grammar. -/
theorem script_of_parseWithin (h : parseWithin maxDepth source = .error f)
    (hf : ∀ e, f ≠ .refused e) : ∃ lexemes t, Lexeme.ofText? source.toList = .ok lexemes ∧
      script ⟨source.toList, maxDepth⟩ { place := { rest := lexemes } } = .error f t := by
  rw [parseWithin] at h
  cases hl : Lexeme.ofText? source.toList with
  | error e =>
    rw [hl] at h
    exact absurd (Except.error.inj h).symm (hf e)
  | ok lexemes =>
    rw [hl] at h
    dsimp only at h
    cases hs : script ⟨source.toList, maxDepth⟩ { place := { rest := lexemes } } with
    | error g u =>
      rw [hs] at h
      obtain rfl := Except.error.inj h
      exact ⟨lexemes, u, rfl, hs⟩
    | ok root u =>
      rw [hs] at h
      cases h

/-- A recovering reading refuses nothing. -/
theorem script_of_parseRecovering (h : parseRecovering source = .error f) :
    (∀ e, f ≠ .refused e) ∧ ∃ t, script ⟨source.toList, defaultMaxDepth⟩
      { place := { rest := (Lexeme.ofBrokenText source.toList).1 }, recovering := true } =
        .error f t := by
  rw [parseRecovering] at h
  dsimp only at h
  cases hs : script ⟨source.toList, defaultMaxDepth⟩
      { place := { rest := (Lexeme.ofBrokenText source.toList).1 }, recovering := true } with
  | ok root u =>
    rw [hs] at h
    cases h
  | error g u =>
    rw [hs] at h
    cases g with
    | refused e => cases h
    | cut =>
      obtain rfl := Except.error.inj h
      exact ⟨fun _ => Failure.noConfusion, u, rfl⟩
    | stalled =>
      obtain rfl := Except.error.inj h
      exact ⟨fun _ => Failure.noConfusion, u, rfl⟩

/-- A reading ends: there is always another reason for it to fail. -/
theorem parseWithin_ne_stalled : parseWithin maxDepth source ≠ .error .stalled := by
  intro h
  obtain ⟨lexemes, t, -, hs⟩ := script_of_parseWithin h fun _ => Failure.noConfusion
  have hrun := script_bears ⟨source.toList, maxDepth⟩ (s := { place := { rest := lexemes } })
    Arena.tidy_empty rfl
  unfold Outcome at hrun
  rw [hs] at hrun
  exact hrun.1 rfl

/-- Where nothing could be read as a script, the arena has no root. -/
theorem forms_of_parseRecovering (h : parseRecovering source = .ok (a, errors)) :
    (∃ t, Forms true a t) ∨ a.root? = none ∧ a.Tidy := by
  rw [parseRecovering] at h
  dsimp only at h
  generalize Lexeme.ofBrokenText source.toList = broken at h
  obtain ⟨lexemes, tokenErrors⟩ := broken
  have hrun := script_bears ⟨source.toList, defaultMaxDepth⟩
    (s := { place := { rest := lexemes }, recovering := true }) Arena.tidy_empty rfl
  unfold Outcome at hrun
  dsimp only at h
  cases hs : script ⟨source.toList, defaultMaxDepth⟩
      { place := { rest := lexemes }, recovering := true } with
  | error f u =>
    rw [hs] at h hrun
    cases f with
    | refused e =>
      obtain ⟨rfl, -⟩ := Prod.mk.inj (Except.ok.inj h)
      exact .inr ⟨hrun.2.root, hrun.2.tidy⟩
    | cut => exact absurd h nofun
    | stalled => exact absurd h nofun
  | ok root u =>
    rw [hs] at h hrun
    obtain ⟨rfl, -⟩ := Prod.mk.inj (Except.ok.inj h)
    exact .inl (forms_of_bears hrun)

theorem top_of_script {i : Input} {s u : State} {root : NodeId} (h : script i s = .ok root u) :
    ∃ usings params? blocks, u.arena.get? root = some (.scriptBlock usings params? blocks) :=
  (scriptBlock_get? (nested i.maxDepth) .endOfText).of_ok h

theorem top_of_parseWithin {root : NodeId} (h : parseWithin maxDepth source = .ok a)
    (hroot : a.root? = some root) :
    ∃ usings params? blocks, a.get? root = some (.scriptBlock usings params? blocks) := by
  rw [parseWithin] at h
  cases hl : Lexeme.ofText? source.toList with
  | error e =>
    rw [hl] at h
    cases h
  | ok lexemes =>
    rw [hl] at h
    dsimp only at h
    cases hs : script ⟨source.toList, maxDepth⟩ { place := { rest := lexemes } } with
    | error f u =>
      rw [hs] at h
      cases h
    | ok top u =>
      rw [hs] at h
      obtain rfl := Except.ok.inj h
      obtain rfl := Option.some.inj hroot
      exact top_of_script hs

theorem top_of_parseRecovering {root : NodeId} (h : parseRecovering source = .ok (a, errors))
    (hroot : a.root? = some root) :
    ∃ usings params? blocks, a.get? root = some (.scriptBlock usings params? blocks) := by
  rw [parseRecovering] at h
  dsimp only at h
  generalize Lexeme.ofBrokenText source.toList = broken at h
  obtain ⟨lexemes, tokenErrors⟩ := broken
  have hrun := script_bears ⟨source.toList, defaultMaxDepth⟩
    (s := { place := { rest := lexemes }, recovering := true }) Arena.tidy_empty rfl
  unfold Outcome at hrun
  dsimp only at h
  cases hs : script ⟨source.toList, defaultMaxDepth⟩
      { place := { rest := lexemes }, recovering := true } with
  | error f u =>
    rw [hs] at h hrun
    cases f with
    | refused e =>
      obtain ⟨rfl, -⟩ := Prod.mk.inj (Except.ok.inj h)
      exact absurd (hrun.2.root.symm.trans hroot) nofun
    | cut => exact absurd h nofun
    | stalled => exact absurd h nofun
  | ok top u =>
    rw [hs] at h
    obtain ⟨rfl, -⟩ := Prod.mk.inj (Except.ok.inj h)
    obtain rfl := Option.some.inj hroot
    exact top_of_script hs

end Script

end ScriptInject
