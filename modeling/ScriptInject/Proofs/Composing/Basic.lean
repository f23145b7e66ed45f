import ScriptInject.Proofs.Outcome
/-! How rules are put together. What holds of each step, wherever it starts, and is passed on from
step to step holds of every rule. -/
namespace ScriptInject.Grammar

variable {α β : Type} {i : Input} {V : Place → Prop} {F : Failure → Prop}

/-- The rule is put together from steps that look, move, add a node or fail. It goes only where `V`
holds and fails for reasons of `F`, besides those that are refusals. -/
inductive Composed (i : Input) (V : Place → Prop) (F : Failure → Prop) :
    {α : Type} → Parser α → Prop where
  | look {α : Type} {p : Parser α} (h : ∀ s, ∃ a, p i s = .ok a s) : Composed i V F p
  | fail {α : Type} {p : Parser α} {f : Failure} (h : ∀ s, p i s = .error f s) (hf : F f) :
      Composed i V F p
  | move {p : Parser Unit} {f : Place → Place}
      (h : ∀ s, p i s = .ok () { s with place := f s.place }) (hf : ∀ q, V q → V (f q)) :
      Composed i V F p
  | addAt (n : Node NodeId) (span : Span) : Composed i V F (Parser.addAt n span)
  | bind {α β : Type} {p : Parser α} {k : α → Parser β} (hp : Composed i V F p)
      (hk : ∀ a, Composed i V F (k a)) : Composed i V F (p >>= k)
  | look_bind {α β : Type} {p : Parser α} {k : α → Parser β} (f : Place → α)
      (h : ∀ s, p i s = .ok (f s.place) s) (hk : ∀ q, V q → Composed i V F (k (f q))) :
      Composed i V F (p >>= k)
  | attempt {α : Type} {p : Parser α} (hp : Composed i V F p) : Composed i V F (Parser.attempt p)
  | guarded {α : Type} {p : Parser α} (hp : Composed i V F p) : Composed i V F (Parser.guarded p)
  | speculatively {α : Type} {p : Parser α} (hp : Composed i V F p) :
      Composed i V F (Parser.speculatively p)
  | orElseKeep {α : Type} {p other : Parser α} (hp : Composed i V F p)
      (hother : Composed i V F other) : Composed i V F (Grammar.orElseKeep p other)

/-- Places between which a reading can move, and failures that are no wonder anywhere. -/
structure Passable (V : Place → Prop) (F : Failure → Prop) : Prop where
  advance : ∀ q : Place, V q → V q.advance
  refused : ∀ e, F (.refused e)
  stalled : F .stalled

theorem Passable.advanceBy (h : Passable V F) (n : Nat) : ∀ q : Place, V q → V (q.advanceBy n) := by
  induction n with
  | zero => exact fun _ hq => hq
  | succ n ih => exact fun q hq => ih _ (h.advance q hq)

namespace Composed

variable {p : Parser α} {k : α → Parser β}

/-- Wherever a rule starts, it ends where it may stand, and it fails for a reason that it may
have. -/
theorem outcome (hV : Passable V F) (h : Composed i V F p) : ∀ s, V s.place →
    Outcome p i s (fun f t => F f ∧ V t.place) fun _ t => V t.place := by
  induction h with
  | look h =>
    intro s hs
    obtain ⟨a, ha⟩ := h s
    rwa [Outcome, ha]
  | fail h hf =>
    intro s hs
    rw [Outcome, h s]
    exact ⟨hf, hs⟩
  | move h hf =>
    intro s hs
    rw [Outcome, h s]
    exact hf _ hs
  | addAt n span =>
    intro s hs
    rw [Parser.addAt, Outcome.get_bind]
    cases s.arena.add n (some span) with
    | error e => exact ⟨hV.refused _, hs⟩
    | ok r => exact hs
  | bind _ _ ihp ihk => exact fun s hs => (ihp s hs).bind fun a t ht => ihk a t ht
  | look_bind f h _ ih =>
    intro s hs
    refine Outcome.bind (P := fun a t => a = f s.place ∧ t = s) ?_ ?_
    · rw [Outcome, h s]
      exact ⟨rfl, rfl⟩
    · rintro _ _ ⟨rfl, rfl⟩
      exact ih _ hs _ hs
  | @attempt _ p _ ih =>
    intro s hs
    have hrun := ih s hs
    rw [Outcome] at hrun
    rw [Outcome, Parser.attempt]
    cases hr : p i s with
    | ok a t =>
      rw [hr] at hrun
      exact hrun
    | error f t =>
      rw [hr] at hrun
      cases f with
      | refused e => exact hrun.2
      | cut => exact hrun
      | stalled => exact hrun
  | @guarded _ p _ ih =>
    intro s hs
    rw [Outcome, Parser.guarded]
    by_cases hd : i.maxDepth ≤ s.depth
    · rw [if_pos hd]
      exact ⟨hV.refused _, hs⟩
    · rw [if_neg hd]
      have hrun := ih { s with depth := s.depth + 1 } hs
      rw [Outcome] at hrun
      cases hr : p i { s with depth := s.depth + 1 } with
      | ok a t | error f t =>
        rw [hr] at hrun
        exact hrun
  | @speculatively _ p _ ih =>
    intro s hs
    have hrun := ih { s with recovering := false } hs
    rw [Outcome] at hrun
    rw [Outcome, Parser.speculatively]
    cases hr : p i { s with recovering := false } with
    | ok a t | error f t =>
      rw [hr] at hrun
      exact hrun
  | @orElseKeep _ p other _ _ ihp ihother =>
    intro s hs
    have hrun := ihp s hs
    rw [Outcome] at hrun
    rw [Outcome, Grammar.orElseKeep]
    cases hr : p i s with
    | ok a t =>
      rw [hr] at hrun
      exact hrun
    | error f t =>
      rw [hr] at hrun
      cases f with
      | cut => exact hrun
      | stalled => exact hrun
      | refused e =>
        by_cases hkeep : (t.recovering && isRecoverable e) = true
        · simp only [hkeep, if_true]
          exact ihother { t with errors := t.errors ++ [e], place := s.place } hs
        · simp only [hkeep]
          exact hrun

theorem pure (a : α) : Composed i V F (Pure.pure a : Parser α) := look fun _ => ⟨a, rfl⟩

theorem map {f : α → β} (hp : Composed i V F p) : Composed i V F (f <$> p) := by
  rw [map_eq_pure_bind]
  exact hp.bind fun a => pure (f a)

/-! Steps that look. -/

theorem get : Composed i V F (get : Parser State) := look fun s => ⟨s, rfl⟩

theorem place : Composed i V F Parser.place := look fun s => ⟨s.place, rfl⟩

theorem peek : Composed i V F Parser.peek := look fun s => ⟨s.place.current?, rfl⟩

theorem peekNext : Composed i V F Parser.peekNext := look fun s => ⟨s.place.next?, rfl⟩

theorem start : Composed i V F Parser.start := look fun s => ⟨s.place.start i.text, rfl⟩

theorem atWord (keyword : String) : Composed i V F (Parser.atWord keyword) := by
  refine peek.bind fun t => ?_
  split <;> exact pure _

theorem place_bind {k : Place → Parser β} (hk : ∀ q, V q → Composed i V F (k q)) :
    Composed i V F (Parser.place >>= k) := look_bind id (fun _ => rfl) hk

theorem peek_bind {k : Option Token → Parser β}
    (hk : ∀ q, V q → Composed i V F (k q.current?)) : Composed i V F (Parser.peek >>= k) :=
  look_bind Place.current? (fun _ => rfl) hk

theorem start_bind {k : Nat → Parser β} (hk : ∀ q, V q → Composed i V F (k (q.start i.text))) :
    Composed i V F (Parser.start >>= k) :=
  look_bind (fun q => q.start i.text) (fun _ => rfl) hk

/-- The start of a token, and the place where it stands. -/
theorem start_place_bind {k : Nat → Place → Parser β}
    (hk : ∀ q, V q → Composed i V F (k (q.start i.text) q)) :
    Composed i V F (Parser.start >>= fun n => Parser.place >>= k n) :=
  look_bind (p := Parser.start >>= fun n => Parser.place >>= fun q => Pure.pure (n, q))
    (k := fun r => k r.1 r.2) (fun q => (q.start i.text, q)) (fun _ => rfl) hk

/-! Steps that move, and steps that fail. -/
section Passing

variable (hV : Passable V F)
include hV

theorem advance : Composed i V F Parser.advance :=
  move (f := Place.advance) (fun _ => rfl) hV.advance

theorem advanceBy (n : Nat) : Composed i V F (Parser.advanceBy n) :=
  move (f := Place.advanceBy n) (fun _ => rfl) (hV.advanceBy n)

omit hV in
theorem goto {q : Place} (hq : V q) : Composed i V F (Parser.goto q) :=
  move (f := fun _ => q) (fun _ => rfl) fun _ _ => hq

theorem skipWhile (f : Token → Bool) : Composed i V F (Parser.skipWhile f) :=
  place.bind fun _ => advanceBy hV _

theorem skipNewlines : Composed i V F Parser.skipNewlines := skipWhile hV _

theorem skipTerminators : Composed i V F Parser.skipTerminators := skipWhile hV _

theorem refuse (e : ParseError) : Composed i V F (Parser.refuse e : Parser α) :=
  fail (fun _ => rfl) (hV.refused e)

theorem stall : Composed i V F (throw .stalled : Parser α) := fail (fun _ => rfl) hV.stalled

theorem unexpected (expected : String) :
    Composed i V F (Parser.unexpected expected : Parser α) := by
  refine place.bind fun q => ?_
  split <;> exact refuse hV _

theorem eat (m : Mark) : Composed i V F (Parser.eat m) := by
  refine peek.bind fun t => ?_
  split
  · exact (advance hV).bind fun _ => pure true
  · exact pure false

theorem expect (m : Mark) : Composed i V F (Parser.expect m) := by
  refine (eat hV m).bind fun found => ?_
  split
  · exact pure ()
  · exact unexpected hV _

omit hV in
theorem add (n : Node NodeId) (start : Nat) : Composed i V F (Parser.add n start) :=
  place.bind fun _ => addAt n _

/-! Repetition. -/

theorem manyUpTo {item : Parser (Option α)} (h : Composed i V F item) (n : Nat) :
    Composed i V F (Parser.manyUpTo item n) := by
  induction n with
  | zero => exact stall hV
  | succ n ih =>
    refine h.bind fun o => ?_
    cases o with
    | none => exact pure []
    | some a => exact ih.bind fun as => pure (a :: as)

theorem many {item : Parser (Option α)} (h : Composed i V F item) :
    Composed i V F (Parser.many item) :=
  place.bind fun _ => manyUpTo hV h _

theorem iterateUpTo {step : α → Parser (Option α)} (h : ∀ a, Composed i V F (step a)) (n : Nat)
    (a : α) : Composed i V F (Parser.iterateUpTo step n a) := by
  induction n generalizing a with
  | zero => exact stall hV
  | succ n ih =>
    refine (h a).bind fun o => ?_
    cases o with
    | none => exact pure a
    | some b => exact ih b

theorem iterate {step : α → Parser (Option α)} (h : ∀ a, Composed i V F (step a)) (a : α) :
    Composed i V F (Parser.iterate step a) :=
  place.bind fun _ => iterateUpTo hV h _ a

theorem afterCommas (h : Composed i V F p) : Composed i V F (Parser.afterCommas p) := by
  refine many hV ((eat hV .comma).bind fun found => ?_)
  split
  · exact h.bind fun a => pure (some a)
  · exact pure none

theorem spaced (h : Composed i V F p) : Composed i V F (Parser.spaced p) :=
  (skipNewlines hV).bind fun _ => h.bind fun a => (skipNewlines hV).bind fun _ => pure a

theorem untilParen (h : Composed i V F p) : Composed i V F (Parser.untilParen p) := by
  refine (skipNewlines hV).bind fun _ => (eat hV .rparen).bind fun found => ?_
  split
  · exact pure []
  · exact (spaced hV h).bind fun first => (afterCommas hV (spaced hV h)).bind fun others =>
      (expect hV .rparen).bind fun _ => pure (first :: others)

end Passing

end Composed

end ScriptInject.Grammar
