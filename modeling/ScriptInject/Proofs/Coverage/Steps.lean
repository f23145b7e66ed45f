import ScriptInject.Proofs.Coverage.Basic
import ScriptInject.Proofs.Steps
/-! The steps that rules are made of: wherever a run comes to, the arena stays intact. -/
namespace ScriptInject.Grammar

variable {α β : Type} {i : Input} {ls : List Lexeme} {s t u : State} {p : Parser α}
  {k : α → Parser β} {m : Mark} {n : Node NodeId}

/-- A reading stands among the tokens of its text, and its arena is intact. -/
structure Held (i : Input) (ls : List Lexeme) (s : State) : Prop where
  along : s.place.Along i.text ls
  intact : s.arena.Intact i.text ls

/-- What any run comes to, whether it succeeds or not. -/
structure Preserves (i : Input) (ls : List Lexeme) (s t : State) : Prop extends Held i ls t where
  grows : s.arena.Grows t.arena

theorem Held.preserves (h : Held i ls s) : Preserves i ls s s := ⟨h, .refl _⟩

theorem Preserves.trans (h : Preserves i ls s t) (k : Preserves i ls t u) : Preserves i ls s u :=
  ⟨k.toHeld, h.grows.trans k.grows⟩

theorem Preserves.goto {p : Place} (h : Preserves i ls s t) (hp : p.Along i.text ls) :
    Preserves i ls s { t with place := p } := ⟨⟨hp, h.intact⟩, h.grows⟩

/-- The rule keeps an intact arena intact. -/
def Keeps (i : Input) (ls : List Lexeme) (p : Parser α) : Prop :=
  ∀ s, Held i ls s → Outcome p i s (fun _ t => Preserves i ls s t) fun _ t => Preserves i ls s t

namespace Keeps

theorem pure (a : α) : Keeps i ls (Pure.pure a : Parser α) := fun _ hs => hs.preserves

theorem throw (f : Failure) : Keeps i ls (throw f : Parser α) := fun _ hs => hs.preserves

theorem bind (hp : Keeps i ls p) (hk : ∀ a, Keeps i ls (k a)) : Keeps i ls (p >>= k) :=
  fun s hs => (hp s hs).bind fun a t ht =>
    (hk a t ht.toHeld).mono (fun _ _ hu => ht.trans hu) fun _ _ hu => ht.trans hu

theorem map {f : α → β} (hp : Keeps i ls p) : Keeps i ls (f <$> p) :=
  fun s hs => (hp s hs).map fun _ _ ht => ht

/-- A step that goes to another place among the tokens. -/
theorem move {step : Parser Unit} {f : Place → Place}
    (hstep : ∀ s, step i s = .ok () { s with place := f s.place })
    (hf : ∀ q : Place, q.Along i.text ls → (f q).Along i.text ls) : Keeps i ls step := by
  intro s hs
  rw [Outcome, hstep]
  exact hs.preserves.goto (hf _ hs.along)

theorem advance : Keeps i ls Parser.advance := move (fun _ => rfl) fun _ hq => hq.advance

theorem advanceBy (k : Nat) : Keeps i ls (Parser.advanceBy k) :=
  move (fun _ => rfl) fun _ hq => (hq.advanceBy k).1

theorem goto {q : Place} (hq : q.Along i.text ls) : Keeps i ls (Parser.goto q) :=
  move (fun _ => rfl) fun _ _ => hq

theorem skipWhile (f : Token → Bool) : Keeps i ls (Parser.skipWhile f) :=
  move (f := Place.past f) (fun _ => rfl) fun _ hq => (hq.advanceBy _).1

theorem skipNewlines : Keeps i ls Parser.skipNewlines := skipWhile _

theorem skipTerminators : Keeps i ls Parser.skipTerminators := skipWhile _

/-- A step that only looks at what there is. -/
theorem look {step : Parser α} (h : ∀ s, ∃ a, step i s = .ok a s) : Keeps i ls step := by
  intro s hs
  obtain ⟨a, ha⟩ := h s
  rw [Outcome, ha]
  exact hs.preserves

theorem get : Keeps i ls (get : Parser State) := look fun s => ⟨s, rfl⟩

theorem place : Keeps i ls Parser.place := look fun s => ⟨s.place, rfl⟩

theorem peek : Keeps i ls Parser.peek := look fun s => ⟨s.place.current?, rfl⟩

theorem peekNext : Keeps i ls Parser.peekNext := look fun s => ⟨s.place.next?, rfl⟩

theorem start : Keeps i ls Parser.start := look fun s => ⟨s.place.start i.text, rfl⟩

/-- A place to come back to. -/
theorem place_bind {k : Place → Parser β} (hk : ∀ q : Place, q.Along i.text ls → Keeps i ls (k q)) :
    Keeps i ls (Parser.place >>= k) := fun s hs => hk s.place hs.along s hs

theorem refuse (e : ParseError) : Keeps i ls (Parser.refuse e : Parser α) := throw _

theorem unexpected (expected : String) : Keeps i ls (Parser.unexpected expected : Parser α) := by
  refine place.bind fun q => ?_
  split <;> exact refuse _

theorem eat (m : Mark) : Keeps i ls (Parser.eat m) := by
  refine peek.bind fun t => ?_
  split
  · exact advance.bind fun _ => pure true
  · exact pure false

theorem expect (m : Mark) : Keeps i ls (Parser.expect m) := by
  refine (eat m).bind fun found => ?_
  split
  · exact pure ()
  · exact unexpected _

theorem atWord (keyword : String) : Keeps i ls (Parser.atWord keyword) := by
  refine peek.bind fun t => ?_
  split <;> exact pure _

theorem slice (start stop : Nat) : Keeps i ls (Parser.slice start stop) := by
  intro s hs
  unfold Parser.slice
  refine Outcome.bind (P := fun j t => j = i ∧ t = s) ⟨rfl, rfl⟩ ?_
  rintro _ _ ⟨rfl, rfl⟩
  split <;> exact hs.preserves

theorem addAt {span : Span} (hn : ∀ a : Arena, a.Fit i.text ls span n) :
    Keeps i ls (Parser.addAt n span) := by
  intro s hs
  rw [Parser.addAt, Outcome.get_bind]
  cases hadd : s.arena.add n (some span) with
  | error e => exact hs.preserves
  | ok r =>
    obtain ⟨id, a⟩ := r
    obtain ⟨hintact, hgrows⟩ := hs.intact.add (hn s.arena) hadd
    exact ⟨⟨hs.along, hintact⟩, hgrows⟩

theorem add {start : Nat} (hn : Arena.isOrdinary n = true) : Keeps i ls (Parser.add n start) :=
  place.bind fun _ => addAt fun _ => Arena.fit_of_isOrdinary hn

theorem attempt (hp : Keeps i ls p) : Keeps i ls (Parser.attempt p) := by
  intro s hs
  have hrun := hp s hs
  rw [Outcome] at hrun
  rw [Outcome, Parser.attempt]
  cases hr : p i s with
  | ok a t =>
    rw [hr] at hrun
    exact hrun
  | error f t =>
    rw [hr] at hrun
    cases f <;> exact hrun

theorem guarded (hp : Keeps i ls p) : Keeps i ls (Parser.guarded p) := by
  intro s hs
  rw [Outcome, Parser.guarded]
  by_cases hd : i.maxDepth ≤ s.depth
  · simp only [hd, if_true]
    exact hs.preserves
  · simp only [hd, if_false]
    have hrun := hp { s with depth := s.depth + 1 } ⟨hs.along, hs.intact⟩
    rw [Outcome] at hrun
    cases hr : p i { s with depth := s.depth + 1 } with
    | ok a t | error f t =>
      rw [hr] at hrun
      exact ⟨⟨hrun.along, hrun.intact⟩, hrun.grows⟩

theorem speculatively (hp : Keeps i ls p) : Keeps i ls (Parser.speculatively p) := by
  intro s hs
  have hrun := hp { s with recovering := false } ⟨hs.along, hs.intact⟩
  rw [Outcome] at hrun
  rw [Outcome, Parser.speculatively]
  cases hr : p i { s with recovering := false } with
  | ok a t | error f t =>
    rw [hr] at hrun
    exact ⟨⟨hrun.along, hrun.intact⟩, hrun.grows⟩

theorem manyUpTo {item : Parser (Option α)} (h : Keeps i ls item) (k : Nat) :
    Keeps i ls (Parser.manyUpTo item k) := by
  induction k with
  | zero => exact throw _
  | succ k ih =>
    refine h.bind fun o => ?_
    cases o with
    | none => exact pure []
    | some a => exact ih.bind fun as => pure (a :: as)

theorem many {item : Parser (Option α)} (h : Keeps i ls item) : Keeps i ls (Parser.many item) :=
  place.bind fun _ => manyUpTo h _

theorem iterateUpTo {step : α → Parser (Option α)} (h : ∀ a, Keeps i ls (step a)) (k : Nat) (a : α) :
    Keeps i ls (Parser.iterateUpTo step k a) := by
  induction k generalizing a with
  | zero => exact throw _
  | succ k ih =>
    refine (h a).bind fun o => ?_
    cases o with
    | none => exact pure a
    | some b => exact ih b

theorem iterate {step : α → Parser (Option α)} (h : ∀ a, Keeps i ls (step a)) (a : α) :
    Keeps i ls (Parser.iterate step a) :=
  place.bind fun _ => iterateUpTo h _ a

theorem afterCommas (h : Keeps i ls p) : Keeps i ls (Parser.afterCommas p) := by
  refine many ((eat .comma).bind fun found => ?_)
  split
  · exact h.bind fun a => pure (some a)
  · exact pure none

theorem spaced (h : Keeps i ls p) : Keeps i ls (Parser.spaced p) :=
  skipNewlines.bind fun _ => h.bind fun a => skipNewlines.bind fun _ => pure a

theorem untilParen (h : Keeps i ls p) : Keeps i ls (Parser.untilParen p) := by
  refine skipNewlines.bind fun _ => (eat .rparen).bind fun found => ?_
  split
  · exact pure []
  · exact h.spaced.bind fun first => h.spaced.afterCommas.bind fun others =>
      (expect .rparen).bind fun _ => pure (first :: others)

theorem orElseKeep {other : Parser α} (hp : Keeps i ls p) (hother : Keeps i ls other) :
    Keeps i ls (Grammar.orElseKeep p other) := by
  intro s hs
  have hrun := hp s hs
  rw [Outcome] at hrun
  rw [Outcome, Grammar.orElseKeep]
  cases hr : p i s with
  | ok a t =>
    rw [hr] at hrun
    exact hrun
  | error f t =>
    rw [hr] at hrun
    cases f with
    | cut | stalled => exact hrun
    | refused e =>
      by_cases hkeep : (t.recovering && isRecoverable e) = true
      · simp only [hkeep, if_true]
        have hback : Preserves i ls s { t with errors := t.errors ++ [e], place := s.place } :=
          ⟨⟨hs.along, hrun.intact⟩, hrun.grows⟩
        exact (hother _ hback.toHeld).mono (fun _ _ hu => hback.trans hu) fun _ _ hu => hback.trans hu
      · simp only [hkeep]
        exact hrun

end Keeps

end ScriptInject.Grammar
