import Mathlib.Data.Set.Basic
import ScriptInject.Proofs.Lockstep.Steps
/-! What every run leaves as it was, however it ends, and nodes that no step names. Where no other
node of the arena stands on certain nodes, and no step is handed one of them, no node that is added
later stands on one either. -/
namespace ScriptInject

namespace Arena

variable {a b : Arena} {X : Set NodeId} {id : NodeId} {n : Node NodeId} {span : Option Span}

/-- No node outside of `X` stands on one in `X`. -/
def Secluded (X : Set NodeId) (a : Arena) : Prop :=
  ∀ id n, a.get? id = some n → id ∉ X → ∀ c ∈ n.children, c ∉ X

theorem Secluded.add (h : a.Secluded X) (hadd : a.add n span = .ok (id, b))
    (hc : ∀ c ∈ n.children, c ∉ X) : b.Secluded X := by
  intro i m hm hi
  by_cases hid : i = id
  · subst hid
    obtain rfl := Option.some.inj ((add_get? hadd).symm.trans hm)
    exact hc
  · rw [add_get?_of_ne hadd hid] at hm
    exact h i m hm hi

end Arena

namespace Grammar

variable {α β : Type} {i : Input} {X : Set NodeId} {H H' : Prop} {s t u : State}

/-- A run leaves the depth, the recovery and the root as they were, and every node that it has not
added itself. -/
structure Course (s t : State) : Prop extends Onward s t where
  depth : t.depth = s.depth
  root : t.arena.root? = s.arena.root?
  get?_eq : ∀ id, id < s.arena.nextId ∨ t.arena.nextId ≤ id → t.arena.get? id = s.arena.get? id
  span?_eq : ∀ id, id < s.arena.nextId ∨ t.arena.nextId ≤ id →
    t.arena.span? id = s.arena.span? id

namespace Course

theorem refl (s : State) : Course s s :=
  { Onward.refl s with
    depth := rfl, root := rfl, get?_eq := fun _ _ => rfl, span?_eq := fun _ _ => rfl }

theorem of_place (p : Place) : Course s { s with place := p } :=
  { Onward.of_place p with
    depth := rfl, root := rfl, get?_eq := fun _ _ => rfl, span?_eq := fun _ _ => rfl }

/-- Ids that are not given out in a run are not given out in a part of it. -/
theorem outside {id : Nat} (h : s.arena.nextId ≤ t.arena.nextId)
    (k : t.arena.nextId ≤ u.arena.nextId) (hid : id < s.arena.nextId ∨ u.arena.nextId ≤ id) :
    (id < s.arena.nextId ∨ t.arena.nextId ≤ id) ∧ (id < t.arena.nextId ∨ u.arena.nextId ≤ id) := by
  omega

theorem trans (h : Course s t) (k : Course t u) : Course s u where
  toOnward := h.toOnward.trans k.toOnward
  depth := k.depth.trans h.depth
  root := k.root.trans h.root
  get?_eq id hid := by
    obtain ⟨hst, htu⟩ := outside h.nextId_le k.nextId_le hid
    rw [k.get?_eq id htu, h.get?_eq id hst]
  span?_eq id hid := by
    obtain ⟨hst, htu⟩ := outside h.nextId_le k.nextId_le hid
    rw [k.span?_eq id htu, h.span?_eq id hst]

/-- What is refused may be noted in between. -/
theorem noted {e : ParseError} {p : Place} (h : Course s t) (ht : t.recovering = true)
    (k : Course { t with errors := t.errors ++ [e], place := p } u) : Course s u where
  toOnward := h.toOnward.noted (e := e) ht ((Onward.of_place p).trans k.toOnward)
  depth := k.depth.trans h.depth
  root := k.root.trans h.root
  get?_eq id hid := by
    obtain ⟨hst, htu⟩ := outside h.nextId_le k.nextId_le hid
    exact (k.get?_eq id htu).trans (h.get?_eq id hst)
  span?_eq id hid := by
    obtain ⟨hst, htu⟩ := outside h.nextId_le k.nextId_le hid
    exact (k.span?_eq id htu).trans (h.span?_eq id hst)

theorem add {n : Node NodeId} {span : Span} {id : NodeId} {a : Arena}
    (hadd : s.arena.add n (some span) = .ok (id, a)) : Course s { s with arena := a } := by
  have hid := Arena.add_id hadd
  have hnext := Arena.add_nextId hadd
  have hne {j : Nat} (hj : j < s.arena.nextId ∨ a.nextId ≤ j) : j ≠ id := by omega
  exact
    { nextId_le := by
        change s.arena.nextId ≤ a.nextId
        omega
      errors := List.prefix_refl _
      recovering := rfl
      strict := fun _ => rfl
      depth := rfl
      root := by rw [(Arena.add_eq hadd).2]; rfl
      get?_eq := fun _ hj => Arena.add_get?_of_ne hadd (hne hj)
      span?_eq := fun _ hj => Arena.add_span?_of_ne hadd (hne hj) }

end Course

/-- No id of `X` is given out between the two states. -/
def Skips (X : Set NodeId) (s t : State) : Prop :=
  ∀ id ∈ X, id < s.arena.nextId ∨ t.arena.nextId ≤ id

theorem Skips.left (h : Skips X s u) (hle : t.arena.nextId ≤ u.arena.nextId) : Skips X s t :=
  fun id hid => (h id hid).imp_right (Nat.le_trans hle)

theorem Skips.right (h : Skips X s u) (hle : s.arena.nextId ≤ t.arena.nextId) : Skips X t u :=
  fun id hid => (h id hid).imp_left fun hlt => Nat.lt_of_lt_of_le hlt hle

/-- The rule is put together from steps that look, move, add a node or fail. Given `H`, it names no
id of `X` as long as none of its steps hands one to it, and `Q` is known of its result. -/
inductive Sparing (i : Input) (X : Set NodeId) :
    Prop → {α : Type} → Parser α → (α → Prop) → Prop where
  | look {H : Prop} {α : Type} {p : Parser α} {Q : α → Prop}
      (h : ∀ s, ∃ a, p i s = .ok a s ∧ (H → s.arena.Secluded X → Q a)) : Sparing i X H p Q
  | fail {H : Prop} {α : Type} {p : Parser α} {Q : α → Prop} (h : ∀ s, ∃ f, p i s = .error f s) :
      Sparing i X H p Q
  | move {H : Prop} {p : Parser Unit} (h : ∀ s, ∃ q, p i s = .ok () { s with place := q }) :
      Sparing i X H p fun _ => True
  | addAt {H : Prop} (n : Node NodeId) (span : Span) (h : H → ∀ c ∈ n.children, c ∉ X) :
      Sparing i X H (Parser.addAt n span) (· ∉ X)
  | bind {H : Prop} {α β : Type} {p : Parser α} {k : α → Parser β} {Q : α → Prop} {R : β → Prop}
      (hp : Sparing i X H p Q) (hk : ∀ a, Sparing i X (H ∧ Q a) (k a) R) :
      Sparing i X H (p >>= k) R
  | imp {H H' : Prop} {α : Type} {p : Parser α} {Q R : α → Prop} (hp : Sparing i X H p Q)
      (hH : H' → H) (hQ : ∀ a, Q a → R a) : Sparing i X H' p R
  | attempt {H : Prop} {α : Type} {p : Parser α} {Q : α → Prop} (hp : Sparing i X H p Q) :
      Sparing i X H (Parser.attempt p) fun o => ∀ a ∈ o, Q a
  | guarded {H : Prop} {α : Type} {p : Parser α} {Q : α → Prop} (hp : Sparing i X H p Q) :
      Sparing i X H (Parser.guarded p) Q
  | speculatively {H : Prop} {α : Type} {p : Parser α} {Q : α → Prop} (hp : Sparing i X H p Q) :
      Sparing i X H (Parser.speculatively p) Q
  | orElseKeep {H : Prop} {α : Type} {p other : Parser α} {Q : α → Prop}
      (hp : Sparing i X H p Q) (hother : Sparing i X H other Q) :
      Sparing i X H (Grammar.orElseKeep p other) Q

namespace Sparing

variable {p : Parser α} {k : α → Parser β} {Q : α → Prop} {R : β → Prop}

theorem course (h : Sparing i X H p Q) : ∀ s, Course s (final (p i s)) := by
  induction h with
  | look h =>
    intro s
    obtain ⟨a, ha, -⟩ := h s
    rw [ha]
    exact .refl s
  | fail h =>
    intro s
    obtain ⟨f, hf⟩ := h s
    rw [hf]
    exact .refl s
  | move h =>
    intro s
    obtain ⟨q, hq⟩ := h s
    rw [hq]
    exact .of_place q
  | addAt n span _ =>
    intro s
    rw [Lockstep.addAt_run]
    cases hadd : s.arena.add n (some span) with
    | error e => exact .refl s
    | ok r => exact .add hadd
  | @bind _ _ _ p k _ _ _ _ ihp ihk =>
    intro s
    have hp := ihp s
    rw [Lockstep.bind_run]
    cases hr : p i s with
    | ok a t =>
      rw [hr] at hp
      exact hp.trans (ihk a t)
    | error f t =>
      rw [hr] at hp
      exact hp
  | imp _ _ _ ih => exact ih
  | @attempt _ _ p _ _ ih =>
    intro s
    have hp := ih s
    rw [Parser.attempt]
    cases hr : p i s with
    | ok a t =>
      rw [hr] at hp
      exact hp
    | error f t =>
      rw [hr] at hp
      cases f <;> exact hp
  | @guarded _ _ p _ _ ih =>
    intro s
    rw [Parser.guarded]
    split
    · exact .refl s
    · have hp := ih { s with depth := s.depth + 1 }
      cases hr : p i { s with depth := s.depth + 1 } with
      | ok a t | error f t =>
        rw [hr] at hp
        exact { hp with depth := congrArg (· - 1) hp.depth }
  | @speculatively _ _ p _ _ ih =>
    intro s
    have hp := ih { s with recovering := false }
    rw [Parser.speculatively]
    cases hr : p i { s with recovering := false } with
    | ok a t | error f t =>
      rw [hr] at hp
      exact { hp with recovering := rfl, strict := fun _ => hp.strict rfl }
  | @orElseKeep _ _ p other _ _ _ ihp ihother =>
    intro s
    have hp := ihp s
    rw [Grammar.orElseKeep]
    cases hr : p i s with
    | ok a t =>
      rw [hr] at hp
      exact hp
    | error f t =>
      rw [hr] at hp
      cases f with
      | cut => exact hp
      | stalled => exact hp
      | refused e =>
        dsimp only
        split
        · rename_i hkeep
          exact hp.noted (Bool.and_eq_true_iff.mp hkeep).1 (ihother _)
        · exact hp

/-- Where no id of `X` is given out, the nodes of `X` stay secluded, and no step is handed one. -/
theorem secluded (h : Sparing i X H p Q) (hH : H) : ∀ s, s.arena.Secluded X →
    Skips X s (final (p i s)) → Outcome p i s (fun _ t => t.arena.Secluded X)
      fun a t => t.arena.Secluded X ∧ Q a := by
  induction h with
  | look h =>
    intro s hs _
    obtain ⟨a, ha, hQ⟩ := h s
    rw [Outcome, ha]
    exact ⟨hs, hQ hH hs⟩
  | fail h =>
    intro s hs _
    obtain ⟨f, hf⟩ := h s
    rwa [Outcome, hf]
  | move h =>
    intro s hs _
    obtain ⟨q, hq⟩ := h s
    rw [Outcome, hq]
    exact ⟨hs, trivial⟩
  | addAt n span hc =>
    intro s hs hskips
    rw [Outcome, Lockstep.addAt_run]
    rw [Lockstep.addAt_run] at hskips
    cases hadd : s.arena.add n (some span) with
    | error e => exact hs
    | ok r =>
      obtain ⟨id, a⟩ := r
      rw [hadd] at hskips
      refine ⟨hs.add hadd (hc hH), fun hX => ?_⟩
      rcases hskips id hX with hlt | hle
      · exact Nat.ne_of_lt hlt (Arena.add_id hadd)
      · change a.nextId ≤ id at hle
        rw [Arena.add_nextId hadd] at hle
        exact Nat.not_succ_le_self id hle
  | @bind _ _ _ p k _ _ hp hk ihp ihk =>
    intro s hs hskips
    have hcourse := hp.course s
    have hrun := ihp hH s hs
    rw [Outcome] at hrun ⊢
    rw [Lockstep.bind_run] at hskips ⊢
    cases hr : p i s with
    | ok a t =>
      rw [hr] at hskips hcourse hrun
      have hlater := (hk a).course t
      obtain ⟨ht, hQ⟩ := hrun (hskips.left hlater.nextId_le)
      exact ihk a ⟨hH, hQ⟩ t ht (hskips.right hcourse.nextId_le)
    | error f t =>
      rw [hr] at hskips hrun
      exact hrun hskips
  | imp _ hH' hQ ih =>
    exact fun s hs hskips => (ih (hH' hH) s hs hskips).imp fun a _ h => ⟨h.1, hQ a h.2⟩
  | @attempt _ _ p _ _ ih =>
    intro s hs hskips
    have hrun := ih hH s hs
    rw [Parser.attempt] at hskips
    rw [Outcome, Parser.attempt]
    rw [Outcome] at hrun
    cases hr : p i s with
    | ok a t =>
      rw [hr] at hskips hrun
      obtain ⟨ht, ha⟩ := hrun hskips
      exact ⟨ht, by simpa using ha⟩
    | error f t =>
      rw [hr] at hskips hrun
      cases f with
      | refused e => exact ⟨hrun hskips, by simp⟩
      | cut => exact hrun hskips
      | stalled => exact hrun hskips
  | @guarded _ _ p _ _ ih =>
    intro s hs hskips
    rw [Parser.guarded] at hskips
    rw [Outcome, Parser.guarded]
    by_cases hd : i.maxDepth ≤ s.depth
    · rw [if_pos hd]
      exact hs
    · rw [if_neg hd] at hskips ⊢
      have hrun := ih hH { s with depth := s.depth + 1 } hs
      rw [Outcome] at hrun
      cases hr : p i { s with depth := s.depth + 1 } with
      | ok a t | error f t =>
        rw [hr] at hskips hrun
        exact hrun hskips
  | @speculatively _ _ p _ _ ih =>
    intro s hs hskips
    have hrun := ih hH { s with recovering := false } hs
    rw [Outcome] at hrun
    rw [Parser.speculatively] at hskips
    rw [Outcome, Parser.speculatively]
    cases hr : p i { s with recovering := false } with
    | ok a t | error f t =>
      rw [hr] at hskips hrun
      exact hrun hskips
  | @orElseKeep _ _ p other _ hp hother ihp ihother =>
    intro s hs hskips
    have hcourse := hp.course s
    have hrun := ihp hH s hs
    rw [Outcome] at hrun
    rw [Grammar.orElseKeep] at hskips
    rw [Outcome, Grammar.orElseKeep]
    cases hr : p i s with
    | ok a t =>
      rw [hr] at hskips hrun
      exact hrun hskips
    | error f t =>
      rw [hr] at hskips hcourse hrun
      cases f with
      | cut => exact hrun hskips
      | stalled => exact hrun hskips
      | refused e =>
        dsimp only at hskips ⊢
        by_cases hkeep : (t.recovering && isRecoverable e) = true
        · rw [if_pos hkeep] at hskips ⊢
          have hlater := hother.course { t with errors := t.errors ++ [e], place := s.place }
          exact ihother hH _ (hrun (hskips.left hlater.nextId_le))
            (hskips.right hcourse.nextId_le)
        · rw [if_neg hkeep] at hskips ⊢
          exact hrun hskips

theorem weaken (hp : Sparing i X H p Q) (hH : H' → H) : Sparing i X H' p Q := hp.imp hH fun _ => id

/-- What comes after a step of whose result nothing needs to be known. -/
theorem seq (hp : Sparing i X H p Q) (hk : ∀ a, Sparing i X H (k a) R) :
    Sparing i X H (p >>= k) R := hp.bind fun a => (hk a).weaken And.left

theorem pure {a : α} (h : H → Q a) : Sparing i X H (Pure.pure a : Parser α) Q :=
  look fun _ => ⟨a, rfl, fun hH _ => h hH⟩

theorem map {f : α → β} (hp : Sparing i X H p Q) (hf : ∀ a, Q a → R (f a)) :
    Sparing i X H (f <$> p) R := by
  rw [map_eq_pure_bind]
  exact hp.bind fun a => pure fun h => hf a h.2

/-! Steps that look. -/

theorem get : Sparing i X H (get : Parser State) (·.arena.Secluded X) :=
  look fun s => ⟨s, rfl, fun _ hs => hs⟩

theorem place : Sparing i X H Parser.place fun _ => True := look fun s => ⟨s.place, rfl, by simp⟩

theorem peek : Sparing i X H Parser.peek fun _ => True :=
  look fun s => ⟨s.place.current?, rfl, by simp⟩

theorem peekNext : Sparing i X H Parser.peekNext fun _ => True :=
  look fun s => ⟨s.place.next?, rfl, by simp⟩

theorem start : Sparing i X H Parser.start fun _ => True :=
  look fun s => ⟨s.place.start i.text, rfl, by simp⟩

theorem atWord (keyword : String) : Sparing i X H (Parser.atWord keyword) fun _ => True := by
  refine peek.seq fun t => ?_
  split <;> exact pure fun _ => trivial

/-! Steps that move, and steps that fail. -/

theorem advance : Sparing i X H Parser.advance fun _ => True := move fun s => ⟨s.place.advance, rfl⟩

theorem advanceBy (n : Nat) : Sparing i X H (Parser.advanceBy n) fun _ => True :=
  move fun s => ⟨s.place.advanceBy n, rfl⟩

theorem goto (q : Place) : Sparing i X H (Parser.goto q) fun _ => True := move fun _ => ⟨q, rfl⟩

theorem skipWhile (f : Token → Bool) : Sparing i X H (Parser.skipWhile f) fun _ => True :=
  place.seq fun _ => advanceBy _

theorem skipNewlines : Sparing i X H Parser.skipNewlines fun _ => True := skipWhile _

theorem skipTerminators : Sparing i X H Parser.skipTerminators fun _ => True := skipWhile _

theorem throw (f : Failure) : Sparing i X H (throw f : Parser α) Q := fail fun _ => ⟨f, rfl⟩

theorem refuse (e : ParseError) : Sparing i X H (Parser.refuse e : Parser α) Q := throw _

theorem unexpected (expected : String) :
    Sparing i X H (Parser.unexpected expected : Parser α) Q := by
  refine place.seq fun q => ?_
  split <;> exact refuse _

theorem slice (m n : Nat) : Sparing i X H (Parser.slice m n) fun _ => True := by
  have hread : Sparing i X H (read : Parser Input) fun _ => True := look fun _ => ⟨i, rfl, by simp⟩
  refine hread.seq fun _ => ?_
  split
  · exact pure fun _ => trivial
  · exact throw _

theorem eat (m : Mark) : Sparing i X H (Parser.eat m) fun _ => True := by
  refine peek.seq fun t => ?_
  split
  · exact advance.seq fun _ => pure fun _ => trivial
  · exact pure fun _ => trivial

theorem expect (m : Mark) : Sparing i X H (Parser.expect m) fun _ => True := by
  refine (eat m).seq fun found => ?_
  split
  · exact pure fun _ => trivial
  · exact unexpected _

theorem add {n : Node NodeId} {start : Nat} (h : H → ∀ c ∈ n.children, c ∉ X) :
    Sparing i X H (Parser.add n start) (· ∉ X) := place.seq fun _ => addAt n _ h

/-! Repetition. -/

theorem manyUpTo {item : Parser (Option α)} (h : Sparing i X H item fun o => ∀ a ∈ o, Q a)
    (n : Nat) : Sparing i X H (Parser.manyUpTo item n) fun as => ∀ a ∈ as, Q a := by
  induction n with
  | zero => exact throw _
  | succ n ih =>
    refine h.bind fun o => ?_
    cases o with
    | none => exact pure fun _ => by simp
    | some a =>
      refine (ih.weaken And.left).bind fun as => pure fun h => ?_
      simpa using h.imp_left (·.2 a rfl)

theorem many {item : Parser (Option α)} (h : Sparing i X H item fun o => ∀ a ∈ o, Q a) :
    Sparing i X H (Parser.many item) fun as => ∀ a ∈ as, Q a := place.seq fun _ => manyUpTo h _

theorem iterateUpTo {step : α → Parser (Option α)}
    (h : ∀ a, Sparing i X (H ∧ Q a) (step a) fun o => ∀ b ∈ o, Q b) (n : Nat) (a : α) :
    Sparing i X (H ∧ Q a) (Parser.iterateUpTo step n a) Q := by
  induction n generalizing a with
  | zero => exact throw _
  | succ n ih =>
    refine (h a).bind fun o => ?_
    cases o with
    | none => exact pure fun h => h.1.2
    | some b => exact (ih b).weaken fun h => ⟨h.1.1, h.2 b rfl⟩

theorem iterate {step : α → Parser (Option α)}
    (h : ∀ a, Sparing i X (H ∧ Q a) (step a) fun o => ∀ b ∈ o, Q b) {a : α} (ha : H → Q a) :
    Sparing i X H (Parser.iterate step a) Q :=
  place.seq fun _ => (iterateUpTo h _ a).weaken fun hH => ⟨hH, ha hH⟩

theorem afterCommas (h : Sparing i X H p Q) :
    Sparing i X H (Parser.afterCommas p) fun as => ∀ a ∈ as, Q a := by
  refine many ((eat .comma).seq fun found => ?_)
  split
  · exact h.bind fun a => pure fun h => by simpa using h.2
  · exact pure fun _ => by simp

theorem spaced (h : Sparing i X H p Q) : Sparing i X H (Parser.spaced p) Q :=
  skipNewlines.seq fun _ => h.bind fun _ => skipNewlines.seq fun _ => pure And.right

theorem untilParen (h : Sparing i X H p Q) :
    Sparing i X H (Parser.untilParen p) fun as => ∀ a ∈ as, Q a := by
  refine skipNewlines.seq fun _ => (eat .rparen).seq fun found => ?_
  split
  · exact pure fun _ => by simp
  · refine (spaced h).bind fun first => ?_
    refine ((afterCommas (spaced h)).weaken And.left).bind fun others => ?_
    exact (expect .rparen).seq fun _ => pure fun h => by simpa using h.imp_left And.right

end Sparing

end Grammar

end ScriptInject
