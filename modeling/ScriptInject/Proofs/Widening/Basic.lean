import ScriptInject.Proofs.Lockstep.Steps
/-! Two readings of one text, of which the second may nest deeper. Where the first one succeeds, so
does the second one, and with the same result. The first one may also be a later attempt at what the
second one has failed at: then their arenas differ, and all that can come between them is that the
second one has run out of ids. -/
namespace ScriptInject

namespace Arena

variable {a : Arena} {n : Node NodeId} {span : Option Span} {e : ArenaError}

/-- No id is left. -/
def Full (a : Arena) : Prop := a.fresh? = none

theorem Full.add (h : a.Full) (n : Node NodeId) (span : Option Span) :
    a.add n span = .error .full := by
  rw [Arena.add, show a.fresh? = none from h]

theorem full_of_add (h : a.add n span = .error e) : a.Full := by
  unfold add at h
  cases hf : a.fresh? with
  | none => exact hf
  | some id =>
    rw [hf] at h
    cases h

end Arena

namespace Grammar

/-- What a run leaves as it was, whether it succeeds or not. -/
structure Calm (s t : State) : Prop where
  full : s.arena.Full → t.arena.Full
  recovering : t.recovering = s.recovering
  depth : t.depth = s.depth

theorem Calm.refl (s : State) : Calm s s := ⟨id, rfl, rfl⟩

theorem Calm.trans {s t u : State} (h : Calm s t) (k : Calm t u) : Calm s u where
  full hs := k.full (h.full hs)
  recovering := k.recovering.trans h.recovering
  depth := k.depth.trans h.depth

theorem Calm.goto {s : State} (p : Place) : Calm s { s with place := p } := ⟨id, rfl, rfl⟩

/-- How deep two readings stand, and how deep they may go: the second one has at least as many
levels left. -/
structure Widening where
  narrow : Input
  wide : Input
  depth : Nat
  depth' : Nat
  /-- Whether the arenas are equal. If not, nothing is known of them. -/
  equal : Prop
  text_eq : wide.text = narrow.text
  roomier : narrow.maxDepth + depth' ≤ wide.maxDepth + depth

variable {α β γ δ : Type}

/-- No run of the rule disturbs what a run leaves as it was. -/
def Rests (i : Input) (p : Parser α) : Prop := ∀ s, Calm s (final (p i s))

namespace Widening
variable (σ : Widening)

/-- Both readings one level deeper. -/
def deeper : Widening :=
  { σ with
    depth := σ.depth + 1
    depth' := σ.depth' + 1
    roomier := by
      have := σ.roomier
      omega }

/-- Both readings stand at the same token, and neither recovers. -/
structure Alike (s s' : State) : Prop where
  place : s'.place = s.place
  arena : σ.equal → s'.arena = s.arena
  depth : s.depth = σ.depth
  depth' : s'.depth = σ.depth'
  strict : s.recovering = false
  strict' : s'.recovering = false

/-- Two results that the rules do not tell apart. -/
structure Same (f : α → β) (a b : α) : Prop where
  shape : f a = f b
  eq : σ.equal → a = b

end Widening

/-- A result of which only its arena knows more. -/
def veiled (_ : α) : Unit := ()

/-- The second reading ends like the first one, or it has run out of ids. -/
inductive Sustains (σ : Widening) (f : α → β) (a : α) (t : State) :
    EStateM.Result Failure State α → Prop
  | ok {b t'} : σ.Same f a b → σ.Alike t t' → Sustains σ f a t (.ok b t')
  | full {r} : ¬ σ.equal → (final r).arena.Full → Sustains σ f a t r

/-- From alike states the second rule succeeds where the first one does. -/
structure Widens (σ : Widening) (f : α → β) (p q : Parser α) : Prop where
  narrow : Rests σ.narrow p
  wide : Rests σ.wide q
  follows : ∀ {s s' a t}, σ.Alike s s' → p σ.narrow s = .ok a t →
    Sustains σ f a t (q σ.wide s')

namespace Widening.Same

variable {σ : Widening} {f : α → β} {a b : α}

theorem refl (a : α) : σ.Same f a a := ⟨rfl, fun _ => rfl⟩

theorem veiled (h : σ.equal → a = b) : σ.Same veiled a b := ⟨rfl, h⟩

theorem some (h : σ.Same f a b) : σ.Same (Option.map f) (some a) (some b) :=
  ⟨congrArg Option.some h.shape, fun he => congrArg Option.some (h.eq he)⟩

theorem cons {as bs : List α} (h : σ.Same f a b) (hs : σ.Same (List.map f) as bs) :
    σ.Same (List.map f) (a :: as) (b :: bs) where
  shape := by rw [List.map_cons, List.map_cons, h.shape, hs.shape]
  eq he := by rw [h.eq he, hs.eq he]

end Widening.Same

namespace Rests

variable {i : Input} {p : Parser α} {k : α → Parser β}

theorem bind (hp : Rests i p) (hk : ∀ a, Rests i (k a)) : Rests i (p >>= k) := by
  intro s
  have hcalm := hp s
  rw [Lockstep.bind_run]
  cases hr : p i s with
  | ok a t =>
    rw [hr] at hcalm
    exact hcalm.trans (hk a t)
  | error e t =>
    rw [hr] at hcalm
    exact hcalm

theorem addAt (n : Node NodeId) (span : Span) : Rests i (Parser.addAt n span) := by
  intro s
  rw [Lockstep.addAt_run]
  cases hadd : s.arena.add n (some span) with
  | error e => exact .refl s
  | ok r =>
    refine ⟨fun hfull => ?_, rfl, rfl⟩
    rw [hfull.add] at hadd
    cases hadd

theorem attempt (hp : Rests i p) : Rests i (Parser.attempt p) := by
  intro s
  have hcalm := hp s
  rw [Parser.attempt]
  cases hr : p i s with
  | ok a t =>
    rw [hr] at hcalm
    exact hcalm
  | error e t =>
    rw [hr] at hcalm
    cases e <;> exact hcalm

theorem speculatively (hp : Rests i p) : Rests i (Parser.speculatively p) := by
  intro s
  have hcalm := hp { s with recovering := false }
  rw [Parser.speculatively]
  cases hr : p i { s with recovering := false } with
  | ok a t =>
    rw [hr] at hcalm
    exact ⟨hcalm.full, rfl, hcalm.depth⟩
  | error e t =>
    rw [hr] at hcalm
    exact ⟨hcalm.full, rfl, hcalm.depth⟩

theorem guarded (hp : Rests i p) : Rests i (Parser.guarded p) := by
  intro s
  rw [Parser.guarded]
  split
  · exact .refl s
  · have hcalm := hp { s with depth := s.depth + 1 }
    cases hr : p i { s with depth := s.depth + 1 } with
    | ok a t =>
      rw [hr] at hcalm
      exact ⟨hcalm.full, hcalm.recovering, congrArg (· - 1) hcalm.depth⟩
    | error e t =>
      rw [hr] at hcalm
      exact ⟨hcalm.full, hcalm.recovering, congrArg (· - 1) hcalm.depth⟩

theorem orElseKeep {other : Parser α} (hp : Rests i p) (ho : Rests i other) :
    Rests i (Grammar.orElseKeep p other) := by
  intro s
  have hcalm := hp s
  rw [Grammar.orElseKeep]
  cases hr : p i s with
  | ok a t =>
    rw [hr] at hcalm
    exact hcalm
  | error e t =>
    rw [hr] at hcalm
    cases e with
    | refused e =>
      dsimp only
      split
      · have hnoted : Calm t { t with errors := t.errors ++ [e], place := s.place } := ⟨id, rfl, rfl⟩
        exact (hcalm.trans hnoted).trans (ho _)
      · exact hcalm
    | cut => exact hcalm
    | stalled => exact hcalm

end Rests

namespace Sustains

variable {σ : Widening} {f : α → β} {g : γ → δ} {q : Parser α} {l : α → Parser γ} {s' t u : State}
  {a : α} {c : γ}

/-- What comes after a rule. Without ids there are still none at its end. -/
theorem bind (h : Sustains σ f a t (q σ.wide s'))
    (hk : ∀ b t', σ.Same f a b → σ.Alike t t' → Sustains σ g c u (l b σ.wide t'))
    (hl : ∀ b, Rests σ.wide (l b)) : Sustains σ g c u ((q >>= l) σ.wide s') := by
  rw [Lockstep.bind_run]
  generalize q σ.wide s' = r at h ⊢
  cases h with
  | ok hab ht => exact hk _ _ hab ht
  | full he hfull =>
    cases r with
    | ok b t' => exact .full he ((hl b t').full hfull)
    | error e t' => exact .full he hfull

theorem attempt (h : Sustains σ f a t (q σ.wide s')) :
    Sustains σ (Option.map f) (some a) t (Parser.attempt q σ.wide s') := by
  rw [Parser.attempt]
  generalize q σ.wide s' = r at h ⊢
  cases h with
  | ok hab ht => exact .ok hab.some ht
  | full he hfull =>
    cases r with
    | ok b t' => exact .full he hfull
    | error e t' => cases e <;> exact .full he hfull

end Sustains

end Grammar

end ScriptInject
