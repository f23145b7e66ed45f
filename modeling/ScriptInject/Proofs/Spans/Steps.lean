import ScriptInject.Proofs.Spans.Basic
/-! The steps that rules are made of, by the row of nodes that they leave behind. -/
namespace ScriptInject.Grammar
open Place.Along (Onto)

variable {α β : Type} {i : Input} {ls : List Lexeme} {s t u : State} {xs ys : List NodeId}
  {f : α → List NodeId} {g : β → List NodeId} {m : Mark} {n : Node NodeId} {id : NodeId}
  {token : Token} {Q : β → State → Prop}

/-- A reading stands among the tokens of its text, with an arena in order. -/
structure Standing (i : Input) (ls : List Lexeme) (s : State) : Prop where
  along : s.place.Along i.text ls
  tiled : s.arena.Tiled i.text ls

/-- What any run leaves behind: nothing that was there has changed. -/
structure Leaves (i : Input) (ls : List Lexeme) (s t : State) : Prop where
  grows : s.arena.Grows t.arena
  tiled : t.arena.Tiled i.text ls

/-- From one state to the other, the reading has gone on by a row of nodes. -/
structure Laid (i : Input) (ls : List Lexeme) (s t : State) (xs : List NodeId) : Prop
    extends Leaves i ls s t where
  along : t.place.Along i.text ls
  onto : Onto i.text s.place t.place
  row : t.arena.Row (s.place.start i.text) t.place.stop xs

/-- However a rule fails, it changes nothing that was there. -/
def Spares (i : Input) (ls : List Lexeme) (s : State) : Failure → State → Prop :=
  fun _ t => Leaves i ls s t

/-- Wherever it starts, the rule lays the row of nodes that its result stands for. -/
def Lays (i : Input) (ls : List Lexeme) (f : α → List NodeId) (p : Parser α) : Prop :=
  ∀ s, Standing i ls s → Outcome p i s (Spares i ls s) fun a t => Laid i ls s t (f a)

/-- A rule that makes one node. -/
abbrev LaysNode (i : Input) (ls : List Lexeme) (p : Parser NodeId) : Prop := Lays i ls (fun id => [id]) p

/-- A rule that makes no nodes. -/
abbrev LaysNone (i : Input) (ls : List Lexeme) (p : Parser α) : Prop := Lays i ls (fun _ => []) p

/-- A rule that may make nodes, or yield nothing. -/
abbrev LaysSome (i : Input) (ls : List Lexeme) (f : α → List NodeId) (p : Parser (Option α)) : Prop :=
  Lays i ls (fun o => o.toList.flatMap f) p

@[simp] theorem flatMap_nil_right (as : List α) : (as.flatMap fun _ => ([] : List NodeId)) = [] :=
  List.flatMap_eq_nil_iff.mpr fun _ _ => rfl

@[simp] theorem flatMap_single (h : α → NodeId) (as : List α) :
    (as.flatMap fun a => [h a]) = as.map h := List.map_eq_flatMap.symm

theorem Leaves.refl (h : s.arena.Tiled i.text ls) : Leaves i ls s s := ⟨.refl _, h⟩

theorem Leaves.trans (h : Leaves i ls s t) (k : Leaves i ls t u) : Leaves i ls s u :=
  ⟨h.grows.trans k.grows, k.tiled⟩

/-- Going back to where a run started. -/
theorem Leaves.back (h : Leaves i ls s t) (hs : Standing i ls s) (hp : t.place = s.place) :
    Laid i ls s t [] where
  toLeaves := h
  along := hp ▸ hs.along
  onto := hp ▸ ⟨Nat.le_refl _, Nat.le_refl _⟩
  row := .nil

theorem Standing.laid (h : Standing i ls s) : Laid i ls s s [] :=
  (Leaves.refl h.tiled).back h rfl

namespace Laid

theorem standing (h : Laid i ls s t xs) : Standing i ls t := ⟨h.along, h.tiled⟩

theorem trans (h : Laid i ls s t xs) (k : Laid i ls t u ys) : Laid i ls s u (xs ++ ys) where
  toLeaves := h.toLeaves.trans k.toLeaves
  along := k.along
  onto := h.onto.trans k.onto
  row := (h.row.grows h.tiled.tidy k.grows).append k.row h.along.stop_le_start h.onto.1 k.onto.2

theorem goto {p : Place} (h : Laid i ls s t xs) (hp : p.Along i.text ls)
    (honto : Onto i.text t.place p) : Laid i ls s { t with place := p } xs where
  grows := h.grows
  tiled := h.tiled
  along := hp
  onto := h.onto.trans honto
  row := h.row.widen (Nat.le_refl _) honto.2

theorem advance (h : Laid i ls s t xs) : Laid i ls s { t with place := t.place.advance } xs :=
  h.goto h.along.advance h.along.onto_advance

theorem advanceBy (h : Laid i ls s t xs) (k : Nat) :
    Laid i ls s { t with place := t.place.advanceBy k } xs :=
  h.goto (h.along.advanceBy k).1 (h.along.advanceBy k).2

theorem past (h : Laid i ls s t xs) (p : Token → Bool) :
    Laid i ls s { t with place := t.place.past p } xs := h.advanceBy _

/-- What has been read lies behind, once a token has been read. -/
theorem behind_advance (h : Laid i ls s t xs) (ht : t.place.current? = some token) :
    s.place.start i.text ≤ t.place.advance.stop :=
  Nat.le_trans h.onto.1 (h.along.start_le_stop_advance ht)

theorem behind_advanceBy {k : Nat} (h : Laid i ls s t xs) (ht : t.place.current? = some token)
    (hk : 0 < k) : s.place.start i.text ≤ (t.place.advanceBy k).stop :=
  Nat.le_trans h.onto.1 (h.along.start_le_stop_advanceBy ht hk)

/-- What has been read lies behind, once a node has been made. -/
theorem behind (h : Laid i ls s t xs) (hne : xs ≠ []) : s.place.start i.text ≤ t.place.stop :=
  h.row.lo_le_hi hne

/-- The range from the start of one place to the end of what has been read at another. -/
theorem bounds (h : Laid i ls s t xs) (hs : s.place.Along i.text ls) :
    Span.Bounds i.text ls ⟨s.place.start i.text, max t.place.stop (s.place.start i.text)⟩ := by
  have hsize := hs.start_le_size
  have hstop := Nat.le_trans h.along.stop_le_start h.along.start_le_size
  refine ⟨Nat.le_max_right _ _, Nat.max_le.mpr ⟨hstop, hsize⟩, ?_, ?_⟩
  · obtain ⟨done, rfl, -⟩ := hs.split
    rw [Place.start]
    cases hr : s.place.rest with
    | nil => exact .inl rfl
    | cons l rest => exact .inr ⟨l, by simp, rfl⟩
  · rcases Nat.le_total t.place.stop (s.place.start i.text) with hle | hle
    · exact .inl (Nat.max_eq_right hle)
    · obtain ⟨done, rfl, hlast⟩ := h.along.split
      rw [Nat.max_eq_left hle, Place.stop, hlast]
      rw [Place.stop, hlast] at hle
      cases hl : done.getLast? with
      | none =>
        rw [hl] at hle
        exact .inl (Nat.le_antisymm (Nat.zero_le _) hle)
      | some l => exact .inr ⟨l, List.mem_append_left _ (List.mem_of_getLast? hl), rfl⟩

theorem addAt {span : Span} (h : Laid i ls s t xs) (hn : n.Fills xs)
    (hrow : t.arena.Row span.start span.stop xs) (hspan : span.Bounds i.text ls) :
    Outcome (Parser.addAt n span) i t (Spares i ls s) fun id u =>
      Leaves i ls s u ∧ u.place = t.place ∧ u.arena.span? id = some span := by
  rw [Parser.addAt, Outcome.get_bind]
  cases hadd : t.arena.add n (some span) with
  | error e => exact h.toLeaves
  | ok r =>
    obtain ⟨id, a⟩ := r
    exact ⟨⟨h.grows.trans (Arena.add_grows hadd h.tiled.tidy), h.tiled.add hn hrow hspan hadd⟩,
      rfl, Arena.add_span?_some hadd⟩

/-- A node around all that has been read. -/
theorem addOver (h : Laid i ls s t xs) (hs : Standing i ls s) (hn : n.Fills xs) :
    Outcome (Parser.add n (s.place.start i.text)) i t (Spares i ls s) fun id u =>
      Laid i ls s u [] ∧ u.place = t.place ∧ u.arena.span? id =
        some ⟨s.place.start i.text, max t.place.stop (s.place.start i.text)⟩ := by
  rw [Parser.add, Outcome.place_bind]
  refine (h.addAt hn (h.row.widen (Nat.le_refl _) (Nat.le_max_left _ _)) (h.bounds hs.along)).imp ?_
  rintro id u ⟨hu, hplace, hspan⟩
  exact ⟨⟨hu, hplace ▸ h.along, hplace ▸ h.onto, .nil⟩, hplace, hspan⟩

theorem add (h : Laid i ls s t xs) (hs : Standing i ls s)
    (hbehind : s.place.start i.text ≤ t.place.stop) (hn : n.Fills xs) :
    Outcome (Parser.add n (s.place.start i.text)) i t (Spares i ls s) fun id u =>
      Laid i ls s u [id] := by
  refine (h.addOver hs hn).imp ?_
  rintro id u ⟨hu, hplace, hspan⟩
  rw [Nat.max_eq_left hbehind, ← hplace] at hspan
  exact { hu with row := .single hspan (Nat.le_refl _) (hplace ▸ hbehind) (Nat.le_refl _) }

/-! One step after the other. -/

theorem unexpected {expected : String} {P : α → State → Prop} (h : Laid i ls s t xs) :
    Outcome (Parser.unexpected expected) i t (Spares i ls s) P :=
  Outcome.unexpected fun _ => h.toLeaves

theorem expect {k : Unit → Parser β} (h : Laid i ls s t xs)
    (hk : s.place.start i.text ≤ t.place.advance.stop →
      Outcome (k ()) i { t with place := t.place.advance } (Spares i ls s) Q) :
    Outcome (Parser.expect m >>= k) i t (Spares i ls s) Q := by
  rw [Outcome.expect_bind]
  exact ⟨fun hm => hk (h.behind_advance hm), fun _ => Outcome.unexpected_bind fun _ => h.toLeaves⟩

theorem slice {start stop : Nat} {P : String → State → Prop} (h : Laid i ls s t xs)
    (hp : ∀ value, P value t) : Outcome (Parser.slice start stop) i t (Spares i ls s) P := by
  unfold Parser.slice
  refine Outcome.bind (P := fun j u => j = i ∧ u = t) ⟨rfl, rfl⟩ ?_
  rintro _ _ ⟨rfl, rfl⟩
  split
  · exact hp _
  · exact h.toLeaves

/-- A run that goes on where others have come to. -/
theorem goOn {p : Parser α} (h : Laid i ls s t xs)
    (hp : Outcome p i t (Spares i ls t) fun a u => Laid i ls t u (f a)) :
    Outcome p i t (Spares i ls s) fun a u => Laid i ls s u (xs ++ f a) :=
  hp.mono (fun _ _ hu => h.toLeaves.trans hu) fun _ _ hu => h.trans hu

theorem run {p : Parser α} (h : Laid i ls s t xs) (hp : Lays i ls f p) :
    Outcome p i t (Spares i ls s) fun a u => Laid i ls s u (xs ++ f a) :=
  h.goOn (hp _ h.standing)

theorem bind {p : Parser α} {k : α → Parser β} (h : Laid i ls s t xs) (hp : Lays i ls f p)
    (hk : ∀ a u, Laid i ls s u (xs ++ f a) → Outcome (k a) i u (Spares i ls s) Q) :
    Outcome (p >>= k) i t (Spares i ls s) Q := (h.run hp).bind hk

/-- What lies behind stays there. -/
theorem bindBehind {p : Parser α} {k : α → Parser β} {start : Nat} (h : Laid i ls s t xs)
    (hp : Lays i ls f p) (hbehind : start ≤ t.place.stop)
    (hk : ∀ a u, Laid i ls s u (xs ++ f a) → start ≤ u.place.stop →
      Outcome (k a) i u (Spares i ls s) Q) :
    Outcome (p >>= k) i t (Spares i ls s) Q :=
  ((hp _ h.standing).mono (fun _ _ hu => h.toLeaves.trans hu)
    fun _ _ hu => And.intro (h.trans hu) (Nat.le_trans hbehind hu.onto.2)).bind
      fun a u hu => hk a u hu.1 hu.2

end Laid

namespace Lays

variable {p : Parser α}

theorem some_bind (h : Lays i ls f p) : LaysSome i ls f (p >>= fun a => pure (some a)) :=
  fun _ hs => (h _ hs).bind fun a t ht => by simpa using ht

theorem some_map (h : Lays i ls f p) : LaysSome i ls f (some <$> p) :=
  fun _ hs => (h _ hs).map fun a t ht => by simpa using ht

theorem manyUpTo {item : Parser (Option α)} (h : LaysSome i ls f item) (k : Nat) :
    Lays i ls (List.flatMap f) (Parser.manyUpTo item k) := by
  intro s hs
  have hnone : Laid i ls s s (([] : List α).flatMap f) := hs.laid
  refine (Outcome.manyUpTo (I := fun as t => Laid i ls s t (as.flatMap f))
    (F := fun as t => Laid i ls s t (as.flatMap f)) hnone (fun _ _ ht => ht.toLeaves)
    fun as t ht => ?_).imp fun as t ht => by simpa using ht
  refine (ht.run h).imp fun o u hu => ⟨?_, ?_⟩
  · rintro rfl
    simpa using hu
  · rintro a rfl
    simpa using hu

theorem many {item : Parser (Option α)} (h : LaysSome i ls f item) :
    Lays i ls (List.flatMap f) (Parser.many item) := by
  intro s hs
  rw [Parser.many, Outcome.place_bind]
  exact h.manyUpTo _ _ hs

theorem afterCommas (h : Lays i ls f p) : Lays i ls (List.flatMap f) (Parser.afterCommas p) := by
  refine many fun s hs => ?_
  rw [Outcome.eat_ite]
  exact ⟨fun _ => hs.laid.advance.run h.some_bind, fun _ => hs.laid⟩

theorem spaced (h : Lays i ls f p) : Lays i ls f (Parser.spaced p) := by
  intro s hs
  rw [Parser.spaced, Outcome.skipNewlines_bind]
  refine (hs.laid.past _).bind h fun a t ht => ?_
  rw [Outcome.skipNewlines_bind]
  exact ht.past _

theorem guarded (h : Lays i ls f p) : Lays i ls f (Parser.guarded p) := by
  intro s hs
  rw [Outcome, Parser.guarded]
  by_cases hd : i.maxDepth ≤ s.depth
  · simp only [hd, if_true]
    exact .refl hs.tiled
  · simp only [hd, if_false]
    have hrun := h { s with depth := s.depth + 1 } ⟨hs.along, hs.tiled⟩
    rw [Outcome] at hrun
    cases hr : p i { s with depth := s.depth + 1 } with
    | ok a t =>
      rw [hr] at hrun
      exact ⟨⟨hrun.grows, hrun.tiled⟩, hrun.along, hrun.onto, hrun.row⟩
    | error f t =>
      rw [hr] at hrun
      exact ⟨hrun.grows, hrun.tiled⟩

theorem iterate {step : α → Parser (Option α)} {a : α} (h : Laid i ls s t (f a))
    (hstep : ∀ a u, Laid i ls s u (f a) → Outcome (step a) i u (Spares i ls s) fun o v =>
      Laid i ls s v (f (o.getD a))) :
    Outcome (Parser.iterate step a) i t (Spares i ls s) fun b u => Laid i ls s u (f b) := by
  refine Outcome.iterate (I := fun a u => Laid i ls s u (f a)) h (fun _ _ hu => hu.toLeaves) ?_
  refine fun b u hu => (hstep b u hu).imp fun o v hv => ⟨?_, ?_⟩
  · rintro rfl
    exact hv
  · rintro c rfl
    exact hv

/-- Without recovery or not, the same nodes are laid. -/
theorem speculatively {P : α → State → Prop} (h : Outcome p i { s with recovering := false }
    (Spares i ls { s with recovering := false }) fun a t => P a { t with recovering := s.recovering }) :
    Outcome (Parser.speculatively p) i s (Spares i ls s) P := by
  rw [Outcome] at h
  rw [Outcome, Parser.speculatively]
  cases hr : p i { s with recovering := false } with
  | ok a t =>
    rw [hr] at h
    exact h
  | error f t =>
    rw [hr] at h
    exact ⟨h.grows, h.tiled⟩

theorem attempt {P : α → State → Prop} (h : Outcome p i s (Spares i ls s) P) :
    Outcome (Parser.attempt p) i s (Spares i ls s)
      fun o t => (∀ a, o = some a → P a t) ∧ (o = none → Leaves i ls s t) := by
  rw [Outcome] at h
  rw [Outcome, Parser.attempt]
  cases hr : p i s with
  | ok a t =>
    rw [hr] at h
    exact ⟨fun b hb => by rwa [← Option.some.inj hb], by simp⟩
  | error f t =>
    rw [hr] at h
    cases f with
    | refused e => exact ⟨by simp, fun _ => h⟩
    | cut => exact h
    | stalled => exact h

end Lays

/-- Items in parentheses; the closing one is behind. -/
theorem Laid.untilParen {p : Parser α} (h : Laid i ls s t xs) (hp : Lays i ls f p) :
    Outcome (Parser.untilParen p) i t (Spares i ls s) fun as u =>
      Laid i ls s u (xs ++ as.flatMap f) ∧ s.place.start i.text ≤ u.place.stop := by
  rw [Parser.untilParen, Outcome.skipNewlines_bind, Outcome.eat_ite]
  constructor
  · intro hparen
    exact ⟨by simpa using (h.past _).advance, (h.past _).behind_advance hparen⟩
  · intro _
    refine (h.past _).bind hp.spaced fun a u hu => hu.bind hp.spaced.afterCommas fun as v hv => ?_
    exact hv.expect fun hbehind => ⟨by simpa using hv.advance, hbehind⟩

end ScriptInject.Grammar
