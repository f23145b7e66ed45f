import ScriptInject.Proofs.Growth
/-! The steps that the rules are made of, by what they add. -/
namespace ScriptInject.Grammar

variable {α β : Type} {i : Input} {s t u : State} {ts us xs ys : List (Tree NodeId)}
  {m : Mark} {E : Failure → State → Prop} {Q : β → State → Prop}

/-- Each value of a list stands for the trees next to it. -/
inductive Each (R : α → List (Tree NodeId) → Prop) : List α → List (Tree NodeId) → Prop
  | nil : Each R [] []
  | cons {a as xs ys} : R a xs → Each R as ys → Each R (a :: as) (xs ++ ys)

namespace Each

variable {R R' : α → List (Tree NodeId) → Prop} {a : α} {as bs : List α} {T : Tree NodeId → Prop}

theorem append (h : Each R as xs) (k : Each R bs ys) : Each R (as ++ bs) (xs ++ ys) := by
  induction h with
  | nil => exact k
  | cons hr _ ih =>
    rw [List.cons_append, List.append_assoc]
    exact .cons hr ih

theorem single (h : R a xs) : Each R [a] xs := by
  have := Each.cons h .nil
  rwa [List.append_nil] at this

/-- Values without trees. -/
theorem values {T : α → Prop} (h : Each (fun a xs => xs = [] ∧ T a) as xs) :
    xs = [] ∧ ∀ a ∈ as, T a := by
  induction h with
  | nil => exact ⟨rfl, nofun⟩
  | cons hr _ ih =>
    obtain ⟨rfl, ha⟩ := hr
    refine ⟨by simp [ih.1], ?_⟩
    simpa [ha] using ih.2

/-- A value for each tree. -/
theorem labels {ids : List NodeId} (h : Each (fun id xs => ∃ x, xs = [x] ∧ x.label = id ∧ T x) ids xs) :
    ids = xs.map Tree.label ∧ ∀ x ∈ xs, T x := by
  induction h with
  | nil => exact ⟨rfl, nofun⟩
  | cons hr _ ih =>
    obtain ⟨x, rfl, rfl, hx⟩ := hr
    refine ⟨by simp [ih.1], ?_⟩
    simpa [hx] using ih.2

/-- A value for each pair of trees. -/
theorem pairs {T : Tree NodeId × Tree NodeId → Prop} {ids : List (NodeId × NodeId)}
    (h : Each (fun id xs => ∃ x y, xs = [x, y] ∧ id = (x.label, y.label) ∧ T (x, y)) ids xs) :
    ∃ ps : List (Tree NodeId × Tree NodeId), ids = ps.map (fun (x, y) => (x.label, y.label)) ∧
      xs = ps.flatMap (fun (x, y) => [x, y]) ∧ ∀ p ∈ ps, T p := by
  induction h with
  | nil => exact ⟨[], rfl, rfl, nofun⟩
  | cons hr _ ih =>
    obtain ⟨x, y, rfl, rfl, hx⟩ := hr
    obtain ⟨ps, rfl, rfl, hps⟩ := ih
    exact ⟨(x, y) :: ps, rfl, rfl, by simpa [hx] using hps⟩

end Each

/-- The terminators of statements. -/
def isTerminator (t : Token) : Bool := t == .newline || t == .mark .semicolon

/-- The place behind the tokens of a class. -/
def Place.past (p : Token → Bool) (q : Place) : Place :=
  q.advanceBy (q.rest.takeWhile fun l => p l.token).length

theorem Place.past_eq {p : Place} {r : Token → Bool} (h : ∀ token, p.current? = some token → r token = false) :
    p.past r = p := by
  cases hr : p.rest with
  | nil => simp [Place.past, hr, Place.advanceBy]
  | cons l ls =>
    have : r l.token = false := h _ (by simp [Place.current?, hr])
    simp [Place.past, hr, this, Place.advanceBy]

namespace Outcome

open Grammar.Parser

theorem skipNewlines_bind {f : Unit → Parser β} : Outcome (skipNewlines >>= f) i s E Q ↔
    Outcome (f ()) i { s with place := s.place.past (· == .newline) } E Q := Iff.rfl

theorem skipTerminators_bind {f : Unit → Parser β} : Outcome (skipTerminators >>= f) i s E Q ↔
    Outcome (f ()) i { s with place := s.place.past isTerminator } E Q := Iff.rfl

theorem unexpected_bind {expected : String} {f : α → Parser β} (h : ∀ e, E (.refused e) s) :
    Outcome (unexpected expected >>= f) i s E Q := by
  simp only [unexpected, assoc, place_bind]
  cases s.place.rest <;> exact h _

theorem unexpected {expected : String} {P : α → State → Prop} (h : ∀ e, E (.refused e) s) :
    Outcome (Parser.unexpected expected) i s E P := by
  simp only [Parser.unexpected, place_bind]
  cases s.place.rest <;> exact h _

end Outcome

namespace Made

open Grammar.Parser

theorem past (h : Made i s t ts) (p : Token → Bool) :
    Made i s { t with place := t.place.past p } ts := h.advanceBy _

theorem expect {f : Unit → Parser β} (h : Made i s t ts)
    (k : t.place.current? = some (.mark m) →
      Outcome (f ()) i { t with place := t.place.advance } (Lost s) Q) :
    Outcome (Parser.expect m >>= f) i t (Lost s) Q := by
  rw [Outcome.expect_bind]
  exact ⟨k, fun _ => Outcome.unexpected_bind fun _ => h.toKept⟩

theorem unexpected {expected : String} {P : α → State → Prop} (h : Made i s t ts) :
    Outcome (Parser.unexpected expected) i t (Lost s) P := Outcome.unexpected fun _ => h.toKept

/-- What `item` adds whenever it yields something. -/
theorem many {item : Parser (Option α)} {R : α → List (Tree NodeId) → Prop} (h : Made i s t ts)
    (step : ∀ {u us}, Made i s u us → Outcome item i u (Lost s)
      (Adds i s us fun o xs _ => (o = none → xs = []) ∧ ∀ a, o = some a → R a xs)) :
    Outcome (Parser.many item) i t (Lost s) (Adds i s ts fun as xs _ => Each R as xs) := by
  refine Outcome.many (I := fun as u => ∃ xs, Made i s u (ts ++ xs) ∧ Each R as xs)
    ⟨[], by simpa using h, .nil⟩ ?_ ?_
  · rintro as u ⟨xs, hu, -⟩
    exact hu.toKept
  · rintro as u ⟨xs, hu, has⟩
    refine (step hu).imp fun o v ⟨ys, hv, hnone, hsome⟩ => ⟨?_, ?_⟩
    · intro ho
      rw [hnone ho, List.append_nil] at hv
      exact ⟨xs, hv, has⟩
    · intro a ho
      rw [List.append_assoc] at hv
      exact ⟨xs ++ ys, hv, has.append (.single (hsome a ho))⟩

theorem afterCommas {item : Parser α} {R : α → List (Tree NodeId) → Prop} (h : Made i s t ts)
    (step : ∀ {u us}, Made i s u us →
      Outcome item i u (Lost s) (Adds i s us fun a xs _ => R a xs)) :
    Outcome (Parser.afterCommas item) i t (Lost s) (Adds i s ts fun as xs _ => Each R as xs) := by
  refine h.many fun {u us} hu => ?_
  rw [Outcome.eat_bind]
  constructor
  · intro _
    refine (step hu.advance).bind fun a v ⟨xs, hv, ha⟩ => ?_
    exact ⟨xs, hv, nofun, fun b hb => by rwa [← Option.some.inj hb]⟩
  · intro _
    exact ⟨[], by simpa using hu, fun _ => rfl, nofun⟩

theorem spaced {item : Parser α} {R : α → List (Tree NodeId) → Place → Prop}
    (h : Made i s t ts)
    (step : ∀ {u us}, Made i s u us → Outcome item i u (Lost s) (Adds i s us R)) :
    Outcome (Parser.spaced item) i t (Lost s)
      (Adds i s ts fun a xs p => ∃ q, R a xs q ∧ p = q.past (· == .newline)) := by
  rw [Parser.spaced, Outcome.skipNewlines_bind]
  refine (step (h.past _)).bind fun a u ⟨xs, hu, ha⟩ => ?_
  rw [Outcome.skipNewlines_bind]
  exact ⟨xs, hu.past _, _, ha, rfl⟩

/-- Each item stands before a comma or the closing parenthesis, with line ends between them. -/
theorem untilParen {item : Parser α} {R : α → List (Tree NodeId) → Place → Prop}
    {T : α → List (Tree NodeId) → Prop} (h : Made i s t ts)
    (step : ∀ {u us}, Made i s u us → Outcome item i u (Lost s) (Adds i s us R))
    (close : ∀ {a xs q}, R a xs q → (q.past (· == .newline)).current? = some (.mark .comma) ∨
      (q.past (· == .newline)).current? = some (.mark .rparen) → T a xs) :
    Outcome (Parser.untilParen item) i t (Lost s) (Adds i s ts fun as xs _ => Each T as xs) := by
  rw [Parser.untilParen, Outcome.skipNewlines_bind, Outcome.eat_bind]
  constructor
  · intro _
    exact ⟨[], by simpa using (h.past _).advance, .nil⟩
  · intro _
    refine ((h.past _).spaced step).bind fun a u ⟨ys, hu, q, ha, hq⟩ => ?_
    -- All items but the last one have been found to stand before a comma.
    let I (as : List α) (v : State) : Prop := ∃ bs b xs ys q, a :: as = bs ++ [b] ∧
      Made i s v (ts ++ (xs ++ ys)) ∧ Each T bs xs ∧ R b ys q ∧
      v.place = q.past (· == .newline)
    refine (Outcome.many (I := I) (F := I)
      ⟨[], a, [], ys, q, rfl, by simpa using hu, .nil, ha, hq⟩ ?_ ?_).bind ?_
    · rintro as v ⟨bs, b, xs, ys, q, -, hv, -⟩
      exact hv.toKept
    · rintro as v ⟨bs, b, xs, ys, q, hsplit, hv, hbs, hb, hq⟩
      rw [Outcome.eat_bind]
      constructor
      · intro hcomma
        refine (hv.advance.spaced step).bind fun c w ⟨zs, hw, r, hc, hr⟩ => ?_
        refine ⟨nofun, fun d hd => ?_⟩
        obtain rfl := Option.some.inj hd
        rw [hq] at hcomma
        refine ⟨bs ++ [b], c, xs ++ ys, zs, r, ?_, by simpa using hw, ?_, hc, hr⟩
        · rw [← List.cons_append, hsplit]
        · exact hbs.append (.single (close hb (.inl hcomma)))
      · intro _
        exact ⟨fun _ => ⟨bs, b, xs, ys, q, hsplit, hv, hbs, hb, hq⟩, nofun⟩
    · rintro as v ⟨bs, b, xs, ys, q, hsplit, hv, hbs, hb, hq⟩
      refine hv.expect fun hparen => ?_
      rw [hq] at hparen
      refine ⟨xs ++ ys, hv.advance, ?_⟩
      rw [hsplit]
      exact hbs.append (.single (close hb (.inr hparen)))

theorem speculatively {p : Parser α} {P : α → State → Prop} (h : Made i s t ts)
    (hp : Outcome p i t (Lost s) P) (hstrict : ∀ a u, P a u → u.recovering = false) :
    Outcome (Parser.speculatively p) i t (Lost s) P := by
  have hback {u : State} (hu : u.recovering = false) :
      { u with recovering := t.recovering } = u := by
    rw [h.strict, ← hu]
  have hsame : { t with recovering := false } = t := by rw [← h.strict]
  rw [Outcome] at hp ⊢
  rw [Parser.speculatively, hsame]
  cases hr : p i t with
  | ok a u =>
    rw [hr] at hp
    simpa [hback (hstrict a u hp)] using hp
  | error f u =>
    rw [hr] at hp
    have : u.recovering = false := hp.strict
    simpa [hback this] using hp

theorem attempt {p : Parser α} {P : α → State → Prop} (h : Outcome p i t (Lost s) P) :
    Outcome (Parser.attempt p) i t (Lost s)
      fun o u => (∀ a, o = some a → P a u) ∧ (o = none → Kept s u) := by
  rw [Outcome] at h
  rw [Outcome, Parser.attempt]
  cases hr : p i t with
  | ok a u =>
    rw [hr] at h
    exact ⟨fun b hb => by rwa [← Option.some.inj hb], by simp⟩
  | error f u =>
    rw [hr] at h
    cases f with
    | refused e => exact ⟨by simp, fun _ => h⟩
    | cut => exact h
    | stalled => exact h

/-- The depth counts again what it counted before. -/
theorem guarded {p : Parser NodeId} {R : Tree NodeId → Place → Prop} (h : Made i s t ts)
    (hp : ∀ {r u}, Made i r u ts → u.place = t.place →
      Outcome p i u (Lost r) (Yields i r ts R)) :
    Outcome (Parser.guarded p) i t (Lost s) (Yields i s ts R) := by
  rw [Outcome, Parser.guarded]
  by_cases hd : i.maxDepth ≤ t.depth
  · simp only [hd, if_true]
    exact h.toKept
  · simp only [hd, if_false]
    have hin : Made i { s with depth := s.depth + 1 } { t with depth := t.depth + 1 } ts :=
      { h with depth := congrArg (· + 1) h.depth }
    have := hp hin rfl
    rw [Outcome] at this
    cases hr : p i { t with depth := t.depth + 1 } with
    | ok a u =>
      rw [hr] at this
      obtain ⟨x, hu, hx⟩ := this
      exact ⟨x, { hu with depth := congrArg (· - 1) hu.depth }, hx⟩
    | error f u =>
      rw [hr] at this
      exact { this with depth := congrArg (· - 1) this.depth }

end Made

end ScriptInject.Grammar
