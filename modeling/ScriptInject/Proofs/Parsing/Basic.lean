import ScriptInject.Proofs.Steps
import ScriptInject.Proofs.Stripping
/-! What the rules leave behind, whatever tokens they read and whether or not they recover: whole
trees, each with nodes of its own, and fewer tokens to come. -/
namespace ScriptInject

/-- A broken statement that has been kept. -/
def Node.isError {α : Type} : Node α → Bool
  | .error _ => true
  | _ => false

/-- A script block that takes parameters. -/
def Node.isParametrized {α : Type} : Node α → Bool
  | .scriptBlock _ (some _) _ => true
  | _ => false

/-- A node as the rules make them. Only a reading that recovers leaves errors behind. -/
structure Tree.Proper {ι : Type} (recovering : Bool) (n : Node (Tree ι)) : Prop
    extends MarksPlaced n where
  whole : recovering = false → n.isError = false

theorem Tree.Proper.of {ι : Type} {recovering : Bool} {n : Node (Tree ι)}
    (hs : n.isParametrized = false) (he : n.isError = false)
    (h : ∀ c ∈ unattributed n, c.isMarker = false) : Tree.Proper recovering n := by
  refine ⟨⟨h, ?_⟩, fun _ => he⟩
  rintro usings p blocks rfl
  exact absurd hs (by simp [Node.isParametrized])

namespace Grammar

variable {α β : Type} {i : Input} {d : Nat} {s t u : State} {ts us xs ys : List (Tree NodeId)}
  {x y : Tree NodeId} {p : Place} {m : Mark} {n : Node (Tree NodeId)} {node : Node NodeId}
  {E : Failure → State → Prop} {Q : β → State → Prop}

namespace Place

/-- How many tokens are to come. -/
def left (p : Place) : Nat := p.rest.length

@[simp, grind =] theorem left_advanceBy (k : Nat) : (p.advanceBy k).left = p.left - k := by
  rw [left, rest_advanceBy, List.length_drop, left]

@[simp, grind =] theorem left_advance : p.advance.left = p.left - 1 := left_advanceBy 1

@[grind =] theorem left_past (f : Token → Bool) : (p.past f).left =
    p.left - (p.rest.takeWhile fun l => f l.token).length := left_advanceBy _

@[grind →] theorem left_pos {token : Token} (h : p.current? = some token) : 0 < p.left := by
  obtain ⟨last?, rest⟩ := p
  cases rest with
  | nil => exact absurd h nofun
  | cons l ls => exact Nat.succ_pos _

end Place

/-- What every run at a depth keeps, whether it succeeds or not. -/
structure Stays (d : Nat) (s t : State) : Prop where
  grows : s.arena.Grows t.arena
  tidy : t.arena.Tidy
  root : t.arena.root? = s.arena.root?
  recovering : t.recovering = s.recovering
  depth : t.depth = d

/-- From one state to the other, the reading has added certain trees. -/
structure Grown (d : Nat) (s t : State) (ts : List (Tree NodeId)) : Prop
    extends Stays d s t, s.arena.Gains t.arena ts where
  proper : ∀ x ∈ ts, x.All (Tree.Proper s.recovering)

/-- A run that fails has not gone round in circles. -/
def Fails (d : Nat) (s : State) : Failure → State → Prop := fun f t => f ≠ .stalled ∧ Stays d s t

/-- The result stands for the trees that were added. -/
def Gathers (d : Nat) (s : State) (ts : List (Tree NodeId))
    (R : α → List (Tree NodeId) → Place → Prop) : α → State → Prop :=
  fun a t => ∃ xs, Grown d s t (ts ++ xs) ∧ R a xs t.place

/-- The result is the node of a tree that was added. -/
def Bears (d : Nat) (s : State) (ts : List (Tree NodeId)) (R : Tree NodeId → Place → Prop) :
    NodeId → State → Prop :=
  fun id t => ∃ x, Grown d s t (ts ++ [x]) ∧ x.label = id ∧ R x t.place

/-- A tree that is no marker, for one token at least. -/
def Plain (p : Place) (x : Tree NodeId) (q : Place) : Prop := x.isMarker = false ∧ q.left < p.left

theorem Stays.trans (h : Stays d s t) (k : Stays d t u) : Stays d s u where
  grows := h.grows.trans k.grows
  tidy := k.tidy
  root := k.root.trans h.root
  recovering := k.recovering.trans h.recovering
  depth := k.depth

namespace Grown

theorem start (h : s.arena.Tidy) (hd : s.depth = d) : Grown d s s [] where
  toStays := ⟨.refl _, h, rfl, rfl, hd⟩
  held := nofun
  fresh := nofun
  nodup := List.nodup_nil
  proper := nofun

theorem goto (h : Grown d s t ts) (p : Place) : Grown d s { t with place := p } ts :=
  { h with depth := h.depth }

theorem trans (h : Grown d s t ts) (k : Grown d t u us) : Grown d s u (ts ++ us) where
  toStays := h.toStays.trans k.toStays
  held := (h.toGains.trans k.toGains).held
  fresh := (h.toGains.trans k.toGains).fresh
  nodup := (h.toGains.trans k.toGains).nodup
  proper x hx := by
    rcases List.mem_append.mp hx with hx | hx
    · exact h.proper x hx
    · rw [← h.recovering]
      exact k.proper x hx

/-- What was added is still there when a run has failed. -/
theorem stays (h : Grown d s t ts) (k : Stays d t u) : Grown d s u ts := by
  have hnone : Grown d t u [] :=
    { k with held := nofun, fresh := nofun, nodup := List.nodup_nil, proper := nofun }
  simpa using h.trans hnone

theorem of_gains (h : Grown d s t ts) (k : s.arena.Gains t.arena us)
    (hp : ∀ x ∈ us, x.All (Tree.Proper s.recovering)) : Grown d s t us where
  toStays := h.toStays
  held := k.held
  fresh := k.fresh
  nodup := k.nodup
  proper := hp

theorem subtree (h : Grown d s t (ts ++ [x])) (hy : y ∈ x.subtrees) : Grown d s t (ts ++ [y]) := by
  refine h.of_gains (h.toGains.subtree hy) fun z hz => ?_
  rcases List.mem_append.mp hz with hz | hz
  · exact h.proper z (List.mem_append_left _ hz)
  · obtain rfl := List.mem_singleton.mp hz
    exact fun w hw => h.proper x (by simp) w (Tree.subtrees_trans hw hy)

theorem fails (h : Grown d s t ts) {f : Failure} (hf : f ≠ .stalled) : Fails d s f t :=
  ⟨hf, h.toStays⟩

theorem addAt {span : Span} {R : Tree NodeId → Place → Prop} (h : Grown d s t (ts ++ us))
    (hc : n.children.Perm us) (hn : node = n.map Tree.label)
    (hp : Tree.Proper s.recovering n) (hr : ∀ id, R (.mk id n) t.place) :
    Outcome (Parser.addAt node span) i t (Fails d s) (Bears d s ts R) := by
  rw [Parser.addAt, Outcome.get_bind]
  subst hn
  cases hadd : t.arena.add (n.map Tree.label) (some span) with
  | error e => exact h.fails (by simp)
  | ok r =>
    obtain ⟨id, a⟩ := r
    have hgains := h.toGains.add hc hadd
    obtain ⟨-, ha⟩ := Arena.add_eq hadd
    have hroot : a.root? = s.arena.root? := by
      rw [ha]
      exact h.root
    refine ⟨.mk id n, ?_, rfl, hr id⟩
    refine
      { hgains with
        root := hroot
        recovering := h.recovering
        depth := h.depth
        proper := fun x hx => ?_ }
    rcases List.mem_append.mp hx with hx | hx
    · exact h.proper x (List.mem_append_left _ hx)
    · obtain rfl := List.mem_singleton.mp hx
      exact Tree.all_mk.mpr ⟨hp, fun c hmem =>
        h.proper c (List.mem_append_right _ (hc.subset hmem))⟩

/-- A tree stands on what was added before it. -/
theorem add {start : Nat} {R : Tree NodeId → Place → Prop} (h : Grown d s t (ts ++ us))
    (hc : n.children.Perm us) (hn : node = n.map Tree.label)
    (hp : Tree.Proper s.recovering n) (hr : ∀ id, R (.mk id n) t.place) :
    Outcome (Parser.add node start) i t (Fails d s) (Bears d s ts R) := by
  rw [Parser.add, Outcome.place_bind]
  exact h.addAt hc hn hp hr

/-! The steps that rules are made of. -/

open Grammar.Parser

theorem unexpected {expected : String} {P : α → State → Prop} (h : Grown d s t ts) :
    Outcome (Parser.unexpected expected) i t (Fails d s) P :=
  Outcome.unexpected fun _ => h.fails nofun

theorem expect {f : Unit → Parser β} (h : Grown d s t ts)
    (k : 0 < t.place.left → Outcome (f ()) i { t with place := t.place.advance } (Fails d s) Q) :
    Outcome (Parser.expect m >>= f) i t (Fails d s) Q := by
  rw [Outcome.expect_bind]
  exact ⟨fun hm => k (Place.left_pos hm), fun _ => Outcome.unexpected_bind fun _ => h.fails nofun⟩

theorem slice {start stop : Nat} {P : String → State → Prop} (h : Grown d s t ts)
    (hp : ∀ value, P value t) : Outcome (Parser.slice start stop) i t (Fails d s) P := by
  unfold Parser.slice
  refine Outcome.bind (P := fun j u => j = i ∧ u = t) ⟨rfl, rfl⟩ ?_
  rintro _ _ ⟨rfl, rfl⟩
  split
  · exact hp _
  · exact h.fails (by simp)

end Grown

theorem Each.mono {R R' : α → List (Tree NodeId) → Prop} {as : List α} (h : Each R as xs)
    (hr : ∀ a xs, R a xs → R' a xs) : Each R' as xs := by
  induction h with
  | nil => exact .nil
  | cons ha _ ih => exact .cons (hr _ _ ha) ih

namespace Outcome

/-- A repetition whose items read tokens comes to its end. -/
theorem manyUpTo_of_left {item : Parser (Option α)} {I F : List α → State → Prop} {k : Nat}
    {as : List α} (h : I as t) (hk : t.place.left < k)
    (step : ∀ as u, I as u → Outcome item i u E fun o v =>
      (o = none → F as v) ∧ ∀ a, o = some a → I (as ++ [a]) v ∧ v.place.left < u.place.left) :
    Outcome (Parser.manyUpTo item k) i t E fun bs u => F (as ++ bs) u := by
  induction k generalizing t as with
  | zero => exact absurd hk (Nat.not_lt_zero _)
  | succ k ih =>
    rw [Parser.manyUpTo]
    refine (step as t h).bind fun o u ho => ?_
    cases o with
    | none => simpa using ho.1 rfl
    | some a =>
      obtain ⟨hi, hlt⟩ := ho.2 a rfl
      refine (ih hi (by omega)).bind fun bs v hv => ?_
      simpa using hv

theorem many_of_left {item : Parser (Option α)} {I F : List α → State → Prop} (h : I [] t)
    (step : ∀ as u, I as u → Outcome item i u E fun o v =>
      (o = none → F as v) ∧ ∀ a, o = some a → I (as ++ [a]) v ∧ v.place.left < u.place.left) :
    Outcome (Parser.many item) i t E F := by
  rw [Parser.many, place_bind]
  simpa using manyUpTo_of_left (F := F) h (Nat.lt_succ_self t.place.rest.length) step

theorem iterateUpTo_of_left {step : α → Parser (Option α)} {I F : α → State → Prop} {k : Nat}
    {a : α} (h : I a t) (hk : t.place.left < k)
    (hstep : ∀ a u, I a u → Outcome (step a) i u E fun o v =>
      (o = none → F a v) ∧ ∀ b, o = some b → I b v ∧ v.place.left < u.place.left) :
    Outcome (Parser.iterateUpTo step k a) i t E F := by
  induction k generalizing t a with
  | zero => exact absurd hk (Nat.not_lt_zero _)
  | succ k ih =>
    rw [Parser.iterateUpTo]
    refine (hstep a t h).bind fun o u ho => ?_
    cases o with
    | none => exact ho.1 rfl
    | some b =>
      obtain ⟨hi, hlt⟩ := ho.2 b rfl
      exact ih hi (by omega)

theorem iterate_of_left {step : α → Parser (Option α)} {I F : α → State → Prop} {a : α}
    (h : I a t)
    (hstep : ∀ a u, I a u → Outcome (step a) i u E fun o v =>
      (o = none → F a v) ∧ ∀ b, o = some b → I b v ∧ v.place.left < u.place.left) :
    Outcome (Parser.iterate step a) i t E F := by
  rw [Parser.iterate, place_bind]
  exact iterateUpTo_of_left h (Nat.lt_succ_self _) hstep

end Outcome

namespace Grown

open Grammar.Parser

/-- What the items add that each read a token. -/
theorem many {item : Parser (Option α)} {R : α → List (Tree NodeId) → Prop} (h : Grown d s t ts)
    (step : ∀ {u us}, Grown d s u us → u.place.left ≤ t.place.left → Outcome item i u (Fails d s)
      (Gathers d s us fun o xs q => q.left ≤ u.place.left ∧ (o = none → xs = []) ∧
        ∀ a, o = some a → q.left < u.place.left ∧ R a xs)) :
    Outcome (Parser.many item) i t (Fails d s)
      (Gathers d s ts fun as xs q => q.left ≤ t.place.left ∧ Each R as xs) := by
  let I (as : List α) (u : State) : Prop := ∃ xs, Grown d s u (ts ++ xs) ∧
    u.place.left ≤ t.place.left ∧ Each R as xs
  refine Outcome.many_of_left (I := I) ⟨[], by simpa using h, Nat.le_refl _, .nil⟩ ?_
  rintro as u ⟨xs, hu, hle, has⟩
  refine (step hu hle).imp fun o v ⟨ys, hv, hleft, hnone, hsome⟩ => ⟨fun ho => ?_, fun a ho => ?_⟩
  · rw [hnone ho, List.append_nil] at hv
    exact ⟨xs, hv, by omega, has⟩
  · obtain ⟨hlt, ha⟩ := hsome a ho
    rw [List.append_assoc] at hv
    exact ⟨⟨xs ++ ys, hv, by omega, has.append (.single ha)⟩, hlt⟩

theorem afterCommas {item : Parser α} {R : α → List (Tree NodeId) → Prop} (h : Grown d s t ts)
    (step : ∀ {u us}, Grown d s u us → u.place.left ≤ t.place.left → Outcome item i u (Fails d s)
      (Gathers d s us fun a xs q => q.left ≤ u.place.left ∧ R a xs)) :
    Outcome (Parser.afterCommas item) i t (Fails d s)
      (Gathers d s ts fun as xs q => q.left ≤ t.place.left ∧ Each R as xs) := by
  refine h.many fun {u us} hu hut => ?_
  rw [Outcome.eat_bind]
  constructor
  · intro hcomma
    refine (step (hu.goto _) (by grind)).bind fun a v ⟨xs, hv, hle, ha⟩ => ?_
    refine ⟨xs, hv, by grind, nofun, fun b hb => ⟨by grind, ?_⟩⟩
    rwa [← Option.some.inj hb]
  · intro _
    exact ⟨[], by simpa using hu, Nat.le_refl _, fun _ => rfl, nofun⟩

theorem spaced {item : Parser α} {R : α → List (Tree NodeId) → Prop} (h : Grown d s t ts)
    (step : ∀ {u us}, Grown d s u us → u.place.left ≤ t.place.left → Outcome item i u (Fails d s)
      (Gathers d s us fun a xs q => q.left ≤ u.place.left ∧ R a xs)) :
    Outcome (Parser.spaced item) i t (Fails d s)
      (Gathers d s ts fun a xs q => q.left ≤ t.place.left ∧ R a xs) := by
  rw [Parser.spaced, Outcome.skipNewlines_bind]
  refine (step (h.goto _) (by grind)).bind ?_
  rintro a u ⟨xs, hu, hle, ha⟩
  rw [Outcome.skipNewlines_bind]
  exact ⟨xs, hu.goto _, by grind, ha⟩

theorem untilParen {item : Parser α} {R : α → List (Tree NodeId) → Prop} (h : Grown d s t ts)
    (step : ∀ {u us}, Grown d s u us → u.place.left ≤ t.place.left → Outcome item i u (Fails d s)
      (Gathers d s us fun a xs q => q.left ≤ u.place.left ∧ R a xs)) :
    Outcome (Parser.untilParen item) i t (Fails d s)
      (Gathers d s ts fun as xs q => q.left ≤ t.place.left ∧ Each R as xs) := by
  rw [Parser.untilParen, Outcome.skipNewlines_bind, Outcome.eat_bind]
  constructor
  · intro _
    exact ⟨[], by simpa using h.goto _, by grind, .nil⟩
  · intro _
    refine ((h.goto _).spaced fun hu hle => step hu (by grind)).bind ?_
    rintro a u ⟨xs, hu, hle, ha⟩
    refine (hu.afterCommas fun hv hle' => hv.spaced fun hw hle'' => step hw (by grind)).bind ?_
    rintro as v ⟨ys, hv, hle', has⟩
    refine hv.expect fun _ => ?_
    rw [List.append_assoc] at hv
    exact ⟨xs ++ ys, hv.goto _, by grind, .cons ha has⟩

theorem attempt {q : Parser α} {P : α → State → Prop} (h : Outcome q i t (Fails d s) P) :
    Outcome (Parser.attempt q) i t (Fails d s)
      fun o u => (∀ a, o = some a → P a u) ∧ (o = none → Stays d s u) := by
  rw [Outcome] at h
  rw [Outcome, Parser.attempt]
  cases hr : q i t with
  | ok a u =>
    rw [hr] at h
    exact ⟨fun b hb => by rwa [← Option.some.inj hb], by simp⟩
  | error f u =>
    rw [hr] at h
    cases f with
    | refused e => exact ⟨by simp, fun _ => h.2⟩
    | cut => exact h
    | stalled => exact h

/-- A rule that runs without recovery makes nothing that a recovering one would not make. -/
theorem speculatively {q : Parser α} {P : α → State → Prop}
    (h : Outcome q i { t with recovering := false } (Fails d { t with recovering := false }) P) :
    Outcome (Parser.speculatively q) i t (Fails d t) fun a u =>
      ∃ v, P a v ∧ u = { v with recovering := t.recovering } := by
  rw [Outcome] at h
  rw [Outcome, Parser.speculatively]
  cases hr : q i { t with recovering := false } with
  | ok a u =>
    rw [hr] at h
    exact ⟨u, h, rfl⟩
  | error f u =>
    rw [hr] at h
    obtain ⟨hf, hu⟩ := h
    exact ⟨hf, { hu with recovering := rfl }⟩

/-- Without recovery or not, the trees are the same. -/
theorem resume (h : Grown d { t with recovering := false } u us) :
    Grown d t { u with recovering := t.recovering } us :=
  { h with
    recovering := rfl
    proper := fun x hx y hy =>
      have hp := h.proper x hx y hy
      { hp with whole := fun _ => hp.whole rfl } }

/-- The depth counts again what it counted before. -/
theorem guarded {q : Parser NodeId} {R : Tree NodeId → Place → Prop} (h : Grown d s t ts)
    (hq : ∀ {u}, d < i.maxDepth → Grown (d + 1) s u ts → u.place = t.place →
      Outcome q i u (Fails (d + 1) s) (Bears (d + 1) s ts R)) :
    Outcome (Parser.guarded q) i t (Fails d s) (Bears d s ts R) := by
  rw [Outcome, Parser.guarded]
  by_cases hd : i.maxDepth ≤ t.depth
  · simp only [hd, if_true]
    exact h.fails (by simp)
  · simp only [hd, if_false]
    have hdepth := h.depth
    have hin : Grown (d + 1) s { t with depth := t.depth + 1 } ts :=
      { h with depth := congrArg (· + 1) h.depth }
    have hrun := hq (by omega) hin rfl
    rw [Outcome] at hrun
    cases hr : q i { t with depth := t.depth + 1 } with
    | ok a u =>
      rw [hr] at hrun
      obtain ⟨x, hu, hx⟩ := hrun
      exact ⟨x, { hu with depth := congrArg (· - 1) hu.depth }, hx⟩
    | error f u =>
      rw [hr] at hrun
      exact ⟨hrun.1, { hrun.2 with depth := congrArg (· - 1) hrun.2.depth }⟩

end Grown

/-- The rules that contain themselves make trees as they should from the depth on. -/
structure Steady (i : Input) (d : Nat) (g : Nested) : Prop where
  statement : ∀ {s t ts}, Grown d s t ts →
    Outcome g.statement i t (Fails d s) (Bears d s ts (Plain t.place))
  expression : ∀ {s t ts} (commas : Bool), Grown d s t ts →
    Outcome (g.expression commas) i t (Fails d s) (Bears d s ts (Plain t.place))
  unary : ∀ {s t ts}, Grown d s t ts →
    Outcome g.unary i t (Fails d s) (Bears d s ts (Plain t.place))

end Grammar

end ScriptInject
