import ScriptInject.Proofs.Gains
import ScriptInject.Proofs.Outcome
import ScriptInject.Proofs.Places
/-! What a reading leaves in the arena: one tree after the other, each with nodes of its own. -/
namespace ScriptInject

namespace Grammar

variable {α β : Type} {i : Input} {s t u : State} {ts us vs xs ys : List (Tree NodeId)}
  {x y : Tree NodeId} {p : Place}

/-- A reading without recovery stands in a text that has been cut into tokens. -/
structure Valid (i : Input) (s : State) : Prop where
  scanned : s.place.Scanned i.text
  tidy : s.arena.Tidy
  spanned : s.arena.Spanned
  strict : s.recovering = false

/-- What every run keeps, whether it succeeds or not. -/
structure Kept (s t : State) : Prop where
  grows : s.arena.Grows t.arena
  tidy : t.arena.Tidy
  spanned : t.arena.Spanned
  strict : t.recovering = false
  depth : t.depth = s.depth

theorem Kept.trans (h : Kept s t) (k : Kept t u) : Kept s u where
  grows := h.grows.trans k.grows
  tidy := k.tidy
  spanned := k.spanned
  strict := k.strict
  depth := k.depth.trans h.depth

/-- From one state to the other, the reading has added certain trees. -/
structure Made (i : Input) (s t : State) (ts : List (Tree NodeId)) : Prop
    extends Kept s t, s.arena.Gains t.arena ts where
  scanned : t.place.Scanned i.text

/-- A run that fails keeps what there was. -/
def Lost (s : State) : Failure → State → Prop := fun _ t => Kept s t

/-- The result stands for the trees that were added. -/
def Adds (i : Input) (s : State) (ts : List (Tree NodeId))
    (R : α → List (Tree NodeId) → Place → Prop) : α → State → Prop :=
  fun a t => ∃ xs, Made i s t (ts ++ xs) ∧ R a xs t.place

/-- The result is the node of a tree that was added. -/
def Yields (i : Input) (s : State) (ts : List (Tree NodeId)) (R : Tree NodeId → Place → Prop) :
    NodeId → State → Prop :=
  fun id t => ∃ x, Made i s t (ts ++ [x]) ∧ x.label = id ∧ R x t.place

theorem Yields.imp {R R' : Tree NodeId → Place → Prop} {id : NodeId}
    (h : Yields i s ts R id t) (hr : ∀ x, R x t.place → R' x t.place) : Yields i s ts R' id t := by
  obtain ⟨x, hx, hid, hxr⟩ := h
  exact ⟨x, hx, hid, hr x hxr⟩

namespace Made

theorem start (h : Valid i s) : Made i s s [] where
  grows := .refl _
  tidy := h.tidy
  spanned := h.spanned
  strict := h.strict
  depth := rfl
  scanned := h.scanned
  held := nofun
  fresh := nofun
  nodup := List.nodup_nil

theorem valid (h : Made i s t ts) : Valid i t := ⟨h.scanned, h.tidy, h.spanned, h.strict⟩

theorem goto (h : Made i s t ts) (hp : p.Scanned i.text) : Made i s { t with place := p } ts :=
  { h with scanned := hp }

theorem advance (h : Made i s t ts) : Made i s { t with place := t.place.advance } ts :=
  h.goto h.scanned.advance

theorem advanceBy (h : Made i s t ts) (n : Nat) :
    Made i s { t with place := t.place.advanceBy n } ts := h.goto (h.scanned.advanceBy n)

theorem trans (h : Made i s t ts) (k : Made i t u us) : Made i s u (ts ++ us) where
  toKept := h.toKept.trans k.toKept
  held := (h.toGains.trans k.toGains).held
  fresh := (h.toGains.trans k.toGains).fresh
  nodup := (h.toGains.trans k.toGains).nodup
  scanned := k.scanned

/-- What was made is still there when a run has failed. -/
theorem kept (h : Made i s t ts) (k : Kept t u) (hp : u.place.Scanned i.text) :
    Made i s u ts := by
  have hnone : Made i t u [] :=
    { k with scanned := hp, held := nofun, fresh := nofun, nodup := List.nodup_nil }
  simpa using h.trans hnone

theorem of_gains (h : Made i s t ts) (k : s.arena.Gains t.arena us) : Made i s t us where
  toKept := h.toKept
  held := k.held
  fresh := k.fresh
  nodup := k.nodup
  scanned := h.scanned

theorem subtree (h : Made i s t (ts ++ [x])) (hy : y ∈ x.subtrees) : Made i s t (ts ++ [y]) :=
  h.of_gains (h.toGains.subtree hy)

theorem addAt (h : Made i s t (ts ++ us)) {n : Node (Tree NodeId)} {node : Node NodeId}
    {span : Span} {R : Tree NodeId → Place → Prop} (hc : n.children.Perm us)
    (hn : node = n.map Tree.label)
    (hr : ∀ id, R (.mk id n) t.place) :
    Outcome (Parser.addAt node span) i t (Lost s) (Yields i s ts R) := by
  rw [Parser.addAt, Outcome.get_bind]
  subst hn
  cases hadd : t.arena.add (n.map Tree.label) (some span) with
  | error e => exact h.toKept
  | ok r =>
    obtain ⟨id, a⟩ := r
    have hgains := h.toGains.add hc hadd
    refine ⟨.mk id n, ?_, rfl, hr id⟩
    exact
      { hgains with
        spanned := Arena.add_spanned hadd h.spanned
        strict := h.strict
        depth := h.depth
        scanned := h.scanned }

/-- A tree stands on what was added before it. -/
theorem add (h : Made i s t (ts ++ us)) {n : Node (Tree NodeId)} {node : Node NodeId}
    {start : Nat} {R : Tree NodeId → Place → Prop} (hc : n.children.Perm us)
    (hn : node = n.map Tree.label)
    (hr : ∀ id, R (.mk id n) t.place) :
    Outcome (Parser.add node start) i t (Lost s) (Yields i s ts R) := by
  rw [Parser.add, Outcome.place_bind]
  exact h.addAt hc hn hr

/-- A tree without children. -/
theorem addLeaf (h : Made i s t ts) {n : Node (Tree NodeId)} {node : Node NodeId} {start : Nat}
    {R : Tree NodeId → Place → Prop} (hc : n.children = []) (hn : node = n.map Tree.label)
    (hr : ∀ id, R (.mk id n) t.place) :
    Outcome (Parser.add node start) i t (Lost s) (Yields i s ts R) := by
  have h' : Made i s t (ts ++ []) := by simpa using h
  exact h'.add (by rw [hc]) hn hr

end Made

end Grammar

end ScriptInject
