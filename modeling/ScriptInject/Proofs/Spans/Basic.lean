import Mathlib.Data.List.Perm.Basic
import ScriptInject.Proofs.Recovering
/-! Where the nodes of a text stand in it: one after the other, and each of them around its
children. A reading only ever adds a node around the row of nodes that it has just read. -/
namespace ScriptInject

namespace Lexeme

/-- Tokens that stand in a text one after the other. -/
structure Lined (cs : List Char) (ls : List Lexeme) : Prop where
  apart : ls.Pairwise fun l m => l.span.stop ≤ m.span.start
  upright : ∀ l ∈ ls, l.span.start ≤ l.span.stop ∧ l.span.stop ≤ Text.size cs

open Token in
theorem lined_cutsFrom (steps start : Nat) (cs : List Char) :
    ((cutsFrom steps start cs).Pairwise fun c d => c.span.stop ≤ d.span.start) ∧
    ∀ c ∈ cutsFrom steps start cs, start ≤ c.span.start ∧ c.span.start ≤ c.span.stop ∧
      c.span.stop ≤ start + Text.size cs := by
  induction steps generalizing start cs with
  | zero => exact ⟨.nil, by simp [cutsFrom]⟩
  | succ steps ih =>
    cases cs with
    | nil => exact ⟨.nil, by simp [cutsFrom]⟩
    | cons c rest =>
      rw [cutsFrom]
      generalize piece c rest = found
      obtain ⟨p, n⟩ := found
      dsimp only
      have hsize : Text.size ((c :: rest).take n) + Text.size ((c :: rest).drop n) =
          Text.size (c :: rest) := by
        rw [← Text.size_append, List.take_append_drop]
      obtain ⟨hapart, hupright⟩ := ih (start + Text.size ((c :: rest).take n))
        ((c :: rest).drop n)
      refine ⟨List.pairwise_cons.mpr ⟨fun d hd => (hupright d hd).1, hapart⟩, fun d hd => ?_⟩
      rcases List.mem_cons.mp hd with rfl | hd
      · refine ⟨Nat.le_refl _, Nat.le_add_right _ _, ?_⟩
        change start + Text.size ((c :: rest).take n) ≤ _
        omega
      · obtain ⟨hstart, hle, hstop⟩ := hupright d hd
        exact ⟨by omega, hle, by omega⟩

theorem span_of_reading? {cut : Token.Cut} {r : Except ParseError Lexeme} {l : Lexeme}
    (hr : cut.reading? = some r) (hl : r.toOption = some l) : l.span = cut.span := by
  unfold Token.Cut.reading? at hr
  split at hr <;> grind [Except.toOption]

/-- Tokens do not overlap, even those of a broken text. -/
theorem lined_ofBrokenText (cs : List Char) : Lined cs (ofBrokenText cs).1 := by
  obtain ⟨hapart, hupright⟩ := lined_cutsFrom cs.length 0 cs
  constructor
  · rw [ofBrokenText, readings, List.filterMap_filterMap, List.pairwise_filterMap]
    refine hapart.imp fun h l hl m hm => ?_
    obtain ⟨r, hr, hl⟩ := Option.bind_eq_some_iff.mp hl
    obtain ⟨q, hq, hm⟩ := Option.bind_eq_some_iff.mp hm
    rwa [span_of_reading? hr hl, span_of_reading? hq hm]
  · intro l hl
    obtain ⟨r, hr, hl⟩ := List.mem_filterMap.mp hl
    obtain ⟨c, hc, hr⟩ := List.mem_filterMap.mp hr
    rw [span_of_reading? hr hl]
    have hc := hupright c hc
    exact ⟨hc.2.1, by omega⟩

end Lexeme

namespace Grammar.Place

variable {cs : List Char} {ls : List Lexeme} {p : Place} {t : Token}

/-- The place is one between the given tokens. -/
structure Along (cs : List Char) (ls : List Lexeme) (p : Place) : Prop where
  lined : Lexeme.Lined cs ls
  split : ∃ done, ls = done ++ p.rest ∧ p.last? = done.getLast?

namespace Along

/-- What has been read ends before what comes next. -/
theorem stop_le_start (h : p.Along cs ls) : p.stop ≤ p.start cs := by
  obtain ⟨done, rfl, hlast⟩ := h.split
  rw [stop, hlast]
  cases hl : done.getLast? with
  | none => exact Nat.zero_le _
  | some l =>
    have hmem := List.mem_of_getLast? hl
    rw [start]
    cases hr : p.rest with
    | nil => exact (h.lined.upright l (List.mem_append_left _ hmem)).2
    | cons m ms =>
      exact (List.pairwise_append.mp h.lined.apart).2.2 l hmem m (by simp [hr])

theorem start_le_size (h : p.Along cs ls) : p.start cs ≤ Text.size cs := by
  obtain ⟨done, rfl, -⟩ := h.split
  rw [start]
  cases hr : p.rest with
  | nil => exact Nat.le_refl _
  | cons l rest =>
    have hl := h.lined.upright l (by simp [hr])
    exact Nat.le_trans hl.1 hl.2

theorem advance (h : p.Along cs ls) : p.advance.Along cs ls := by
  obtain ⟨done, hls, hlast⟩ := h.split
  rw [Place.advance]
  cases hr : p.rest with
  | nil => exact ⟨h.lined, done, hls, hlast⟩
  | cons l rest => exact ⟨h.lined, done ++ [l], by simp [hls, hr], by simp⟩

/-- Where there is a token, reading it leaves it behind. -/
theorem start_le_stop_advance (h : p.Along cs ls) (ht : p.current? = some t) :
    p.start cs ≤ p.advance.stop := by
  obtain ⟨done, rfl, -⟩ := h.split
  cases hr : p.rest with
  | nil => simp [current?, hr] at ht
  | cons l rest =>
    rw [start, Place.advance, hr]
    exact (h.lined.upright l (by simp [hr])).1

/-- Both ends of what is to be read have moved on, if at all. -/
def Onto (cs : List Char) (p q : Place) : Prop := p.start cs ≤ q.start cs ∧ p.stop ≤ q.stop

theorem onto_advance (h : p.Along cs ls) : Onto cs p p.advance := by
  cases hcur : p.current? with
  | none =>
    have hr : p.rest = [] := by simpa [current?] using hcur
    rw [Place.advance, hr]
    exact ⟨Nat.le_refl _, Nat.le_refl _⟩
  | some t =>
    have hread := h.start_le_stop_advance hcur
    exact ⟨Nat.le_trans hread h.advance.stop_le_start, Nat.le_trans h.stop_le_start hread⟩

theorem Onto.trans {q r : Place} (h : Onto cs p q) (k : Onto cs q r) : Onto cs p r :=
  ⟨Nat.le_trans h.1 k.1, Nat.le_trans h.2 k.2⟩

theorem advanceBy (h : p.Along cs ls) (n : Nat) :
    (p.advanceBy n).Along cs ls ∧ Onto cs p (p.advanceBy n) := by
  induction n generalizing p with
  | zero => exact ⟨h, Nat.le_refl _, Nat.le_refl _⟩
  | succ n ih => exact ⟨(ih h.advance).1, h.onto_advance.trans (ih h.advance).2⟩

theorem start_le_stop_advanceBy {n : Nat} (h : p.Along cs ls) (ht : p.current? = some t)
    (hn : 0 < n) : p.start cs ≤ (p.advanceBy n).stop := by
  cases n with
  | zero => exact absurd hn (Nat.lt_irrefl 0)
  | succ n => exact Nat.le_trans (h.start_le_stop_advance ht) (h.advance.advanceBy n).2.2

end Along

end Grammar.Place

namespace Node

variable {α : Type}

/-- The children that stand in a row. Traps are listed after the other statements, and arguments
with names after those without. -/
def runs : Node α → List (List α)
  | .namedBlock _ _ statements traps => [statements, traps]
  | .attributeSpec _ positional named => [positional, named]
  | n => [n.children]

/-- The row consists of the children, and keeps the order in which they are listed. -/
structure Fills (n : Node α) (row : List α) : Prop where
  perm : n.children.Perm row
  runs : ∀ run ∈ n.runs, run.Sublist row

theorem Fills.inOrder {n : Node α} {row : List α} (h : n.children = row)
    (hruns : n.runs = [n.children]) : n.Fills row := by
  subst h
  exact ⟨.refl _, by simp [hruns]⟩

end Node

namespace Span

/-- The ends of a range are the ends of tokens, and it is empty if the second one is not. -/
structure Bounds (cs : List Char) (ls : List Lexeme) (span : Span) : Prop where
  start_le : span.start ≤ span.stop
  stop_le : span.stop ≤ Text.size cs
  start : span.start = Text.size cs ∨ ∃ l ∈ ls, l.span.start = span.start
  stop : span.stop = span.start ∨ ∃ l ∈ ls, l.span.stop = span.stop

end Span

namespace Arena

variable {a b : Arena} {cs : List Char} {ls : List Lexeme} {lo lo' hi hi' mid mid' : Nat}
  {id : NodeId} {xs ys : List NodeId} {n : Node NodeId} {span : Span}

/-- What the first node covers ends before what the second one covers. -/
def Before (a : Arena) (x y : NodeId) : Prop :=
  ∀ span span', a.span? x = some span → a.span? y = some span' → span.stop ≤ span'.start

/-- Nodes that stand between two bytes, one after the other. -/
structure Row (a : Arena) (lo hi : Nat) (ids : List NodeId) : Prop where
  within : ∀ id ∈ ids, ∃ span, a.span? id = some span ∧
    lo ≤ span.start ∧ span.start ≤ span.stop ∧ span.stop ≤ hi
  ordered : ids.Pairwise a.Before

namespace Row

theorem nil : a.Row lo hi [] := ⟨by simp, .nil⟩

theorem single (h : a.span? id = some span) (hlo : lo ≤ span.start) (hle : span.start ≤ span.stop)
    (hhi : span.stop ≤ hi) : a.Row lo hi [id] :=
  ⟨by simpa using ⟨span, h, hlo, hle, hhi⟩, List.pairwise_singleton _ _⟩

theorem append (h : a.Row lo mid xs) (k : a.Row mid' hi ys) (hmid : mid ≤ mid')
    (hlo : lo ≤ mid') (hhi : mid ≤ hi) : a.Row lo hi (xs ++ ys) := by
  constructor
  · intro id hid
    rcases List.mem_append.mp hid with hid | hid
    · obtain ⟨span, hspan, hstart, hle, hstop⟩ := h.within id hid
      exact ⟨span, hspan, hstart, hle, Nat.le_trans hstop hhi⟩
    · obtain ⟨span, hspan, hstart, hle, hstop⟩ := k.within id hid
      exact ⟨span, hspan, Nat.le_trans hlo hstart, hle, hstop⟩
  · refine List.pairwise_append.mpr ⟨h.ordered, k.ordered, fun x hx y hy => ?_⟩
    intro span span' hspan hspan'
    obtain ⟨_, hx, -, -, hstop⟩ := h.within x hx
    obtain ⟨_, hy, hstart, -, -⟩ := k.within y hy
    obtain rfl := Option.some.inj (hspan.symm.trans hx)
    obtain rfl := Option.some.inj (hspan'.symm.trans hy)
    exact Nat.le_trans hstop (Nat.le_trans hmid hstart)

theorem widen (h : a.Row lo hi xs) (hlo : lo' ≤ lo) (hhi : hi ≤ hi') : a.Row lo' hi' xs := by
  refine ⟨fun id hid => ?_, h.ordered⟩
  obtain ⟨span, hspan, hstart, hle, hstop⟩ := h.within id hid
  exact ⟨span, hspan, Nat.le_trans hlo hstart, hle, Nat.le_trans hstop hhi⟩

/-- Whatever has a node covers some text. -/
theorem lo_le_hi (h : a.Row lo hi xs) (hne : xs ≠ []) : lo ≤ hi := by
  obtain ⟨id, hid⟩ := List.exists_mem_of_ne_nil xs hne
  obtain ⟨span, -, hstart, hle, hstop⟩ := h.within id hid
  exact Nat.le_trans hstart (Nat.le_trans hle hstop)

theorem get? (h : a.Row lo hi xs) (ha : a.Tidy) (hid : id ∈ xs) : (a.get? id).isSome := by
  obtain ⟨span, hspan, -⟩ := h.within id hid
  cases hget : a.get? id with
  | some n => rfl
  | none => exact absurd ((ha.spanned hget).symm.trans hspan) (by simp)

theorem grows (h : a.Row lo hi xs) (ha : a.Tidy) (hg : a.Grows b) : b.Row lo hi xs := by
  have hspan : ∀ id ∈ xs, b.span? id = a.span? id := fun id hid => by
    obtain ⟨n, hn⟩ := Option.isSome_iff_exists.mp (h.get? ha hid)
    exact hg.span? hn
  constructor
  · intro id hid
    rw [hspan id hid]
    exact h.within id hid
  · refine h.ordered.imp_of_mem fun hx hy hxy => ?_
    rw [Before, hspan _ hx, hspan _ hy]
    exact hxy

end Row

/-- The arena of a text in which every node stands around its children, which stand in a row. -/
structure Tiled (cs : List Char) (ls : List Lexeme) (a : Arena) : Prop where
  tidy : a.Tidy
  bounds : ∀ id span, a.span? id = some span → span.Bounds cs ls
  row : ∀ id n, a.get? id = some n → ∃ span row, a.span? id = some span ∧
    n.Fills row ∧ a.Row span.start span.stop row

namespace Tiled

theorem empty : Tiled cs ls {} where
  tidy := tidy_empty
  bounds id span h := by simp [Arena.span?] at h
  row id n h := by simp [Arena.get?] at h

theorem add (h : a.Tiled cs ls) (hn : n.Fills xs) (hrow : a.Row span.start span.stop xs)
    (hspan : span.Bounds cs ls) (hadd : a.add n (some span) = .ok (id, b)) : b.Tiled cs ls := by
  have hgrows := add_grows hadd h.tidy
  refine ⟨add_tidy hadd h.tidy fun c hc => hrow.get? h.tidy (hn.perm.subset hc), ?_, ?_⟩
  · intro i s hs
    by_cases hi : i = id
    · subst hi
      rw [add_span?_some hadd] at hs
      exact Option.some.inj hs ▸ hspan
    · rw [add_span?_of_ne hadd hi] at hs
      exact h.bounds i s hs
  · intro i m hm
    by_cases hi : i = id
    · subst hi
      rw [add_get? hadd] at hm
      exact ⟨span, xs, add_span?_some hadd, Option.some.inj hm ▸ hn, hrow.grows h.tidy hgrows⟩
    · rw [add_get?_of_ne hadd hi] at hm
      obtain ⟨s, row, hs, hfills, hrow⟩ := h.row i m hm
      exact ⟨s, row, by rwa [add_span?_of_ne hadd hi], hfills, hrow.grows h.tidy hgrows⟩

/-- An only child stands where its parent does. -/
theorem child (h : a.Tiled cs ls) {c : NodeId} (hrow : a.Row lo hi [id]) (hn : a.get? id = some n)
    (hc : n.children = [c]) : a.Row lo hi [c] := by
  obtain ⟨span, hspan, hlo, -, hhi⟩ := hrow.within id (by simp)
  obtain ⟨span', row, hspan', hfills, hbelow⟩ := h.row id n hn
  obtain rfl := Option.some.inj (hspan.symm.trans hspan')
  have hperm := hfills.perm
  rw [hc] at hperm
  rw [← List.perm_singleton.mp hperm.symm]
  exact hbelow.widen hlo hhi

end Tiled

end Arena

end ScriptInject
