import Mathlib.Data.List.TakeWhile
import ScriptInject.Proofs.Spans.Basic
/-! What the nodes of a text cover of its tokens. Terminators stand between statements and are covered
by none of them; all other tokens between two places of a reading have to be. -/
namespace ScriptInject

theorem Text.size_pos {cs : List Char} (h : cs ≠ []) : 0 < size cs := by
  cases cs with
  | nil => exact absurd rfl h
  | cons c cs =>
    have hc := c.utf8Size_pos
    rw [size_cons]
    omega

namespace Lexeme

open Token in
theorem solid_cutsFrom {steps start : Nat} {cs : List Char} {c : Cut}
    (h : c ∈ cutsFrom steps start cs) (hread : c.piece.IsRead) : c.span.start < c.span.stop := by
  induction steps generalizing start cs with
  | zero => exact absurd h List.not_mem_nil
  | succ steps ih =>
    cases cs with
    | nil => exact absurd h List.not_mem_nil
    | cons d rest =>
      rw [cutsFrom] at h
      generalize hp : piece d rest = found at h
      obtain ⟨p, n⟩ := found
      rcases List.mem_cons.mp h with rfl | h
      · have hn := (piece_le hp hread).1
        have hsome : (d :: rest).take n ≠ [] := by
          rw [Ne, List.take_eq_nil_iff, not_or]
          exact ⟨Nat.ne_of_gt hn, List.cons_ne_nil d rest⟩
        exact Nat.lt_add_of_pos_right (Text.size_pos hsome)
      · exact ih h

/-- Tokens are not empty, not even those of a broken text. -/
theorem solid_ofBrokenText (cs : List Char) :
    ∀ l ∈ (ofBrokenText cs).1, l.span.start < l.span.stop := by
  intro l hl
  obtain ⟨r, hr, hl⟩ := List.mem_filterMap.mp hl
  obtain ⟨c, hc, hr⟩ := List.mem_filterMap.mp hr
  rw [span_of_reading? hr hl]
  refine solid_cutsFrom hc ?_
  unfold Token.Cut.reading? at hr
  split at hr
  · rename_i t ht
    rw [ht]
    trivial
  · cases hr
  · obtain rfl := Option.some.inj hr
    cases hl
  · obtain rfl := Option.some.inj hr
    cases hl

end Lexeme

namespace Grammar.Place.Along

variable {cs : List Char} {ls : List Lexeme} {p : Place} {l : Lexeme}

/-- A token that has been read ends before the place. -/
theorem stop_le_of_read {done : List Lexeme} (h : p.Along cs ls) (hls : ls = done ++ p.rest)
    (hlast : p.last? = done.getLast?) (hl : l ∈ done) : l.span.stop ≤ p.stop := by
  have hapart := h.lined.apart
  have hupright := h.lined.upright
  subst hls
  obtain ⟨before, last, rfl⟩ := done.eq_nil_or_concat'.resolve_left (List.ne_nil_of_mem hl)
  rw [stop, hlast, List.getLast?_concat]
  rcases List.mem_append.mp hl with hl | hl
  · have hdone := (List.pairwise_append.mp hapart).1
    have hle := (List.pairwise_append.mp hdone).2.2 l hl last (by simp)
    exact Nat.le_trans hle (hupright last (by simp)).1
  · rw [List.mem_singleton.mp hl]

/-- A token that is still to come starts behind the place. -/
theorem start_le_of_ahead (h : p.Along cs ls) (hl : l ∈ p.rest) : p.start cs ≤ l.span.start := by
  obtain ⟨done, rfl, -⟩ := h.split
  have hrest := (List.pairwise_append.mp h.lined.apart).2.1
  have hupright := h.lined.upright
  rw [start]
  cases hr : p.rest with
  | nil => exact absurd (hr ▸ hl) List.not_mem_nil
  | cons m rest =>
    rw [hr] at hl hrest
    rcases List.mem_cons.mp hl with rfl | hl
    · exact Nat.le_refl _
    · exact Nat.le_trans (hupright m (by simp [hr])).1 ((List.pairwise_cons.mp hrest).1 l hl)

theorem behind_or_ahead (h : p.Along cs ls) (hl : l ∈ ls) :
    l.span.stop ≤ p.stop ∨ p.start cs ≤ l.span.start := by
  obtain ⟨done, hls, hlast⟩ := h.split
  rw [hls] at hl
  exact (List.mem_append.mp hl).imp (h.stop_le_of_read hls hlast) h.start_le_of_ahead

/-- Only tokens of the class are passed by. -/
theorem of_past {f : Token → Bool} (h : p.Along cs ls)
    (hsolid : ∀ l ∈ ls, l.span.start < l.span.stop) (hl : l ∈ ls)
    (hstart : p.start cs ≤ l.span.start) (hstop : l.span.stop ≤ (p.past f).stop) :
    f l.token = true := by
  obtain ⟨done, hls, hlast⟩ := h.split
  have hpast : (p.past f).Along cs ls := (h.advanceBy _).1
  have hnonempty := hsolid l hl
  set skipped := p.rest.takeWhile fun m => f m.token with hskipped
  have hrest : p.rest = skipped ++ (p.past f).rest := by
    rw [Place.past, rest_advanceBy]
    have htake := List.prefix_iff_eq_take.mp (List.takeWhile_prefix (l := p.rest) fun m => f m.token)
    conv_lhs => rw [← List.take_append_drop skipped.length p.rest]
    rw [← htake]
  rw [hls, hrest] at hl
  rcases List.mem_append.mp hl with hl | hl
  · have hle := h.stop_le_of_read hls hlast hl
    have := h.stop_le_start
    omega
  · rcases List.mem_append.mp hl with hl | hl
    · exact List.mem_takeWhile_imp (p := fun m : Lexeme => f m.token) hl
    · have hle := hpast.start_le_of_ahead hl
      have := hpast.stop_le_start
      omega

end Grammar.Place.Along

namespace Arena

open Grammar (isTerminator)

variable {a b : Arena} {cs : List Char} {ls : List Lexeme} {lo hi : Nat} {id : Nat}
  {xs ys : List NodeId} {n : Node NodeId} {span : Span}

/-- The range lies within what the node covers. -/
def Covers (a : Arena) (id : NodeId) (span : Span) : Prop :=
  ∃ around, a.span? id = some around ∧ around.start ≤ span.start ∧ span.stop ≤ around.stop

/-- The nodes cover the tokens between two bytes. -/
def Covered (ls : List Lexeme) (a : Arena) (lo hi : Nat) (ids : List NodeId) : Prop :=
  ∀ l ∈ ls, isTerminator l.token = false → lo ≤ l.span.start → l.span.stop ≤ hi →
    ∃ id ∈ ids, a.Covers id l.span

theorem Covered.single (h : a.span? id = some ⟨lo, max hi lo⟩) : a.Covered ls lo hi [id] :=
  fun _ _ _ hlo hhi =>
    ⟨id, by simp, _, h, hlo, Nat.le_trans hhi (Nat.le_max_left hi lo)⟩

/-- What has been read at a place, and what comes after it. -/
theorem Covered.trans {p : Grammar.Place} (hp : p.Along cs ls) (h : a.Covered ls lo p.stop xs)
    (k : a.Covered ls (p.start cs) hi ys) : a.Covered ls lo hi (xs ++ ys) := by
  intro l hl hterminator hlo hhi
  rcases hp.behind_or_ahead hl with hbehind | hahead
  · obtain ⟨id, hid, hcovers⟩ := h l hl hterminator hlo hbehind
    exact ⟨id, List.mem_append_left _ hid, hcovers⟩
  · obtain ⟨id, hid, hcovers⟩ := k l hl hterminator hahead hhi
    exact ⟨id, List.mem_append_right _ hid, hcovers⟩

/-- No token stands between the end of what has been read and the start of what comes next. -/
theorem covered_nil (hsolid : ∀ l ∈ ls, l.span.start < l.span.stop) (h : hi ≤ lo) :
    a.Covered ls lo hi xs := fun l hl _ hlo hhi => by
  have := hsolid l hl
  omega

theorem Covered.max (hsolid : ∀ l ∈ ls, l.span.start < l.span.stop) (h : a.Covered ls lo hi xs) :
    a.Covered ls lo (Max.max hi lo) xs := by
  rcases Nat.le_total hi lo with hle | hle
  · rw [Nat.max_eq_right hle]
    exact covered_nil hsolid (Nat.le_refl lo)
  · rwa [Nat.max_eq_left hle]

theorem Covered.perm (h : a.Covered ls lo hi xs) (hp : xs.Perm ys) : a.Covered ls lo hi ys := by
  intro l hl hterminator hlo hhi
  obtain ⟨id, hid, hcovers⟩ := h l hl hterminator hlo hhi
  exact ⟨id, hp.subset hid, hcovers⟩

/-- An arena as a reading builds it up: blocks without a name cover their tokens by statements, and
errors keep the text that they cover. -/
structure Intact (cs : List Char) (ls : List Lexeme) (a : Arena) : Prop where
  bound : ∀ {id : Nat} {n}, a.get? id = some n → id < a.nextId
  spanned : ∀ {id}, a.get? id = none → a.span? id = none
  block : ∀ {id kind statements traps}, a.get? id = some (.namedBlock kind true statements traps) →
    ∃ span, a.span? id = some span ∧ a.Covered ls span.start span.stop (statements ++ traps)
  error : ∀ {id text}, a.get? id = some (.error text) →
    ∃ span, a.span? id = some span ∧ Text.slice? cs span.start span.stop = some text.toList

theorem intact_empty : Intact cs ls {} where
  bound h := by simp [Arena.get?] at h
  spanned _ := by simp [Arena.span?]
  block h := by simp [Arena.get?] at h
  error h := by simp [Arena.get?] at h

theorem Covers.grows (h : a.Covers id span) (ha : a.Intact cs ls) (hg : a.Grows b) :
    b.Covers id span := by
  obtain ⟨around, haround, hwithin⟩ := h
  cases hget : a.get? id with
  | none => cases (ha.spanned hget).symm.trans haround
  | some n => exact ⟨around, (hg.span? hget).trans haround, hwithin⟩

theorem Covered.grows (h : a.Covered ls lo hi xs) (ha : a.Intact cs ls) (hg : a.Grows b) :
    b.Covered ls lo hi xs := by
  intro l hl hterminator hlo hhi
  obtain ⟨id, hid, hcovers⟩ := h l hl hterminator hlo hhi
  exact ⟨id, hid, hcovers.grows ha hg⟩

/-- What a new node has to cover by its children, or to keep as its text. -/
def Fit (cs : List Char) (ls : List Lexeme) (a : Arena) (span : Span) : Node NodeId → Prop
  | .namedBlock _ true statements traps =>
    a.Covered ls span.start span.stop (statements ++ traps)
  | .error text => Text.slice? cs span.start span.stop = some text.toList
  | _ => True

/-- Neither an error nor a block without a name. -/
def isOrdinary : Node NodeId → Bool
  | .namedBlock _ true _ _ | .error _ => false
  | _ => true

theorem fit_of_isOrdinary (hn : isOrdinary n = true) : a.Fit cs ls span n := by
  unfold isOrdinary at hn
  split at hn
  · exact absurd hn Bool.false_ne_true
  · exact absurd hn Bool.false_ne_true
  · rename_i hblock herror
    unfold Fit
    split
    · exact absurd rfl (hblock _ _ _)
    · exact absurd rfl (herror _)
    · trivial

theorem Intact.add (h : a.Intact cs ls) (hn : a.Fit cs ls span n)
    (hadd : a.add n (some span) = .ok (id, b)) : b.Intact cs ls ∧ a.Grows b := by
  have hid := add_id hadd
  have hnext := add_nextId hadd
  have hne {i : Nat} {m : Node NodeId} (hm : a.get? i = some m) : i ≠ id := by
    have := h.bound hm
    omega
  have hgrows : a.Grows b := by
    refine ⟨by omega, fun hm => ?_, fun hm => add_span?_of_ne hadd (hne hm)⟩
    rw [add_get?_of_ne hadd (hne hm)]
    exact hm
  refine ⟨⟨?_, ?_, ?_, ?_⟩, hgrows⟩
  · intro i m hm
    by_cases hi : i = id
    · omega
    · rw [add_get?_of_ne hadd hi] at hm
      have := h.bound hm
      omega
  · intro i hnone
    have hi : i ≠ id := by
      rintro rfl
      rw [add_get? hadd] at hnone
      cases hnone
    rw [add_get?_of_ne hadd hi] at hnone
    rw [add_span?_of_ne hadd hi]
    exact h.spanned hnone
  · intro i kind statements traps hm
    by_cases hi : i = id
    · subst hi
      rw [add_get? hadd] at hm
      rw [Option.some.inj hm] at hn
      exact ⟨span, add_span?_some hadd, Covered.grows hn h hgrows⟩
    · rw [add_get?_of_ne hadd hi] at hm
      obtain ⟨s, hs, hcovered⟩ := h.block hm
      exact ⟨s, by rwa [add_span?_of_ne hadd hi], hcovered.grows h hgrows⟩
  · intro i text hm
    by_cases hi : i = id
    · subst hi
      rw [add_get? hadd] at hm
      rw [Option.some.inj hm] at hn
      exact ⟨span, add_span?_some hadd, hn⟩
    · rw [add_get?_of_ne hadd hi] at hm
      obtain ⟨s, hs, htext⟩ := h.error hm
      exact ⟨s, by rwa [add_span?_of_ne hadd hi], htext⟩

end Arena

/-- Terminators that are passed by need not be covered. -/
theorem Grammar.Place.Along.covered_past {cs : List Char} {ls : List Lexeme} {p : Place} {a : Arena}
    (h : p.Along cs ls) (hsolid : ∀ l ∈ ls, l.span.start < l.span.stop) :
    a.Covered ls (p.start cs) (p.past isTerminator).stop [] := by
  intro l hl hterminator hlo hhi
  exact absurd (h.of_past hsolid hl hlo hhi) (by simp [hterminator])

end ScriptInject
