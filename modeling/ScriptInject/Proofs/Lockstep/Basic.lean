import ScriptInject.Grammar.Script
import ScriptInject.Proofs.Steps
/-! Two readings side by side. The second one reads a longer text, whose first part it has behind
it, or it differs in that it does not recover. As long as the first one notes no errors, both take
the same steps. -/
namespace ScriptInject

def Span.shift (n : Nat) (s : Span) : Span := ⟨s.start + n, s.stop + n⟩

def Lexeme.shift (n : Nat) (l : Lexeme) : Lexeme := { l with span := l.span.shift n }

/-- The id of the same node in an arena that has `n` more nodes before it. -/
def NodeId.shift (n : Nat) (i : NodeId) : NodeId := if i = 0 then 0 else i + n

/-- The same error in a text that has `n` more bytes in front. -/
def ParseError.shift (n : Nat) : ParseError → ParseError
  | .unexpectedToken position expected found => .unexpectedToken (position + n) expected found
  | .invalidToken position text => .invalidToken (position + n) text
  | .unclosedDelimiter delimiter position => .unclosedDelimiter delimiter (position + n)
  | .invalidForm position reason => .invalidForm (position + n) reason
  | e => e

theorem Text.dropBytes?_append (n : Nat) (cs ds : List Char) :
    dropBytes? (n + size cs) (cs ++ ds) = dropBytes? n ds := by
  induction cs with
  | nil => rfl
  | cons c cs ih =>
    obtain ⟨m, hm⟩ : ∃ m, n + size (c :: cs) = m + 1 :=
      ⟨_, (Nat.succ_pred (by have := c.utf8Size_pos; simp; omega)).symm⟩
    have hsize := size_cons c cs
    have hle : c.utf8Size ≤ m + 1 := by omega
    have hsub : m + 1 - c.utf8Size = n + size cs := by omega
    rw [hm, List.cons_append, dropBytes?, if_pos hle, hsub, ih]

theorem Text.slice?_shift (cs ds : List Char) (start stop : Nat) :
    slice? (cs ++ ds) (start + size cs) (stop + size cs) = slice? ds start stop := by
  rw [slice?, slice?, dropBytes?_append, Nat.add_sub_add_right]
  simp only [Nat.add_le_add_iff_right]

theorem ParseError.shiftBack_shift (n : Nat) (e : ParseError) : (e.shift n).shiftBack n = e := by
  cases e <;> simp [shift, shiftBack]

namespace Grammar

def Failure.shift (n : Nat) : Failure → Failure
  | .refused e => .refused (e.shift n)
  | f => f

/-- The state that a run ends in. -/
def final {α : Type} : EStateM.Result Failure State α → State
  | .ok _ t | .error _ t => t

/-- How a second reading stands to a first one: what its text has in front, the token that it has
read of this, and how many more nodes its arena has. -/
structure Alignment where
  input : Input
  before : List Char
  last? : Option Lexeme
  ids : Nat
  /-- The second arena holds what the first one holds. -/
  Arenas : Arena → Arena → Prop
  stop_eq : Place.stop ⟨last?, []⟩ = Text.size before
  newline : ∀ l ∈ last?, l.token = .newline
  get?_eq : ∀ {a b}, Arenas a b → ∀ i,
    b.get? (NodeId.shift ids i) = (a.get? i).map (Node.map (NodeId.shift ids))
  span?_eq : ∀ {a b}, Arenas a b → ∀ i,
    b.span? (NodeId.shift ids i) = (a.span? i).map (Span.shift (Text.size before))
  add_ok : ∀ {a a' b n span i}, Arenas a b → a'.nextId + ids ≤ Arena.idLimit ∨ ids = 0 →
    a.add n (some span) = .ok (i, a') → ∃ b', Arenas a' b' ∧
      b.add (n.map (NodeId.shift ids)) (some (span.shift (Text.size before))) =
        .ok (NodeId.shift ids i, b')
  add_error : ∀ {a b n m span span' e}, Arenas a b → a.nextId + ids ≤ Arena.idLimit ∨ ids = 0 →
    a.add n (some span) = .error e → b.add m (some span') = .error e

namespace Alignment
variable (σ : Alignment)

def offset : Nat := Text.size σ.before

/-- What the second reading reads. -/
def shifted : Input := ⟨σ.before ++ σ.input.text, σ.input.maxDepth⟩

/-- The id in the second arena. -/
def id (i : NodeId) : NodeId := NodeId.shift σ.ids i

/-- The place in the second text. -/
def place (p : Place) : Place :=
  ⟨(p.last?.map (Lexeme.shift σ.offset)).or σ.last?, p.rest.map (Lexeme.shift σ.offset)⟩

/-- There are ids left for all nodes of the second arena. -/
def Room (a : Arena) : Prop := a.nextId + σ.ids ≤ Arena.idLimit ∨ σ.ids = 0

/-- Both readings stand at the same token, and the second one does not recover. -/
structure Alike (s s' : State) : Prop where
  place : s'.place = σ.place s.place
  arena : σ.Arenas s.arena s'.arena
  depth : s'.depth = s.depth
  strict : s'.recovering = false
  spanned : s.arena.Spanned

end Alignment

/-- A run adds to what there is. Without recovery it notes no errors. -/
structure Onward (s t : State) : Prop where
  nextId_le : s.arena.nextId ≤ t.arena.nextId
  errors : s.errors <+: t.errors
  recovering : t.recovering = s.recovering
  strict : s.recovering = false → t.errors = s.errors

namespace Onward

variable {s t u : State}

theorem refl (s : State) : Onward s s := ⟨Nat.le_refl _, List.prefix_refl _, rfl, fun _ => rfl⟩

theorem trans (h : Onward s t) (k : Onward t u) : Onward s u where
  nextId_le := Nat.le_trans h.nextId_le k.nextId_le
  errors := h.errors.trans k.errors
  recovering := k.recovering.trans h.recovering
  strict hs := (k.strict (h.recovering.trans hs)).trans (h.strict hs)

theorem errors_of_trans (h : Onward s t) (k : Onward t u) (he : u.errors = s.errors) :
    t.errors = s.errors :=
  (h.errors.eq_of_length_le (by rw [← he]; exact k.errors.length_le)).symm

theorem of_place (p : Place) : Onward s { s with place := p } :=
  ⟨Nat.le_refl _, List.prefix_refl _, rfl, fun _ => rfl⟩

/-- What is refused may be noted in between. -/
theorem noted {e : ParseError} (h : Onward s t) (ht : t.recovering = true)
    (k : Onward { t with errors := t.errors ++ [e] } u) : Onward s u where
  nextId_le := Nat.le_trans h.nextId_le k.nextId_le
  errors := h.errors.trans ((List.prefix_append _ _).trans k.errors)
  recovering := k.recovering.trans h.recovering
  strict hs := by
    rw [← h.recovering, ht] at hs
    cases hs

theorem errors_ne {e : ParseError} (h : Onward s t)
    (k : Onward { t with errors := t.errors ++ [e] } u) : u.errors ≠ s.errors := by
  intro he
  have hlength := h.errors.length_le
  have hlonger := k.errors.length_le
  rw [he] at hlonger
  simp only [List.length_append, List.length_singleton] at hlonger
  omega

end Onward

variable {α β γ δ : Type}

/-- Two runs end alike, up to where things are, with a value of which `Q` is known. -/
inductive Matches (σ : Alignment) (f : α → β) (Q : α → State → Prop) :
    EStateM.Result Failure State α → EStateM.Result Failure State β → Prop
  | ok {a b t t'} : b = f a → σ.Alike t t' → Q a t → Matches σ f Q (.ok a t) (.ok b t')
  | error {e t t'} : σ.Alike t t' → Matches σ f Q (.error e t) (.error (e.shift σ.offset) t')

theorem Matches.imp {σ : Alignment} {f : α → β} {Q Q' : α → State → Prop}
    {r : EStateM.Result Failure State α} {r' : EStateM.Result Failure State β}
    (h : Matches σ f Q r r') (hQ : ∀ a, Q a (final r) → Q' a (final r)) : Matches σ f Q' r r' := by
  cases h with
  | ok hb ha hq => exact .ok hb ha (hQ _ hq)
  | error ha => exact .error ha

/-- The second run ends like the first one, and where the first one has noted an error and gone on,
the second one fails. -/
structure Follows (σ : Alignment) (f : α → β) (Q : α → State → Prop) (s : State)
    (r : EStateM.Result Failure State α) (r' : EStateM.Result Failure State β) : Prop where
  same : (final r).errors = s.errors → Matches σ f Q r r'
  noted : (final r).errors ≠ s.errors → ∃ e t', r' = .error e t' ∧ t'.recovering = false

theorem Matches.strict {σ : Alignment} {f : α → β} {Q : α → State → Prop}
    {r : EStateM.Result Failure State α} {r' : EStateM.Result Failure State β}
    (h : Matches σ f Q r r') : (final r').recovering = false := by
  cases h with
  | ok _ ha _ => exact ha.strict
  | error ha => exact ha.strict

/-- Where the first run fails, so does the second one. -/
theorem Follows.lost {σ : Alignment} {f : α → β} {Q : α → State → Prop} {s t : State} {e : Failure}
    {r' : EStateM.Result Failure State β} (h : Follows σ f Q s (.error e t) r') :
    ∃ e' t', r' = .error e' t' ∧ t'.recovering = false := by
  by_cases he : t.errors = s.errors
  · cases h.same he with
    | error ha => exact ⟨_, _, rfl, ha.strict⟩
  · exact h.noted he

/-- From alike states of which `P` is known, the second rule follows the first one. -/
structure Lockstep (σ : Alignment) (P : State → Prop) (f : α → β) (p : Parser α) (q : Parser β)
    (Q : α → State → Prop) : Prop where
  onward : ∀ s, Onward s (final (p σ.input s))
  follows : ∀ {s s'}, σ.Alike s s' → P s → σ.Room (final (p σ.input s)).arena →
    Follows σ f Q s (p σ.input s) (q σ.shifted s')

/-- Nothing is known of the result. -/
def Any : α → State → Prop := fun _ _ => True

/-- A token has been read. -/
def Begun (s : State) : Prop := s.place.last?.isSome = true

/-- The result is a node of the text, and its last token has been read. -/
structure Stood (id : NodeId) (s : State) : Prop where
  span : (s.arena.span? id).isSome = true
  begun : Begun s

/-- The state comes from one with the property `P` by going elsewhere in the text. -/
inductive After (P : State → Prop) (move : Place → Place) : State → Prop
  | mk {s} : P s → After P move { s with place := move s.place }

namespace Alignment.Room

variable {σ : Alignment} {s t : State}

theorem of_onward (h : σ.Room t.arena) (ho : Onward s t) : σ.Room s.arena :=
  h.imp (Nat.le_trans (Nat.add_le_add_right ho.nextId_le _)) fun h => h

end Alignment.Room

namespace Place

variable {σ : Alignment} {p : Place}

theorem current?_place (p : Place) : (σ.place p).current? = p.current? := by
  cases h : p.rest <;> simp [current?, Alignment.place, h, Lexeme.shift]

theorem next?_place (p : Place) : (σ.place p).next? = p.next? := by
  cases h : p.rest with
  | nil => simp [next?, Alignment.place, h]
  | cons l ls => cases ls <;> simp [next?, Alignment.place, h, Lexeme.shift]

theorem advance_place (p : Place) : (σ.place p).advance = σ.place p.advance := by
  cases h : p.rest <;> simp [advance, Alignment.place, h]

theorem advanceBy_place (n : Nat) (p : Place) :
    (σ.place p).advanceBy n = σ.place (p.advanceBy n) := by
  induction n generalizing p with
  | zero => rfl
  | succ n ih => rw [advanceBy, advance_place, ih, advanceBy]

theorem start_place (p : Place) :
    (σ.place p).start σ.shifted.text = p.start σ.input.text + σ.offset := by
  cases h : p.rest with
  | nil => simp [start, Alignment.place, h, Alignment.shifted, Alignment.offset, Nat.add_comm]
  | cons l ls => simp [start, Alignment.place, h, Lexeme.shift, Span.shift]

theorem stop_place (p : Place) : (σ.place p).stop = p.stop + σ.offset := by
  have hstop := σ.stop_eq
  cases h : p.last? with
  | none => simpa [stop, Alignment.place, h, Alignment.offset] using hstop
  | some l => simp [stop, Alignment.place, h, Lexeme.shift, Span.shift]

theorem beq_add_right (a b n : Nat) : (a + n == b + n) = (a == b) := by
  rw [Bool.eq_iff_iff, beq_iff_eq, beq_iff_eq]
  exact Nat.add_right_cancel_iff

theorem isAdjacent_place (h : p.last?.isSome = true) : (σ.place p).isAdjacent = p.isAdjacent := by
  obtain ⟨l, hl⟩ := Option.isSome_iff_exists.mp h
  cases hr : p.rest with
  | nil => simp [isAdjacent, Alignment.place, hl, hr]
  | cons m ms =>
    simp only [isAdjacent, Alignment.place, hl, hr, Option.map_some, Option.some_or, List.map_cons]
    exact beq_add_right _ _ _

theorem isNextAdjacent_place (p : Place) : (σ.place p).isNextAdjacent = p.isNextAdjacent := by
  cases h : p.rest with
  | nil => simp [isNextAdjacent, Alignment.place, h]
  | cons l ls =>
    cases ls with
    | nil => simp [isNextAdjacent, Alignment.place, h]
    | cons m ms =>
      simp only [isNextAdjacent, Alignment.place, h, List.map_cons]
      exact beq_add_right _ _ _

theorem nextSignificant?_place (p : Place) :
    (σ.place p).nextSignificant? = p.nextSignificant? := by
  have htokens (ls : List Lexeme) :
      (ls.map (Lexeme.shift σ.offset)).map (·.token) = ls.map (·.token) := by
    simp [Lexeme.shift]
  rw [nextSignificant?, nextSignificant?, Alignment.place, ← List.map_tail, htokens]

/-- What is wrong with the current token, or with the end of the text. -/
def refusal (expected : String) (p : Place) : ParseError :=
  match p.rest with
  | l :: _ => .unexpectedToken l.span.start expected l.token.describe
  | [] => .unexpectedEnd expected

theorem refusal_place (expected : String) (p : Place) :
    (σ.place p).refusal expected = (p.refusal expected).shift σ.offset := by
  cases h : p.rest <;> simp [refusal, Alignment.place, h, Lexeme.shift, Span.shift,
    ParseError.shift]

theorem past_place (q : Token → Bool) (p : Place) : (σ.place p).past q = σ.place (p.past q) := by
  have hlength : ((σ.place p).rest.takeWhile fun l => q l.token).length =
      (p.rest.takeWhile fun l => q l.token).length := by
    rw [Alignment.place, List.takeWhile_map, List.length_map]
    rfl
  rw [past, hlength, advanceBy_place, past]

theorem begun_advance (h : p.current?.isSome = true) : p.advance.last?.isSome = true := by
  cases hr : p.rest <;> simp_all [current?, advance]

theorem last?_advance_isSome (h : p.last?.isSome = true) : p.advance.last?.isSome = true := by
  cases hr : p.rest <;> simp_all [advance]

end Place

/-- The state comes from one with the property `P` by reading the given token. -/
abbrev Read (P : State → Prop) (t : Token) : State → Prop :=
  After (fun s => P s ∧ s.place.current? = some t) .advance

theorem Read.begun {P : State → Prop} {t : Token} {s : State} (h : Read P t s) : Begun s := by
  cases h with
  | mk hs => exact Place.begun_advance (by rw [hs.2]; rfl)

end Grammar

end ScriptInject
