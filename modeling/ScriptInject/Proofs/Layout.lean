import ScriptInject.Grammar.Parser
/-! How a text is cut into pieces, and where a reading stands between them. -/
namespace ScriptInject

/-- A piece of a text together with its characters. -/
structure Chunk where
  piece : Token.Piece
  text : List Char
deriving DecidableEq, Repr

namespace Chunk

def token? (w : Chunk) : Option Token :=
  match w.piece with
  | .token t => some t
  | _ => none

/-- Blanks, comments and continued lines. -/
def isGap (w : Chunk) : Bool := w.piece == .trivia

def textOf (ws : List Chunk) : List Char := ws.flatMap (·.text)

/-- The tokens of a row of chunks that starts at byte `start`. -/
def lexemes : Nat → List Chunk → List Lexeme
  | _, [] => []
  | start, w :: ws =>
    (w.token?.map fun t => ⟨t, ⟨start, start + Text.size w.text⟩⟩).toList ++
      lexemes (start + Text.size w.text) ws

/-- The tokens of a row of chunks. -/
def tokensOf (ws : List Chunk) : List Token := ws.filterMap token?

/-- The chunk is what stands at the start of its text when `after` follows it. -/
def Stands (w : Chunk) (after : List Char) : Prop :=
  ∃ c cs, w.text = c :: cs ∧ Token.piece c (cs ++ after) = (w.piece, w.text.length)

/-- The text of the chunks, with `after` behind it, is cut into these chunks, and all of it can be
read. -/
def Clean : List Chunk → List Char → Prop
  | [], _ => True
  | w :: ws, after => w.Stands (textOf ws ++ after) ∧ (w.isGap ∨ w.token?.isSome) ∧ Clean ws after

variable {v w : Chunk} {us vs ws : List Chunk} {after : List Char} {start : Nat} {t : Token}

@[simp] theorem textOf_nil : textOf [] = [] := rfl

@[simp] theorem textOf_cons : textOf (w :: ws) = w.text ++ textOf ws := rfl

@[simp] theorem textOf_append : textOf (vs ++ ws) = textOf vs ++ textOf ws := by
  simp [textOf]

@[simp] theorem tokensOf_nil : tokensOf [] = [] := rfl

@[simp] theorem tokensOf_append : tokensOf (vs ++ ws) = tokensOf vs ++ tokensOf ws :=
  List.filterMap_append

@[simp] theorem lexemes_nil : lexemes start [] = [] := rfl

theorem lexemes_cons : lexemes start (w :: ws) =
    (w.token?.map fun t => ⟨t, ⟨start, start + Text.size w.text⟩⟩).toList ++
      lexemes (start + Text.size w.text) ws := rfl

theorem lexemes_append : lexemes start (vs ++ ws) =
    lexemes start vs ++ lexemes (start + Text.size (textOf vs)) ws := by
  induction vs generalizing start with
  | nil => simp
  | cons v vs ih => simp [lexemes_cons, ih, Nat.add_assoc]

theorem map_token_lexemes : (lexemes start ws).map (·.token) = tokensOf ws := by
  induction ws generalizing start with
  | nil => rfl
  | cons w ws ih =>
    rw [lexemes_cons, List.map_append, ih, tokensOf, tokensOf, List.filterMap_cons]
    cases w.token? <;> rfl

theorem token?_of_isGap (h : w.isGap = true) : w.token? = none := by
  simp only [isGap, beq_iff_eq] at h
  simp [token?, h]

theorem lexemes_gaps (h : ∀ v ∈ vs, v.isGap = true) : lexemes start vs = [] := by
  induction vs generalizing start with
  | nil => rfl
  | cons v vs ih =>
    rw [lexemes_cons, token?_of_isGap (h v (by simp)), ih fun u hu => h u (by simp [hu])]
    rfl

theorem clean_append : Clean (vs ++ ws) after ↔ Clean vs (textOf ws ++ after) ∧ Clean ws after := by
  induction vs with
  | nil => simp [Clean]
  | cons v vs ih => simp [Clean, ih, and_assoc]

/-- A row of chunks starts with gaps and then has a token, or it has gaps only. -/
theorem clean_cases (h : Clean ws after) : (∀ w ∈ ws, w.isGap = true) ∨
    ∃ gs w t vs, ws = gs ++ w :: vs ∧ (∀ g ∈ gs, g.isGap = true) ∧ w.piece = .token t := by
  induction ws with
  | nil => exact .inl (by simp)
  | cons w ws ih =>
    obtain ⟨_, hw, hws⟩ := h
    cases hp : w.piece with
    | token t => exact .inr ⟨[], w, t, ws, rfl, by simp, hp⟩
    | trivia =>
      have hgap : w.isGap = true := by simp [isGap, hp]
      rcases ih hws with hg | ⟨gs, v, t, vs, rfl, hg, hv⟩
      · exact .inl (by simpa [hgap] using hg)
      · exact .inr ⟨w :: gs, v, t, vs, rfl, by simpa [hgap] using hg, hv⟩
    | invalid => simp [isGap, token?, hp] at hw
    | unclosed d => simp [isGap, token?, hp] at hw

end Chunk

namespace Token

/-- The token occurs in some text. -/
def Occurs (t : Token) : Prop := ∃ c cs n, piece c cs = (.token t, n)

end Token

open Chunk

namespace Grammar

/-- The reading of the text stands between the chunks `done` and `ws`, right behind a token or at
the start. -/
structure Place.At (text : List Char) (p : Place) (done ws : List Chunk) : Prop where
  text_eq : text = textOf (done ++ ws)
  rest_eq : p.rest = lexemes (Text.size (textOf done)) ws
  last_eq : p.last? = (lexemes 0 done).getLast?
  ended : done = [] ∨ ∃ us w t, done = us ++ [w] ∧ w.piece = .token t

/-- The reading stands somewhere in the text, which can be read as a whole. -/
def Place.Scanned (text : List Char) (p : Place) : Prop :=
  ∃ done ws, p.At text done ws ∧ Clean (done ++ ws) []

namespace Place

variable {text : List Char} {p : Place} {done us vs ws : List Chunk} {w : Chunk} {t : Token}

theorem rest_advanceBy (p : Place) (k : Nat) : (p.advanceBy k).rest = p.rest.drop k := by
  induction k generalizing p with
  | zero => rfl
  | succ k ih =>
    rw [Place.advanceBy, ih, Place.advance]
    cases hr : p.rest with
    | nil => simp [hr]
    | cons l rest => rfl

theorem advanceBy_add (p : Place) (m n : Nat) :
    p.advanceBy (m + n) = (p.advanceBy m).advanceBy n := by
  induction m generalizing p with
  | zero => rw [Nat.zero_add, advanceBy]
  | succ m ih => rw [Nat.add_right_comm, advanceBy, ih, advanceBy]

theorem at_start (ws : List Chunk) : At (textOf ws) { rest := lexemes 0 ws } [] ws :=
  ⟨rfl, rfl, rfl, .inl rfl⟩

theorem At.rest_token (h : p.At text done (us ++ w :: ws)) (hg : ∀ g ∈ us, g.isGap = true)
    (hw : w.piece = .token t) :
    p.rest = ⟨t, ⟨Text.size (textOf (done ++ us)), Text.size (textOf (done ++ us ++ [w]))⟩⟩ ::
      lexemes (Text.size (textOf (done ++ us ++ [w]))) ws := by
  rw [h.rest_eq, lexemes_append, lexemes_gaps hg, lexemes_cons]
  simp [token?, hw, Nat.add_assoc]

theorem At.current? (h : p.At text done (us ++ w :: ws)) (hg : ∀ g ∈ us, g.isGap = true)
    (hw : w.piece = .token t) : p.current? = some t := by
  simp [Place.current?, h.rest_token hg hw]

/-- Reading a token passes over the gaps before it. -/
theorem At.advance (h : p.At text done (us ++ w :: ws)) (hg : ∀ g ∈ us, g.isGap = true)
    (hw : w.piece = .token t) : p.advance.At text (done ++ us ++ [w]) ws := by
  have hrest := h.rest_token hg hw
  refine ⟨?_, ?_, ?_, .inr ⟨done ++ us, w, t, rfl, hw⟩⟩
  · rw [h.text_eq]
    simp
  · simp [Place.advance, hrest]
  · simp [Place.advance, hrest, lexemes_append, lexemes_cons, token?, hw, Nat.add_assoc]

theorem At.rest_gaps (h : p.At text done ws) (hg : ∀ g ∈ ws, g.isGap = true) : p.rest = [] := by
  rw [h.rest_eq, lexemes_gaps hg]

theorem At.stop_eq (h : p.At text done ws) : p.stop = Text.size (textOf done) := by
  rcases h.ended with rfl | ⟨us, w, t, rfl, hw⟩
  · simp [stop, h.last_eq]
  · simp [stop, h.last_eq, lexemes_append, lexemes_cons, token?, hw]

theorem Scanned.advance (h : p.Scanned text) : p.advance.Scanned text := by
  obtain ⟨done, ws, hp, hc⟩ := h
  rcases clean_cases (clean_append.mp hc).2 with hg | ⟨gs, w, t, vs, rfl, hg, hw⟩
  · refine ⟨done, ws, ?_, hc⟩
    simpa [Place.advance, hp.rest_gaps hg] using hp
  · exact ⟨_, _, hp.advance hg hw, by simpa using hc⟩

theorem Scanned.advanceBy (h : p.Scanned text) (n : Nat) : (p.advanceBy n).Scanned text := by
  induction n generalizing p with
  | zero => exact h
  | succ n ih => exact ih h.advance

/-- The current token occurs in the text. -/
theorem Scanned.occurs (h : p.Scanned text) (ht : p.current? = some t) : t.Occurs := by
  obtain ⟨done, ws, hp, hc⟩ := h
  have hws := (clean_append.mp hc).2
  rcases clean_cases hws with hg | ⟨gs, w, u, vs, rfl, hg, hw⟩
  · simp [Place.current?, hp.rest_gaps hg] at ht
  · rw [hp.current? hg hw, Option.some.injEq] at ht
    obtain ⟨⟨c, cs, _, h⟩, _⟩ := (clean_append.mp hws).2
    exact ⟨c, _, _, by rw [h, hw, ht]⟩

theorem Scanned.occurs_of_mem {l : Lexeme} (h : p.Scanned text) (hl : l ∈ p.rest) :
    l.token.Occurs := by
  obtain ⟨n, hn, rfl⟩ := List.getElem_of_mem hl
  apply (h.advanceBy n).occurs
  rw [current?, rest_advanceBy, List.head?_drop, List.getElem?_eq_getElem hn, Option.map_some]

end Place

end Grammar

end ScriptInject
