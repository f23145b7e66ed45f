import ScriptInject.Grammar.Script
import ScriptInject.Proofs.Lockstep.Basic
import ScriptInject.Proofs.Places
/-! The tokens of a text with lines of its own in front of it. They are those of the lines, and then
those of the text alone, further on by the size of the lines. -/
namespace ScriptInject

namespace Lexeme
open Token

variable {cs : List Char} {start n steps steps' : Nat} {ws : List Chunk}

/-- The tokens of a text that starts at byte `start`, read in at most `steps` steps. -/
def readFrom? (steps start : Nat) (cs : List Char) : Except ParseError (List Lexeme) :=
  ((cutsFrom steps start cs).filterMap Cut.reading?).mapM id

/-- What is read of the text where it has `n` more bytes in front. -/
def shiftRead (n : Nat) : Except ParseError (List Lexeme) → Except ParseError (List Lexeme)
  | .ok ls => .ok (ls.map (shift n))
  | .error e => .error (e.shift n)

theorem readFrom?_cons (c : Char) (rest : List Char) :
    readFrom? (steps + 1) start (c :: rest) =
      let (x, n) := piece c rest
      let text := (c :: rest).take n
      let later := readFrom? steps (start + Text.size text) ((c :: rest).drop n)
      match x with
      | .token t => later.map (⟨t, ⟨start, start + Text.size text⟩⟩ :: ·)
      | .trivia => later
      | .invalid => .error (.invalidToken start (String.ofList text))
      | .unclosed delimiter => .error (.unclosedDelimiter delimiter start) := by
  rw [readFrom?, cutsFrom]
  rcases piece c rest with ⟨x, n⟩
  cases x with
  | token t =>
    simp only [List.filterMap_cons, Cut.reading?, List.mapM_cons, readFrom?, Cut.span]
    generalize List.filterMap Cut.reading? _ = rs
    cases rs.mapM id <;> rfl
  | trivia => rfl
  | invalid => rfl
  | unclosed delimiter => rfl

/-- A reading does not depend on where the text starts, or on steps that are left over. -/
theorem readFrom?_shift (start n : Nat) (hsteps : cs.length ≤ steps)
    (hsteps' : cs.length ≤ steps') :
    readFrom? steps' (start + n) cs = shiftRead n (readFrom? steps start cs) := by
  induction steps generalizing start steps' cs with
  | zero =>
    obtain rfl := List.eq_nil_of_length_eq_zero (Nat.le_zero.mp hsteps)
    cases steps' <;> rfl
  | succ steps ih =>
    cases cs with
    | nil => cases steps' <;> rfl
    | cons c rest =>
      obtain ⟨steps', rfl⟩ : ∃ m, steps' = m + 1 :=
        ⟨steps' - 1, by simp only [List.length_cons] at hsteps'; omega⟩
      rw [readFrom?_cons, readFrom?_cons]
      rcases hp : piece c rest with ⟨x, m⟩
      have hlater (hx : x.IsRead) : readFrom? steps' (start + n + Text.size ((c :: rest).take m))
          ((c :: rest).drop m) = shiftRead n
            (readFrom? steps (start + Text.size ((c :: rest).take m)) ((c :: rest).drop m)) := by
        have hm := piece_le hp hx
        simp only [List.length_cons] at hsteps hsteps'
        rw [Nat.add_right_comm]
        apply ih <;> rw [List.length_drop, List.length_cons] <;> omega
      cases x with
      | invalid => rfl
      | unclosed delimiter => rfl
      | trivia => exact hlater trivial
      | token t =>
        dsimp only
        rw [hlater trivial]
        cases readFrom? steps (start + Text.size ((c :: rest).take m)) ((c :: rest).drop m) with
        | error e => rfl
        | ok ls => simp [shiftRead, Except.map, shift, Span.shift, Nat.add_right_comm]

theorem readFrom?_append (start : Nat) (hws : Chunk.Clean ws cs)
    (hsteps : (Chunk.textOf ws ++ cs).length ≤ steps) :
    ∃ steps', cs.length ≤ steps' ∧ readFrom? steps start (Chunk.textOf ws ++ cs) =
      (readFrom? steps' (start + Text.size (Chunk.textOf ws)) cs).map
        (Chunk.lexemes start ws ++ ·) := by
  induction ws generalizing start steps with
  | nil =>
    refine ⟨steps, hsteps, ?_⟩
    simp only [Chunk.textOf_nil, List.nil_append, Chunk.lexemes_nil, Text.size_nil, Nat.add_zero]
    cases readFrom? steps start cs <;> rfl
  | cons w ws ih =>
    obtain ⟨⟨c, rest, hw, hp⟩, hread, hws⟩ := hws
    rw [Chunk.textOf_cons, hw] at hsteps ⊢
    obtain ⟨steps, rfl⟩ : ∃ m, steps = m + 1 :=
      ⟨steps - 1, by simp only [List.cons_append, List.length_cons] at hsteps; omega⟩
    have hlength : (Chunk.textOf ws ++ cs).length ≤ steps := by
      simp only [List.cons_append, List.append_assoc, List.length_cons, List.length_append]
        at hsteps ⊢
      omega
    obtain ⟨steps', hsteps', hlater⟩ := ih (start + Text.size w.text) hws hlength
    refine ⟨steps', hsteps', ?_⟩
    have hsplit : (c :: rest ++ Chunk.textOf ws) ++ cs = c :: (rest ++ (Chunk.textOf ws ++ cs)) := by
      simp
    have htake : (c :: (rest ++ (Chunk.textOf ws ++ cs))).take w.text.length = w.text := by
      rw [hw, ← List.cons_append, List.take_left]
    have hdrop : (c :: (rest ++ (Chunk.textOf ws ++ cs))).drop w.text.length =
        Chunk.textOf ws ++ cs := by
      rw [hw, ← List.cons_append, List.drop_left]
    rw [hsplit, readFrom?_cons, hp]
    dsimp only
    rw [htake, hdrop, hlater, ← hw, Chunk.lexemes_cons, Text.size_append, Nat.add_assoc]
    cases hpiece : w.piece with
    | token t =>
      simp only [Chunk.token?, hpiece]
      cases readFrom? steps' (start + (Text.size w.text + Text.size (Chunk.textOf ws))) cs <;> rfl
    | trivia =>
      simp only [Chunk.token?, hpiece]
      rfl
    | invalid => simp [Chunk.isGap, Chunk.token?, hpiece] at hread
    | unclosed d => simp [Chunk.isGap, Chunk.token?, hpiece] at hread

/-- The tokens of a text with a row of chunks in front. -/
theorem ofText?_append (hws : Chunk.Clean ws cs) : ofText? (Chunk.textOf ws ++ cs) =
    (shiftRead (Text.size (Chunk.textOf ws)) (ofText? cs)).map (Chunk.lexemes 0 ws ++ ·) := by
  obtain ⟨steps', hsteps', h⟩ := readFrom?_append 0 hws (Nat.le_refl _)
  have hshift := readFrom?_shift 0 (Text.size (Chunk.textOf ws)) (Nat.le_refl cs.length) hsteps'
  change readFrom? _ 0 _ = _
  rw [h, hshift]
  rfl

end Lexeme

namespace Chunk
open Token

variable {w name : String} {words : List String} {after : List Char} {ws : List Chunk} {c : Char}

def word (w : String) : Chunk := ⟨.token (.word w), w.toList⟩

def mark (m : Mark) : Chunk := ⟨.token (.mark m), m.text.toList⟩

def blank : Chunk := ⟨.trivia, [' ']⟩

def newline : Chunk := ⟨.token .newline, ['\n']⟩

/-- Words with dots between them. -/
def dotted : List String → List Chunk
  | [] => []
  | [w] => [word w]
  | w :: v :: ws => word w :: mark .dot :: dotted (v :: ws)

/-- A line that uses what the chunks name. -/
def usingLine (ws : List Chunk) : List Chunk :=
  [word "using", blank, word "namespace", blank] ++ ws ++ [mark .semicolon, newline]

/-- The chunks are a name that a line may use, token by token. -/
structure Names (name : String) (ws : List Chunk) : Prop where
  text : textOf ws = name.toList
  clean : Clean ws []
  ne_nil : ws ≠ []
  tokens : ∀ w ∈ ws, ∃ t, w.piece = .token t ∧ endsLine t = false

theorem textOf_dotted : textOf (dotted words) = (".".intercalate words).toList := by
  induction words with
  | nil => rfl
  | cons w ws ih =>
    cases ws with
    | nil => simp [dotted, word]
    | cons v vs =>
      rw [dotted, textOf_cons, textOf_cons, ih, String.intercalate_cons_cons]
      simp [word, mark, Mark.text]

theorem word_start (h : (Token.word w).Occurs) :
    ∃ c cs, w.toList = c :: cs ∧ isNameStart c = true ∧ (word w).Stands [] := by
  obtain ⟨hstands, -⟩ := Grammar.Place.clean_word h
  obtain ⟨c, cs, hc, hfound⟩ := Stands.found hstands rfl
  rw [textOf_nil] at hstands
  exact ⟨c, cs, hc, hfound.1, hstands⟩

/-- A word ends before what is no part of a word. -/
theorem word_stands (h : (Token.word w).Occurs) (ha : ∀ c ∈ after.head?, isWordPart c = false) :
    (word w).Stands after := by
  obtain ⟨c, cs, hc, hstart, c', cs', hc', hp⟩ := word_start h
  obtain ⟨rfl, rfl⟩ := List.cons.inj (hc.symm.trans hc')
  refine ⟨c, cs, hc, ?_⟩
  rw [piece_of_isNameStart hstart, ofPrefix, List.append_nil] at hp
  have hlength : run isWordPart (c :: cs) = (c :: cs).length := by
    rw [(Prod.mk.inj hp).2, word, hc]
  have hall := (List.takeWhile_prefix isWordPart (l := c :: cs)).eq_of_length hlength
  have hparts : ∀ d ∈ c :: cs, isWordPart d = true := by
    rw [← hall]
    exact List.all_eq_true.mp List.all_takeWhile
  have hnone : after.takeWhile isWordPart = [] := by
    cases after with
    | nil => rfl
    | cons d ds => simp [ha d rfl]
  have hrun : run isWordPart (c :: (cs ++ after)) = (c :: cs).length := by
    rw [run, ← List.cons_append, List.takeWhile_append_of_pos hparts, hnone, List.append_nil]
  rw [piece_of_isNameStart hstart, ofPrefix, hrun, ← List.cons_append, List.take_left, ← hc,
    String.ofList_toList]
  rfl

theorem dot_stands (h : isNameStart c = true) : (mark .dot).Stands (c :: after) := by
  have hc : ('.' == c) = false := by
    cases hd : '.' == c with
    | false => rfl
    | true =>
      obtain rfl := beq_iff_eq.mp hd
      exact absurd h (by decide)
  refine ⟨'.', [], rfl, ?_⟩
  change Token.piece '.' (c :: after) = ofMark .dot
  unfold Token.piece
  simp [isSpace, isNameStart, ofMarks, List.find?, List.isPrefixOf, Mark.text, hc]

theorem clean_dotted (hne : words ≠ []) (h : ∀ w ∈ words, (Token.word w).Occurs)
    (ha : ∀ c ∈ after.head?, isWordPart c = false) : Clean (dotted words) after := by
  induction words with
  | nil => exact absurd rfl hne
  | cons w ws ih =>
    cases ws with
    | nil => exact ⟨word_stands (h w (by simp)) ha, .inr rfl, trivial⟩
    | cons v vs =>
      have hlater := ih (List.cons_ne_nil _ _) fun u hu => h u (List.mem_cons_of_mem _ hu)
      obtain ⟨c, cs, hc, hstart, -⟩ := word_start (h v (by simp))
      obtain ⟨ds, hds⟩ : ∃ ds, textOf (dotted (v :: vs)) = c :: ds := by
        cases vs <;> simp [dotted, word, hc]
      refine ⟨word_stands (h w (by simp)) ?_, .inr rfl, ?_, .inr rfl, hlater⟩
      · intro d hd
        obtain rfl := Option.some.inj hd
        rfl
      · rw [hds, List.cons_append]
        exact dot_stands hstart

theorem names_dotted (hne : words ≠ []) (h : ∀ w ∈ words, (Token.word w).Occurs) :
    Names (".".intercalate words) (dotted words) where
  text := textOf_dotted
  clean := clean_dotted hne h nofun
  ne_nil := by
    rcases words with _ | ⟨w, _ | _⟩ <;> simp_all [dotted]
  tokens := by
    clear hne h
    induction words with
    | nil => nofun
    | cons w ws ih =>
      cases ws with
      | nil =>
        intro x hx
        obtain rfl := List.mem_singleton.mp hx
        exact ⟨_, rfl, rfl⟩
      | cons v vs =>
        intro x hx
        rcases List.mem_cons.mp hx with rfl | hx
        · exact ⟨_, rfl, rfl⟩
        · rcases List.mem_cons.mp hx with rfl | hx
          · exact ⟨_, rfl, rfl⟩
          · exact ih x hx

theorem names_of_isDottedName (h : IsDottedName name) : ∃ ws, Names name ws := by
  obtain ⟨words, hne, rfl, hwords⟩ := h
  exact ⟨_, names_dotted hne hwords⟩

theorem occurs_using : (Token.word "using").Occurs := occurs_word rfl rfl (List.all_eq_true.mp (by decide))

theorem occurs_namespace : (Token.word "namespace").Occurs := occurs_word rfl rfl (List.all_eq_true.mp (by decide))

theorem blank_stands (h : isSpace c = false) : blank.Stands (c :: after) := by
  refine ⟨' ', [], rfl, ?_⟩
  change Token.piece ' ' (c :: after) = (.trivia, 1)
  unfold Token.piece
  rw [if_pos (show isSpace ' ' = true from rfl), run, List.takeWhile_cons_of_pos, List.takeWhile_cons_of_neg (by simp [h])]
  · rfl
  · rfl

/-- Marks with which no longer mark begins. -/
theorem mark_stands {m : Mark}
    (h : m ∈ [Mark.assign, .lparen, .rparen, .lbracket, .rbracket, .comma, .semicolon]) :
    (mark m).Stands after := by
  simp only [List.mem_cons, List.not_mem_nil, or_false] at h
  rcases h with rfl | rfl | rfl | rfl | rfl | rfl | rfl
  · exact ⟨'=', [], rfl, rfl⟩
  · exact ⟨'(', [], rfl, rfl⟩
  · exact ⟨')', [], rfl, rfl⟩
  · exact ⟨'[', [], rfl, rfl⟩
  · exact ⟨']', [], rfl, rfl⟩
  · exact ⟨',', [], rfl, rfl⟩
  · exact ⟨';', [], rfl, rfl⟩

theorem newline_stands : newline.Stands after := ⟨'\n', [], rfl, rfl⟩

/-- No token starts with a blank. -/
theorem Stands.start {v : Chunk} {t : Token} (h : v.Stands after) (hv : v.piece = .token t) :
    ∃ c cs, v.text = c :: cs ∧ isSpace c = false := by
  obtain ⟨c, cs, hc, hp⟩ := h
  refine ⟨c, cs, hc, ?_⟩
  cases hs : isSpace c with
  | false => rfl
  | true =>
    unfold Token.piece at hp
    rw [if_pos hs, hv] at hp
    exact absurd (Prod.mk.inj hp).1 nofun

theorem Names.start (h : Names name ws) : ∃ c cs, textOf ws = c :: cs ∧ isSpace c = false := by
  have hclean := h.clean
  obtain ⟨w, us, rfl⟩ := List.exists_cons_of_ne_nil h.ne_nil
  obtain ⟨t, ht, -⟩ := h.tokens w (by simp)
  obtain ⟨c, cs, hc, hspace⟩ := hclean.1.start ht
  exact ⟨c, cs ++ textOf us, by rw [textOf_cons, hc, List.cons_append], hspace⟩

/-- Nothing that follows a line belongs to it. -/
theorem Names.clean_usingLine (h : Names name ws) (after : List Char) :
    Clean (usingLine ws) after := by
  obtain ⟨c, cs, hc, hspace⟩ := h.start
  have hrow : Clean ws (';' :: '\n' :: after) := by
    refine h.clean.neutral (fun w hw => ?_) (neutral_cons.mpr (by decide))
    obtain ⟨t, ht, -⟩ := h.tokens w (List.mem_of_getLast? hw)
    simp [isGap, ht]
  have hend : Clean (ws ++ [mark .semicolon, newline]) after :=
    clean_append.mpr ⟨hrow, mark_stands (by simp), .inr rfl, newline_stands, .inr rfl, trivial⟩
  refine ⟨word_stands occurs_using ?_, .inr rfl, blank_stands rfl, .inl rfl,
    word_stands occurs_namespace ?_, .inr rfl, ?_, .inl rfl, hend⟩
  · rintro _ ⟨⟩
    rfl
  · rintro _ ⟨⟩
    rfl
  · change blank.Stands (textOf (ws ++ [mark .semicolon, newline]) ++ after)
    rw [textOf_append, hc]
    exact blank_stands hspace

theorem size_usingLine (h : Names name ws) :
    Text.size (textOf (usingLine ws)) = 18 + Text.size name.toList := by
  rw [usingLine, textOf_append, textOf_append, Text.size_append, Text.size_append, h.text,
    Nat.add_right_comm]
  rfl

/-- The chunks are a line for each of the names. -/
inductive Lines : List String → List Chunk → Prop
  | nil : Lines [] []
  | cons {name names ws vs} : Names name ws → Lines names vs →
      Lines (name :: names) (usingLine ws ++ vs)

theorem exists_lines {names : List String} (h : ∀ name ∈ names, IsDottedName name) :
    ∃ vs, Lines names vs := by
  induction names with
  | nil => exact ⟨[], .nil⟩
  | cons name names ih =>
    obtain ⟨ws, hws⟩ := names_of_isDottedName (h name (by simp))
    obtain ⟨vs, hvs⟩ := ih fun name hname => h name (by simp [hname])
    exact ⟨_, .cons hws hvs⟩

namespace Lines

variable {names : List String} {vs : List Chunk}

theorem textOf_eq (h : Lines names vs) : textOf vs =
    (String.join (names.map fun name => "using namespace " ++ name ++ ";\n")).toList := by
  induction h with
  | nil => rfl
  | cons hws _ ih =>
    rw [textOf_append, ih, List.map_cons, String.join_cons, String.toList_append, usingLine,
      textOf_append, textOf_append, hws.text]
    simp [word, mark, blank, newline, Mark.text]

theorem clean (h : Lines names vs) (after : List Char) : Clean vs after := by
  induction h with
  | nil => trivial
  | cons hws _ ih => exact clean_append.mpr ⟨hws.clean_usingLine _, ih⟩

end Lines

end Chunk

end ScriptInject
