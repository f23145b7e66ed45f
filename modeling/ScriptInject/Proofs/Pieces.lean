import ScriptInject.Proofs.Layout
import ScriptInject.Token.Lexeme
/-! The pieces that a text is cut into: what a piece covers lies in the text. -/
namespace ScriptInject.Token

variable {p : Char → Bool} {c : Char} {cs rest : List Char} {n : Nat} {t : Token} {x : Piece}

theorem run_le : run p cs ≤ cs.length := (List.takeWhile_prefix p).length_le

theorem run_pos (h : p c = true) : 0 < run p (c :: cs) := by
  simp [run, h]

theorem digitsAfter_le : digitsAfter n cs ≤ cs.length := by
  unfold digitsAfter
  have h : run Char.isDigit (cs.drop n) ≤ (cs.drop n).length := run_le
  rw [List.length_drop] at h
  cases hk : run Char.isDigit (cs.drop n) <;> simp only
  · exact Nat.zero_le _
  · omega

theorem fractionLength_le : fractionLength cs ≤ cs.length := by
  unfold fractionLength
  split
  · exact digitsAfter_le
  · exact Nat.zero_le _

theorem exponentLength_le : exponentLength cs ≤ cs.length := by
  unfold exponentLength
  split
  · split
    · split <;> exact digitsAfter_le
    · exact Nat.zero_le _
  · exact Nat.zero_le _

theorem suffixLength_le : suffixLength cs ≤ cs.length := by
  unfold suffixLength
  split
  · rename_i c cs
    simp only [List.length_cons]
    split
    · omega
    · split
      · cases cs <;> simp only [List.length_cons]
        · omega
        · split <;> omega
      · omega
  · exact Nat.zero_le _

theorem decimalLength_le : decimalLength cs ≤ cs.length := by
  unfold decimalLength
  have h₁ : run Char.isDigit cs ≤ cs.length := run_le
  have h₂ : fractionLength (cs.drop (run Char.isDigit cs)) ≤ (cs.drop (run Char.isDigit cs)).length := fractionLength_le
  have h₃ (k : Nat) : exponentLength (cs.drop k) ≤ (cs.drop k).length := exponentLength_le
  have h₄ (k : Nat) : suffixLength (cs.drop k) ≤ (cs.drop k).length := suffixLength_le
  simp only [List.length_drop] at h₂ h₃ h₄
  grind

theorem hexLength_le : hexLength cs ≤ cs.length := by
  unfold hexLength
  split
  · rename_i x cs
    have h : run isHexDigit cs ≤ cs.length := run_le
    split
    · split
      · exact Nat.zero_le _
      · split
        · rename_i l _ hd
          have hl := congrArg List.length hd
          simp only [List.length_drop, List.length_cons] at hl
          split <;> simp only [List.length_cons] <;> omega
        · simp only [List.length_cons]
          omega
    · exact Nat.zero_le _
  · exact Nat.zero_le _

theorem scopedNameLength_le : scopedNameLength cs ≤ cs.length := by
  have h : run isNamePart cs ≤ cs.length := run_le
  simp only [scopedNameLength]
  split
  · rename_i rest hd
    have hl := congrArg List.length hd
    have hr : run isNamePart rest ≤ rest.length := run_le
    simp only [List.length_drop, List.length_cons] at hl
    split <;> omega
  · exact h

theorem find?_le {pattern : List Char} (h : Text.find? pattern cs = some n) :
    n + pattern.length ≤ cs.length := by
  induction cs generalizing n with
  | nil =>
    unfold Text.find? at h
    split at h
    · rename_i hp
      obtain rfl := Option.some.inj h
      simp [List.isEmpty_iff.mp hp]
    · exact absurd h nofun
  | cons c cs ih =>
    unfold Text.find? at h
    split at h
    · rename_i hp
      obtain rfl := Option.some.inj h
      have := (List.isPrefixOf_iff_prefix.mp hp).length_le
      omega
    · obtain ⟨m, hm, rfl⟩ := Option.map_eq_some_iff.mp h
      have := ih hm
      simp only [List.length_cons]
      omega

theorem singleQuotedBody_le {value : List Char} (h : singleQuotedBody cs = some (value, n)) :
    n ≤ cs.length := by
  fun_induction singleQuotedBody cs generalizing value n with
  | case1 cs ih =>
    obtain ⟨⟨v, m⟩, hm, he⟩ := Option.map_eq_some_iff.mp h
    have := ih hm
    simp only [Prod.mk.injEq] at he
    simp only [List.length_cons]
    omega
  | case2 cs => simp_all
  | case3 c cs _ _ ih =>
    obtain ⟨⟨v, m⟩, hm, he⟩ := Option.map_eq_some_iff.mp h
    have := ih hm
    simp only [Prod.mk.injEq] at he
    simp only [List.length_cons]
    omega
  | case4 => exact absurd h nofun

theorem after_eq_closed {e : QuoteEnd} {k : Nat} (h : e.after k = .closed n) :
    ∃ m, e = .closed m ∧ n = m + k := by
  cases e <;> simp_all [QuoteEnd.after]

theorem doubleQuotedEnd_le (h : doubleQuotedEnd cs = .closed n) : n ≤ cs.length := by
  fun_induction doubleQuotedEnd cs generalizing n with
  | case1 _ cs ih =>
    obtain ⟨m, hm, rfl⟩ := after_eq_closed h
    have := ih hm
    simp only [List.length_cons]
    omega
  | case2 => exact absurd h nofun
  | case3 cs ih =>
    obtain ⟨m, hm, rfl⟩ := after_eq_closed h
    have := ih hm
    simp only [List.length_cons]
    omega
  | case4 cs =>
    obtain rfl := QuoteEnd.closed.inj h
    simp
  | case5 c cs _ _ _ _ ih =>
    obtain ⟨m, hm, rfl⟩ := after_eq_closed h
    have := ih hm
    simp only [List.length_cons]
    omega
  | case6 => exact absurd h nofun

theorem hereString_le {quote : Char} {value : List Char}
    (h : hereString quote rest = some (value, n)) : 2 ≤ n ∧ n ≤ rest.length + 2 := by
  delta hereString guard at h
  simp only [Option.bind_eq_bind, Option.bind_eq_some_iff, Option.pure_def,
    Option.some.injEq, Prod.mk.injEq] at h
  obtain ⟨header, hheader, _, _, length, hlength, -, rfl⟩ := h
  have h₁ := find?_le hheader
  have h₂ := find?_le hlength
  simp only [List.length_cons, List.length_nil, List.length_drop] at h₁ h₂
  omega

/-- Pieces that belong to a text that can be read. -/
def Piece.IsRead : Piece → Prop
  | .token _ | .trivia => True
  | _ => False

theorem ofMark_eq {m : Mark} (h : ofMark m = (x, n)) :
    x = .token (.mark m) ∧ n = m.text.length := by
  simp only [ofMark, Prod.mk.injEq] at h
  exact ⟨h.1.symm, h.2.symm⟩

theorem mark_length_pos (m : Mark) : 0 < m.text.length := by
  cases m <;> decide

theorem ofMarks_le {ms : List Mark} (h : ofMarks cs ms = (x, n)) (hx : x.IsRead) :
    0 < n ∧ n ≤ cs.length := by
  unfold ofMarks at h
  split at h
  · rename_i m hm
    obtain ⟨rfl, rfl⟩ := ofMark_eq h
    have hp := List.find?_some hm
    have := (List.isPrefixOf_iff_prefix.mp hp).length_le
    rw [String.length_toList] at this
    exact ⟨mark_length_pos m, this⟩
  · obtain ⟨rfl, -⟩ := Prod.mk.inj h
    exact hx.elim

theorem scanDollar_le (h : scanDollar rest = (x, n)) (hx : x.IsRead) :
    0 < n ∧ n ≤ rest.length + 1 := by
  unfold scanDollar at h
  split at h
  · obtain ⟨rfl, rfl⟩ := ofMark_eq h
    rw [show Mark.dollarParen.text.length = 2 from rfl]
    simp
  · rename_i body
    have : run (· != '\x7d') body ≤ body.length := run_le
    grind [Piece.IsRead]
  · rename_i c cs _ _
    have : scopedNameLength (c :: cs) ≤ (c :: cs).length := scopedNameLength_le
    grind [Piece.IsRead]
  · grind [Piece.IsRead]

theorem scanAt_le (h : scanAt rest = (x, n)) (hx : x.IsRead) :
    0 < n ∧ n ≤ rest.length + 1 := by
  unfold scanAt at h
  split at h
  · obtain ⟨rfl, rfl⟩ := ofMark_eq h
    rw [show Mark.atParen.text.length = 2 from rfl]
    simp
  · obtain ⟨rfl, rfl⟩ := ofMark_eq h
    rw [show Mark.atBrace.text.length = 2 from rfl]
    simp
  · unfold scanHereString at h
    split at h
    · rename_i value m hm
      have := hereString_le hm
      grind
    · grind [Piece.IsRead]
  · unfold scanHereString at h
    split at h
    · rename_i value m hm
      have := hereString_le hm
      grind
    · grind [Piece.IsRead]
  · rename_i c cs _ _ _ _
    have : run isNamePart (c :: cs) ≤ (c :: cs).length := run_le
    grind [Piece.IsRead]
  · grind [Piece.IsRead]

theorem scanDash_le (h : scanDash rest = (x, n)) (hx : x.IsRead) :
    0 < n ∧ n ≤ rest.length + 1 := by
  unfold scanDash at h
  split at h
  · rename_i c cs
    have hrun : run isNamePart (c :: cs) ≤ (c :: cs).length := run_le
    split at h
    · simp only [ofPrefix, Prod.mk.injEq] at h
      obtain ⟨-, rfl⟩ := h
      split
      · rename_i hd
        have := congrArg List.length hd
        simp only [List.length_drop, List.length_cons] at this hrun ⊢
        omega
      · simp only [List.length_cons] at hrun ⊢
        omega
    · exact ofMarks_le h hx
  · obtain ⟨rfl, rfl⟩ := ofMark_eq h
    exact ⟨mark_length_pos _, Nat.le_refl _⟩

theorem scanAngle_le (h : scanAngle rest = (x, n)) (hx : x.IsRead) :
    0 < n ∧ n ≤ rest.length + 1 := by
  unfold scanAngle at h
  split at h
  · rename_i body
    split at h
    · rename_i m hm
      have := find?_le hm
      grind
    · grind [Piece.IsRead]
  · grind [Piece.IsRead]

theorem scanBacktick_le (h : scanBacktick rest = (x, n)) (hx : x.IsRead) :
    0 < n ∧ n ≤ rest.length + 1 := by
  unfold scanBacktick at h
  split at h <;> grind [Piece.IsRead]

theorem scanNumber_le (hc : c.isDigit = true) (h : scanNumber (c :: rest) = (x, n)) :
    0 < n ∧ n ≤ rest.length + 1 := by
  simp only [scanNumber, ofPrefix, Prod.mk.injEq] at h
  obtain ⟨-, rfl⟩ := h
  have h₁ : decimalLength (c :: rest) ≤ (c :: rest).length := decimalLength_le
  have h₂ : hexLength (c :: rest) ≤ (c :: rest).length := hexLength_le
  have h₃ : 0 < run Char.isDigit (c :: rest) := run_pos hc
  have h₄ : run Char.isDigit (c :: rest) ≤ decimalLength (c :: rest) := by
    simp only [decimalLength]
    omega
  simp only [List.length_cons] at h₁ h₂
  omega

/-- A piece takes at least one character, and none that is not there. -/
theorem piece_le (h : piece c rest = (x, n)) (hx : x.IsRead) : 0 < n ∧ n ≤ rest.length + 1 := by
  unfold piece at h
  split at h
  · rename_i hc
    have h₁ : 0 < run isSpace (c :: rest) := run_pos hc
    have h₂ : run isSpace (c :: rest) ≤ (c :: rest).length := run_le
    grind
  split at h
  · rename_i _ hc
    simp only [ofPrefix, Prod.mk.injEq] at h
    obtain ⟨-, rfl⟩ := h
    have hw : isWordPart c = true := by
      simp_all [isWordPart, isNamePart, isNameStart, Char.isAlphanum]
      grind
    exact ⟨run_pos hw, run_le⟩
  split at h
  · rename_i _ _ hc
    exact scanNumber_le hc h
  split at h
  · grind
  · have : run (· != '\n') rest ≤ rest.length := run_le
    grind
  · exact scanBacktick_le h hx
  · exact scanAngle_le h hx
  · exact scanDollar_le h hx
  · exact scanAt_le h hx
  · exact scanDash_le h hx
  · split at h
    · rename_i value m hm
      have := singleQuotedBody_le hm
      grind
    · grind [Piece.IsRead]
  · split at h
    · rename_i m hm
      have := doubleQuotedEnd_le hm
      grind
    · grind [Piece.IsRead]
  · exact ofMarks_le h hx

end ScriptInject.Token

namespace ScriptInject.Lexeme
open Token Chunk

variable {cs : List Char} {ls : List Lexeme} {start steps : Nat} {ws : List Chunk}

theorem mapM_id_cons {e : Except ParseError Lexeme} {es : List (Except ParseError Lexeme)} :
    (e :: es).mapM id = .ok ls ↔ ∃ l ls', e = .ok l ∧ es.mapM id = .ok ls' ∧ ls = l :: ls' := by
  rw [List.mapM_cons]
  cases e with
  | error e => simp [bind, Except.bind]
  | ok l =>
    cases es.mapM id with
    | error e => simp [bind, Except.bind]
    | ok ls' => simp [bind, Except.bind, pure, Except.pure, eq_comm]

/-- A text that can be read is a row of chunks. -/
theorem chunks_of_cutsFrom (hs : cs.length ≤ steps)
    (h : ((cutsFrom steps start cs).filterMap Cut.reading?).mapM id = .ok ls) :
    ∃ ws, textOf ws = cs ∧ Clean ws [] ∧ ls = lexemes start ws := by
  induction steps generalizing start cs ls with
  | zero =>
    obtain rfl := List.eq_nil_of_length_eq_zero (Nat.le_zero.mp hs)
    refine ⟨[], rfl, trivial, ?_⟩
    simpa [cutsFrom, pure, Except.pure, eq_comm] using h
  | succ steps ih =>
    cases cs with
    | nil =>
      refine ⟨[], rfl, trivial, ?_⟩
      simpa [cutsFrom, pure, Except.pure, eq_comm] using h
    | cons c rest =>
      rcases hp : piece c rest with ⟨x, n⟩
      simp only [cutsFrom, hp] at h
      have build (hx : x.IsRead) {ls'} (h' : ((cutsFrom steps
          (start + Text.size ((c :: rest).take n)) ((c :: rest).drop n)).filterMap
            Cut.reading?).mapM id = .ok ls') :
          ∃ ws, textOf (⟨x, (c :: rest).take n⟩ :: ws) = c :: rest ∧
            Clean (⟨x, (c :: rest).take n⟩ :: ws) [] ∧
            ls' = lexemes (start + Text.size ((c :: rest).take n)) ws := by
        have hn := piece_le hp hx
        have hlen : ((c :: rest).drop n).length ≤ steps := by
          simp only [List.length_drop, List.length_cons] at hs ⊢
          omega
        obtain ⟨ws, htext, hclean, rfl⟩ := ih hlen h'
        refine ⟨ws, ?_, ⟨?_, ?_, hclean⟩, rfl⟩
        · simp [htext]
        · obtain ⟨m, rfl⟩ : ∃ m, n = m + 1 := ⟨n - 1, by omega⟩
          refine ⟨c, rest.take m, rfl, ?_⟩
          simp only [List.drop_succ_cons] at htext
          simp only [htext, List.append_nil, List.take_append_drop, hp, List.length_take,
            List.length_cons]
          congr 1
          omega
        · cases x <;> simp_all [Piece.IsRead, isGap, token?]
      cases x with
      | token t =>
        obtain ⟨l, ls', hl, hls, rfl⟩ := mapM_id_cons.mp h
        obtain ⟨ws, htext, hclean, rfl⟩ := build trivial hls
        refine ⟨_, htext, hclean, ?_⟩
        obtain rfl := Except.ok.inj hl
        simp [lexemes_cons, token?, Cut.span]
      | trivia =>
        obtain ⟨ws, htext, hclean, rfl⟩ := build trivial h
        exact ⟨_, htext, hclean, by simp [lexemes_cons, token?]⟩
      | invalid =>
        obtain ⟨l, ls', hl, -⟩ := mapM_id_cons.mp h
        cases hl
      | unclosed d =>
        obtain ⟨l, ls', hl, -⟩ := mapM_id_cons.mp h
        cases hl

theorem chunks_of_ofText? (h : ofText? cs = .ok ls) :
    ∃ ws, textOf ws = cs ∧ Clean ws [] ∧ ls = lexemes 0 ws :=
  chunks_of_cutsFrom (Nat.le_refl _) h

theorem cutsFrom_of_clean (hs : (textOf ws).length ≤ steps) (h : Clean ws []) :
    ((cutsFrom steps start (textOf ws)).filterMap Cut.reading?).mapM id =
      .ok (lexemes start ws) := by
  induction ws generalizing start steps with
  | nil => cases steps <;> rfl
  | cons w ws ih =>
    obtain ⟨⟨c, cs, hw, hp⟩, hread, hws⟩ := h
    rw [List.append_nil] at hp
    rw [textOf_cons] at hs ⊢
    cases steps with
    | zero => simp [hw] at hs
    | succ steps =>
      have hlen : (textOf ws).length ≤ steps := by
        simp only [hw, List.length_append, List.length_cons] at hs
        omega
      have hih := @ih (start + Text.size w.text) _ hlen hws
      have hcut : cutsFrom (steps + 1) start (w.text ++ textOf ws) =
          ⟨w.piece, w.text, start⟩ ::
            cutsFrom steps (start + Text.size w.text) (textOf ws) := by
        have hcons : w.text ++ textOf ws = c :: (cs ++ textOf ws) := by rw [hw, List.cons_append]
        rw [hcons, cutsFrom, hp, ← hcons]
        simp only [List.take_left, List.drop_left]
      rw [hcut]
      cases hpiece : w.piece with
      | token t =>
        refine mapM_id_cons.mpr ⟨_, _, rfl, hih, ?_⟩
        simp [lexemes_cons, token?, hpiece, Cut.span]
      | trivia =>
        rw [List.filterMap_cons_none rfl, hih]
        simp [lexemes_cons, token?, hpiece]
      | invalid => simp [isGap, token?, hpiece] at hread
      | unclosed d => simp [isGap, token?, hpiece] at hread

/-- A clean row of chunks is how its text is read. -/
theorem ofText?_of_clean (h : Clean ws []) : ofText? (textOf ws) = .ok (lexemes 0 ws) :=
  cutsFrom_of_clean (Nat.le_refl _) h

end ScriptInject.Lexeme
