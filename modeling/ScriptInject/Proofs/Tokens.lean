import ScriptInject.Proofs.Munch
/-! What a token says of the text it was read from. -/
namespace ScriptInject.Token

variable {c : Char} {rest : List Char} {n : Nat} {t : Token}

theorem isRead_token (t : Token) : (Piece.token t).IsRead := trivial

/-- How a token stands at the start of a text. -/
def Found (c : Char) (rest : List Char) (n : Nat) : Token → Prop
  | .variableName path => c = '$' ∧ scanDollar rest = (.token (.variableName path), n)
  | .splat name => c = '@' ∧ scanAt rest = (.token (.splat name), n)
  | .number text => c.isDigit = true ∧ text = String.ofList ((c :: rest).take n)
  | .singleQuoted value =>
    c = '\x27' ∧ scanSingleQuoted rest = (.token (.singleQuoted value), n)
  | .doubleQuoted body => c = '\x22' ∧ scanDoubleQuoted rest = (.token (.doubleQuoted body), n)
  | .singleHereString value => c = '@' ∧ scanAt rest = (.token (.singleHereString value), n)
  | .doubleHereString value => c = '@' ∧ scanAt rest = (.token (.doubleHereString value), n)
  | .word text => isNameStart c = true ∧ text = String.ofList ((c :: rest).take n)
  | .dashWord text => c = '-' ∧ text = String.ofList ((c :: rest).take n)
  | .newline => c = '\n' ∧ n = 1
  | .mark m => m.text.toList = (c :: rest).take n

theorem found_ofMarks {ms : List Mark} (h : ofMarks (c :: rest) ms = (.token t, n)) :
    Found c rest n t := by
  obtain ⟨m, us, vs, -, ht, rfl, hp, -⟩ := (ofMarks_eq_read (isRead_token _)).mp h
  obtain rfl := Piece.token.inj ht
  obtain ⟨ds, hd⟩ := List.isPrefixOf_iff_prefix.mp hp
  rw [Found, ← hd, ← String.length_toList, List.take_left]

theorem found_scanDollar (h : scanDollar rest = (.token t, n)) : Found '$' rest n t := by
  have hs := h
  rw [scanDollar_eq] at h
  split at h
  · rename_i hp
    simp only [Prod.mk.injEq, Piece.token.injEq] at h
    obtain ⟨rfl, rfl⟩ := h
    cases rest <;> simp_all [Found, Mark.text]
  split at h
  · cases rest with
    | nil => exact absurd (congrArg Prod.fst h) nofun
    | cons d ds =>
      obtain ⟨-, -, ht, -⟩ := (scanBraced_eq_read (isRead_token _)).mp h
      obtain rfl := Piece.token.inj ht
      exact ⟨rfl, hs⟩
  split at h
  · simp only [Prod.mk.injEq, Piece.token.injEq] at h
    obtain ⟨rfl, -⟩ := h
    exact ⟨rfl, hs⟩
  · unfold scanSpecial at h
    split at h
    · split at h
      · simp only [Prod.mk.injEq, Piece.token.injEq] at h
        obtain ⟨rfl, -⟩ := h
        exact ⟨rfl, hs⟩
      · exact absurd (congrArg Prod.fst h) nofun
    · exact absurd (congrArg Prod.fst h) nofun

theorem found_scanAt (h : scanAt rest = (.token t, n)) : Found '@' rest n t := by
  have hs := h
  rw [scanAt_eq] at h
  split at h
  · simp only [Prod.mk.injEq, Piece.token.injEq] at h
    obtain ⟨rfl, rfl⟩ := h
    cases rest <;> simp_all [Found, Mark.text]
  split at h
  · simp only [Prod.mk.injEq, Piece.token.injEq] at h
    obtain ⟨rfl, rfl⟩ := h
    cases rest <;> simp_all [Found, Mark.text]
  split at h
  · obtain ⟨value, -, ht⟩ := (scanHereString_eq_read (isRead_token _)).mp h
    obtain rfl := Piece.token.inj ht
    exact ⟨rfl, hs⟩
  split at h
  · obtain ⟨value, -, ht⟩ := (scanHereString_eq_read (isRead_token _)).mp h
    obtain rfl := Piece.token.inj ht
    exact ⟨rfl, hs⟩
  split at h
  · simp only [Prod.mk.injEq, Piece.token.injEq] at h
    obtain ⟨rfl, -⟩ := h
    exact ⟨rfl, hs⟩
  · exact absurd (congrArg Prod.fst h) nofun

theorem found_scanDash (h : scanDash rest = (.token t, n)) : Found '-' rest n t := by
  rw [scanDash_eq] at h
  split at h
  · simp only [Prod.mk.injEq, Piece.token.injEq] at h
    obtain ⟨rfl, rfl⟩ := h
    exact ⟨rfl, by rw [List.take_succ_cons]⟩
  · exact found_ofMarks h

theorem found_piece (h : piece c rest = (.token t, n)) : Found c rest n t := by
  unfold piece at h
  split at h
  · cases h
  split at h
  · rename_i hc
    simp only [ofPrefix, Prod.mk.injEq, Piece.token.injEq] at h
    obtain ⟨rfl, rfl⟩ := h
    exact ⟨hc, rfl⟩
  split at h
  · rename_i hc
    simp only [scanNumber, ofPrefix, Prod.mk.injEq, Piece.token.injEq] at h
    obtain ⟨rfl, rfl⟩ := h
    exact ⟨hc, rfl⟩
  split at h
  · simp only [Prod.mk.injEq, Piece.token.injEq] at h
    obtain ⟨rfl, rfl⟩ := h
    exact ⟨rfl, rfl⟩
  · cases h
  · unfold scanBacktick at h
    split at h <;> cases h
  · unfold scanAngle at h
    split at h
    · split at h <;> cases h
    · cases h
  · exact found_scanDollar h
  · exact found_scanAt h
  · exact found_scanDash h
  · have hs : scanSingleQuoted rest = (.token t, n) := h
    split at h
    · simp only [Prod.mk.injEq, Piece.token.injEq] at h
      obtain ⟨rfl, -⟩ := h
      exact ⟨rfl, hs⟩
    · cases h
  · have hs : scanDoubleQuoted rest = (.token t, n) := h
    split at h
    · simp only [Prod.mk.injEq, Piece.token.injEq] at h
      obtain ⟨rfl, -⟩ := h
      exact ⟨rfl, hs⟩
    · cases h
  · exact found_ofMarks h

end ScriptInject.Token

namespace ScriptInject.Chunk
open Token

variable {v w : Chunk} {vs ws : List Chunk} {text : List Char} {t : Token}

/-- There is only one way to read a text. -/
theorem clean_unique (hv : Clean vs []) (hw : Clean ws []) (h : textOf vs = textOf ws) :
    vs = ws := by
  induction vs generalizing ws with
  | nil =>
    cases ws with
    | nil => rfl
    | cons w ws =>
      obtain ⟨⟨c, cs, hc, -⟩, -⟩ := hw
      simp [hc] at h
  | cons v vs ih =>
    obtain ⟨⟨c, cs, hc, hp⟩, -, hvs⟩ := hv
    cases ws with
    | nil => simp [hc] at h
    | cons w ws =>
      obtain ⟨⟨d, ds, hd, hq⟩, -, hws⟩ := hw
      simp only [textOf_cons, hc, hd, List.cons_append, List.cons.injEq, List.append_nil]
        at h hp hq
      obtain ⟨rfl, h⟩ := h
      have hpq := hp.symm.trans (h ▸ hq)
      simp only [Prod.mk.injEq, List.length_cons, Nat.add_right_cancel_iff] at hpq
      obtain ⟨hpiece, hlen⟩ := hpq
      obtain ⟨rfl, htail⟩ := List.append_inj h hlen
      have hvw : v = w := by
        cases v
        cases w
        simp_all
      rw [hvw, ih hvs hws htail]

theorem occurs_iff : t.Occurs ↔ ∃ text, Clean [⟨.token t, text⟩] [] := by
  constructor
  · rintro ⟨c, rest, n, h⟩
    obtain ⟨hpos, hle⟩ := piece_le h (isRead_token t)
    obtain ⟨m, rfl⟩ : ∃ m, n = m + 1 := ⟨n - 1, by omega⟩
    have htake : (rest.take m).length = m := by
      rw [List.length_take]
      omega
    refine ⟨c :: rest.take m, ⟨c, rest.take m, rfl, ?_⟩, .inr rfl, trivial⟩
    rw [← List.take_append_drop m rest] at h
    simp only [textOf_nil, List.append_nil, List.length_cons, htake]
    exact (settles_piece c).cut h (isRead_token t) (by omega)
  · rintro ⟨text, ⟨c, cs, -, h⟩, -⟩
    exact ⟨c, _, _, h⟩

theorem Stands.found {after : List Char} (h : w.Stands after) (hw : w.piece = .token t) :
    ∃ c cs, w.text = c :: cs ∧ Found c (cs ++ after) (cs.length + 1) t := by
  obtain ⟨c, cs, hc, hp⟩ := h
  rw [hw, hc] at hp
  exact ⟨c, cs, hc, found_piece hp⟩

theorem Stands.word_text {after : List Char} {word : String} (h : w.Stands after)
    (hw : w.piece = .token (.word word)) : w.text = word.toList := by
  obtain ⟨c, cs, hc, -, ht⟩ := h.found hw
  rw [ht, hc, String.toList_ofList, ← List.cons_append, ← List.length_cons, List.take_left]

end ScriptInject.Chunk

namespace ScriptInject.Token

variable {word keyword : String}

theorem isSpace_of_isNameStart {c : Char} (h : isNameStart c = true) : isSpace c = false := by
  cases hs : isSpace c with
  | false => rfl
  | true =>
    simp only [isSpace, Bool.or_eq_true, beq_iff_eq] at hs
    rcases hs with ((rfl | rfl) | rfl) | rfl <;> exact absurd h (by decide)

theorem piece_of_isNameStart {c : Char} (h : isNameStart c = true) (rest : List Char) :
    piece c rest = ofPrefix .word (c :: rest) (run isWordPart (c :: rest)) := by
  unfold piece
  rw [if_neg (by rw [isSpace_of_isNameStart h]; exact Bool.false_ne_true), if_pos h]

theorem occurs_word {c : Char} {cs : List Char} (hw : word.toList = c :: cs)
    (hc : isNameStart c = true) (hcs : ∀ d ∈ cs, isWordPart d = true) :
    (Token.word word).Occurs := by
  have hpart : isWordPart c = true := by simp [isWordPart, isNamePart_of_isNameStart hc]
  have hall : ∀ d ∈ c :: cs, isWordPart d = true := by simpa [hpart] using hcs
  refine ⟨c, cs, (c :: cs).length, ?_⟩
  have hrun : run isWordPart (c :: cs) = (c :: cs).length := by
    have : (c :: cs ++ []).takeWhile isWordPart = c :: cs ++ [].takeWhile isWordPart :=
      List.takeWhile_append_of_pos hall
    rw [List.append_nil] at this
    rw [run, this]
    simp
  rw [piece_of_isNameStart hc, hrun, ofPrefix, List.take_length, ← hw, String.ofList_toList]

theorem isAlpha_of_toLower {c : Char} (h : c.toLower.isLower = true) : c.isAlpha = true := by
  change (c.isUpper || c.isLower) = true
  rw [Bool.or_eq_true]
  delta Char.toLower at h
  split at h
  · rename_i hu
    exact .inl (decide_eq_true hu)
  · exact .inr h

/-- What becomes no small letter is no letter. -/
theorem eq_of_toLower {c d : Char} (h : c.toLower = d) (hd : d.isLower = false) : c = d := by
  subst h
  have hA : 'A'.val.toNat = 65 := rfl
  have hZ : 'Z'.val.toNat = 90 := rfl
  have ha : 'a'.val.toNat = 97 := rfl
  have hz : 'z'.val.toNat = 122 := rfl
  have hstep : ('a'.val - 'A'.val).toNat = 32 := rfl
  delta Char.toLower at hd ⊢
  split
  · rename_i hupper
    rw [dif_pos hupper] at hd
    delta Char.isLower at hd
    simp only [ge_iff_le, UInt32.le_iff_toNat_le, Bool.and_eq_false_iff, decide_eq_false_iff_not,
      UInt32.toNat_add] at hupper hd
    omega
  · rfl

theorem isAlpha_of_caselessEq (h : Text.caselessEq word keyword = true)
    (hk : keyword.toList.all Char.isLower = true) : ∀ c ∈ word.toList, c.isAlpha = true := by
  have heq : word.toList.map Char.toLower = keyword.toList.map Char.toLower := by
    simpa [Text.caselessEq] using h
  have hkeep {c : Char} (hc : c.isLower = true) : c.toLower = c := by
    delta Char.toLower
    split
    · rename_i hu
      delta Char.isLower at hc
      simp only [Bool.and_eq_true, decide_eq_true_eq] at hc
      simp only [ge_iff_le, UInt32.le_iff_toNat_le] at hu hc
      have h1 : 'a'.val.toNat = 97 := rfl
      have h2 : 'Z'.val.toNat = 90 := rfl
      omega
    · rfl
  intro c hc
  have hmem : c.toLower ∈ keyword.toList.map Char.toLower := by
    rw [← heq]
    exact List.mem_map_of_mem hc
  obtain ⟨d, hd, hdc⟩ := List.mem_map.mp hmem
  have hlow := List.all_eq_true.mp hk d hd
  apply isAlpha_of_toLower
  rwa [← hdc, hkeep hlow]

theorem ne_nil_of_caselessEq (h : Text.caselessEq word keyword = true) (hne : keyword ≠ "") :
    word.toList ≠ [] := by
  intro hw
  have heq : word.toList.map Char.toLower = keyword.toList.map Char.toLower := by
    simpa [Text.caselessEq] using h
  rw [hw] at heq
  exact hne (String.toList_eq_nil_iff.mp (List.map_eq_nil_iff.mp heq.symm))

/-- A keyword in any case is a word. -/
theorem occurs_keyword (h : Text.caselessEq word keyword = true) (hne : keyword ≠ "")
    (hk : keyword.toList.all Char.isLower = true) : (Token.word word).Occurs := by
  have halpha := isAlpha_of_caselessEq h hk
  obtain ⟨c, cs, hw⟩ := List.exists_cons_of_ne_nil (ne_nil_of_caselessEq h hne)
  rw [hw] at halpha
  refine occurs_word hw ?_ fun d hd => ?_
  · simp [isNameStart, halpha c (by simp)]
  · simp [isWordPart, isNamePart, Char.isAlphanum, halpha d (by simp [hd])]

end ScriptInject.Token
