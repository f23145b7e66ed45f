import ScriptInject.Proofs.Cutting
/-! Strings are read back as they were written, whatever follows them but their own quote. -/
namespace ScriptInject

namespace Token

variable {cs : List Char} {steps steps' : Nat} {t : Token}

/-- The token is read in some text. -/
def Arises (t : Token) : Prop := ∃ source, ∃ l ∈ (Lexeme.ofBrokenText source).1, l.token = t

theorem Arises.occurs (h : t.Arises) : t.Occurs := by
  obtain ⟨source, l, hl, rfl⟩ := h
  obtain ⟨cut, hcut, hpiece, -⟩ := Lexeme.cut_of_mem hl
  obtain ⟨-, c, rest, n, -, hp, -, -⟩ := cut_stands hcut
  exact ⟨c, rest, n, by rw [hp, hpiece]⟩

/-- The same piece of a text with `n` more bytes in front. -/
def Cut.shift (n : Nat) (cut : Cut) : Cut := { cut with start := cut.start + n }

/-- The pieces do not depend on where the text starts, or on steps that are left over. -/
theorem cutsFrom_shift (start n : Nat) (hsteps : cs.length ≤ steps) (hsteps' : cs.length ≤ steps') :
    cutsFrom steps' (start + n) cs = (cutsFrom steps start cs).map (Cut.shift n) := by
  induction steps generalizing start steps' cs with
  | zero =>
    obtain rfl := List.eq_nil_of_length_eq_zero (Nat.le_zero.mp hsteps)
    cases steps' <;> rfl
  | succ steps ih =>
    cases cs with
    | nil => cases steps' <;> rfl
    | cons c rest =>
      simp only [List.length_cons] at hsteps hsteps'
      obtain ⟨steps', rfl⟩ : ∃ m, steps' = m + 1 := ⟨steps' - 1, by omega⟩
      rw [cutsFrom, cutsFrom]
      rcases hp : piece c rest with ⟨x, m⟩
      have hpos := piece_pos hp
      dsimp only
      rw [List.map_cons, Nat.add_right_comm, ih]
      · rfl
      · rw [List.length_drop, List.length_cons]
        omega
      · rw [List.length_drop, List.length_cons]
        omega

/-- What stands at the start of a text is cut off first. -/
theorem cuts_append {w : Chunk} {after : List Char} (hw : w.Stands after) :
    cuts (w.text ++ after) =
      ⟨w.piece, w.text, 0⟩ :: (cuts after).map (Cut.shift (Text.size w.text)) := by
  obtain ⟨c, rest, hc, hp⟩ := hw
  have htake : (c :: (rest ++ after)).take w.text.length = w.text := by
    rw [← List.cons_append, ← hc, List.take_left]
  have hdrop : (c :: (rest ++ after)).drop w.text.length = after := by
    rw [← List.cons_append, ← hc, List.drop_left]
  have hlength : after.length ≤ (rest ++ after).length := by
    rw [List.length_append]
    omega
  have hlater := cutsFrom_shift 0 (Text.size w.text) (Nat.le_refl after.length) hlength
  rw [cuts, hc, List.cons_append, List.length_cons, cutsFrom, hp]
  dsimp only
  rw [htake, hdrop, hlater, hc]
  rfl

end Token

namespace Lexeme
open Token

/-- What is read with `n` more bytes in front of it. -/
def shiftReading (n : Nat) : Except ParseError Lexeme → Except ParseError Lexeme
  | .ok l => .ok (l.shift n)
  | .error e => .error (e.shift n)

theorem reading?_shift (n : Nat) (cut : Cut) :
    (cut.shift n).reading? = cut.reading?.map (shiftReading n) := by
  obtain ⟨x, text, start⟩ := cut
  cases x with
  | token t =>
    simp [Cut.reading?, Cut.shift, Cut.span, shiftReading, shift, Span.shift, Nat.add_right_comm]
  | trivia => rfl
  | invalid => rfl
  | unclosed delimiter => rfl

/-- Behind a token, a text is read as if it stood alone. -/
theorem readings_append {w : Chunk} {after : List Char} {t : Token} (hw : w.Stands after)
    (ht : w.piece = .token t) : readings (w.text ++ after) =
      .ok ⟨t, ⟨0, Text.size w.text⟩⟩ :: (readings after).map (shiftReading (Text.size w.text)) := by
  have hfirst : (⟨w.piece, w.text, 0⟩ : Cut).reading? = some (.ok ⟨t, ⟨0, Text.size w.text⟩⟩) := by
    rw [Cut.reading?, ht, Cut.span, Nat.zero_add]
  rw [readings, cuts_append hw, List.filterMap_cons_some hfirst, List.filterMap_map, readings,
    List.map_filterMap]
  congr 2
  funext cut
  exact reading?_shift _ cut

end Lexeme

namespace Token

variable {quote : Char} {value : String} {after xs : List Char} {n : Nat}

theorem isQuotable_of_occurs (h : (Token.doubleQuoted value).Occurs) : IsQuotable value.toList := by
  obtain ⟨c, cs, n, hp⟩ := h
  obtain ⟨n, rfl⟩ := exists_succ_of_piece hp
  obtain ⟨rfl, hscan⟩ := found_piece hp
  obtain ⟨body, rest, -, -, hbody, -, ht⟩ := (scanDoubleQuoted_eq_read (isRead_token _)).mp hscan
  obtain rfl := Token.doubleQuoted.inj (Piece.token.inj ht)
  rwa [String.toList_ofList]

/-- The text holds no line that begins with the end of a here-string. -/
def IsEnclosable (quote : Char) (value : List Char) : Prop :=
  ¬ ['\n', quote, '@'] <:+: '\n' :: value

theorem isEnclosable_of_hereString {value : List Char} (h : hereString quote xs = some (value, n)) :
    IsEnclosable quote value := by
  obtain ⟨header, length, hheader, -, hlength, rfl, -⟩ := hereString_eq.mp h
  obtain ⟨blanks, line, rfl, rfl, -⟩ := (find?_eq_some_iff (List.cons_ne_nil _ _)).mp hheader
  rw [List.append_assoc, List.drop_left] at hlength ⊢
  obtain ⟨before, behind, hbody, rfl, hnone⟩ :=
    (find?_eq_some_iff (List.cons_ne_nil _ _)).mp hlength
  rw [hbody, List.append_assoc, List.take_left]
  cases before with
  | nil => simp [IsEnclosable, List.infix_cons_iff]
  | cons c lines =>
    obtain rfl : c = '\n' := by simpa using (congrArg List.head? hbody).symm
    -- a carriage return may be missing at the end of the lines
    have hvalue : (if lines.getLast? = some '\x0d' then lines.dropLast else lines) <+: lines := by
      split
      · exact List.dropLast_prefix lines
      · exact List.prefix_rfl
    intro hin
    refine hnone (hin.trans (List.IsPrefix.isInfix ?_))
    exact ((List.prefix_cons_inj _).mpr hvalue).trans (List.prefix_append _ _)

/-- The last character of a pattern is where it ends. -/
theorem infix_of_concat {pattern : List Char} {c d : Char} (h : pattern ++ [c] <:+: xs ++ [d])
    (hne : c ≠ d) : pattern ++ [c] <:+: xs := by
  rcases List.infix_concat_iff.mp h with hsuffix | hin
  · obtain ⟨front, hfront⟩ := hsuffix
    rw [← List.append_assoc] at hfront
    exact absurd (List.append_inj' hfront rfl).2 (by simpa using hne)
  · exact hin

theorem hereString_enclosed {value : List Char} (hquote : quote ≠ '@')
    (h : IsEnclosable quote value) (hlast : value.getLast? ≠ some '\x0d') (after : List Char) :
    hereString quote ('\n' :: value ++ ['\n', quote, '@'] ++ after) =
      some (value, 2 + (value.length + 1) + 3) := by
  have hend : Text.find? ['\n', quote, '@'] ('\n' :: value ++ ['\n', quote, '@'] ++ after) =
      some ('\n' :: value).length := by
    refine (find?_eq_some_iff (List.cons_ne_nil _ _)).mpr ⟨_, after, rfl, rfl, fun hin => h ?_⟩
    have hin : ['\n', quote] ++ ['@'] <:+: ('\n' :: value ++ ['\n']) ++ [quote] := by
      rw [List.append_assoc]
      exact hin
    exact infix_of_concat (infix_of_concat hin hquote.symm) (by decide)
  refine hereString_eq.mpr ⟨0, _, rfl, rfl, hend, ?_, rfl⟩
  rw [List.drop_zero, List.append_assoc, List.take_left, List.drop_one, List.tail_cons,
    if_neg hlast]

/-- The quote and the value of a here-string. -/
def hereString? : Token → Option (Char × String)
  | .singleHereString value => some ('\x27', value)
  | .doubleHereString value => some ('\x22', value)
  | _ => none

theorem enclosable_of_occurs {t : Token} (h : t.Occurs) (ht : t.hereString? = some (quote, value)) :
    IsEnclosable quote value.toList := by
  obtain ⟨c, rest, n, hp⟩ := h
  have hscan : scanAt rest = (.token t, n) := by
    have hfound := found_piece hp
    cases t with
    | singleHereString value => exact hfound.2
    | doubleHereString value => exact hfound.2
    | _ => cases ht
  have htail {q : Char} {make : String → Token} (hmake : ∀ v, (make v).hereString? = some (q, v))
      (htail : scanHereTail q make rest = (.token t, n)) : IsEnclosable quote value.toList := by
    obtain ⟨cs, hcs, hmade⟩ := (scanHereString_eq_read (isRead_token _)).mp htail
    obtain rfl := Piece.token.inj hmade
    obtain ⟨rfl, rfl⟩ := Prod.mk.inj (Option.some.inj ((hmake _).symm.trans ht))
    rw [String.toList_ofList]
    exact isEnclosable_of_hereString hcs
  have hother {u : Token} {m : Nat} (hu : u.hereString? = none)
      (hmade : (Piece.token u, m) = (.token t, n)) : IsEnclosable quote value.toList := by
    obtain rfl := Piece.token.inj (congrArg Prod.fst hmade)
    cases hu.symm.trans ht
  rw [scanAt_eq] at hscan
  split at hscan
  · exact hother rfl hscan
  split at hscan
  · exact hother rfl hscan
  split at hscan
  · exact htail (fun _ => rfl) hscan
  split at hscan
  · exact htail (fun _ => rfl) hscan
  split at hscan
  · exact hother rfl hscan
  · cases congrArg Prod.fst hscan

end Token

namespace Source
open Token

/-- The token of a string of a kind and the quote at its end; a bare word has none. -/
def stringToken? (value : String) : StringKind → Option (Token × Char)
  | .bareWord => none
  | .singleQuoted => some (.singleQuoted value, '\x27')
  | .doubleQuoted => some (.doubleQuoted value, '\x22')
  | .singleQuotedHereString => some (.singleHereString value, '\x27')
  | .doubleQuotedHereString => some (.doubleHereString value, '\x22')

/-- What stands in a string of a kind: anything between single quotes, and otherwise what is read in
some text. A carriage return at the end of a here-string belongs to the line end behind it. -/
def IsWritable (value : String) : StringKind → Prop
  | .bareWord => False
  | .singleQuoted => True
  | .doubleQuoted => (Token.doubleQuoted value).Arises
  | .singleQuotedHereString =>
    (Token.singleHereString value).Arises ∧ value.toList.getLast? ≠ some '\x0d'
  | .doubleQuotedHereString =>
    (Token.doubleHereString value).Arises ∧ value.toList.getLast? ≠ some '\x0d'

variable {value : String} {kind : StringKind} {token : Token} {quote : Char} {after : List Char}

theorem hereString_stands {make : String → Token} (hquote : quote ≠ '@')
    (hvalue : IsEnclosable quote value.toList) (hlast : value.toList.getLast? ≠ some '\x0d')
    (hscan : ∀ cs, scanAt (quote :: cs) = scanHereString quote make cs) :
    Chunk.Stands ⟨.token (make value),
      '@' :: quote :: '\n' :: value.toList ++ ['\n', quote, '@']⟩ after := by
  refine ⟨'@', quote :: '\n' :: value.toList ++ ['\n', quote, '@'], rfl, ?_⟩
  change scanAt (quote :: ('\n' :: value.toList ++ ['\n', quote, '@'] ++ after)) = _
  rw [hscan, scanHereString, hereString_enclosed hquote hvalue hlast]
  dsimp only
  rw [String.ofList_toList]
  simp
  omega

/-- What is written for a string is one token, if no further quote follows it. -/
theorem quoted_stands_of_writable (htoken : stringToken? value kind = some (token, quote))
    (hvalue : IsWritable value kind) (hafter : after.head? ≠ some quote) :
    Chunk.Stands ⟨.token token, (quoted value kind).toList⟩ after := by
  cases kind with
  | bareWord => cases htoken
  | singleQuoted =>
    obtain ⟨rfl, rfl⟩ := Prod.mk.inj (Option.some.inj htoken)
    exact Chunk.quoted_stands hafter
  | doubleQuoted =>
    obtain ⟨rfl, rfl⟩ := Prod.mk.inj (Option.some.inj htoken)
    have hread := (scanDoubleQuoted_eq_read (isRead_token (.doubleQuoted value))).mpr
      ⟨value.toList, after, rfl, hafter, isQuotable_of_occurs hvalue.occurs, rfl,
        by rw [String.ofList_toList]⟩
    have htext : (quoted value .doubleQuoted).toList = '\x22' :: (value.toList ++ ['\x22']) := by
      simp [quoted]
    rw [htext]
    refine ⟨'\x22', _, rfl, ?_⟩
    rw [List.append_assoc, List.singleton_append, List.length_cons, List.length_append]
    exact hread
  | singleQuotedHereString =>
    obtain ⟨rfl, rfl⟩ := Prod.mk.inj (Option.some.inj htoken)
    have htext : (quoted value .singleQuotedHereString).toList =
        '@' :: '\x27' :: '\n' :: value.toList ++ ['\n', '\x27', '@'] := by
      simp [quoted]
    rw [htext]
    exact hereString_stands (by decide) (enclosable_of_occurs hvalue.1.occurs rfl) hvalue.2
      fun _ => rfl
  | doubleQuotedHereString =>
    obtain ⟨rfl, rfl⟩ := Prod.mk.inj (Option.some.inj htoken)
    have htext : (quoted value .doubleQuotedHereString).toList =
        '@' :: '\x22' :: '\n' :: value.toList ++ ['\n', '\x22', '@'] := by
      simp [quoted]
    rw [htext]
    exact hereString_stands (by decide) (enclosable_of_occurs hvalue.1.occurs rfl) hvalue.2
      fun _ => rfl

/-- A string is read back from what is written for it, in front of all that does not go on with a
further quote. -/
theorem quoted_reads_back (htoken : stringToken? value kind = some (token, quote))
    (hvalue : IsWritable value kind) (hafter : after.head? ≠ some quote) :
    Lexeme.readings ((quoted value kind).toList ++ after) =
      .ok ⟨token, ⟨0, Text.size (quoted value kind).toList⟩⟩ ::
        (Lexeme.readings after).map
          (Lexeme.shiftReading (Text.size (quoted value kind).toList)) :=
  Lexeme.readings_append (quoted_stands_of_writable htoken hvalue hafter) rfl

/-- A here-string with quotes, an end in the middle of a line and a carriage return, in front of a
quote of the other kind. -/
theorem quoted_reads_back_hereString :
    (Token.singleHereString "it's '@\x0d\n '@").Arises ∧
    Lexeme.readings ((quoted "it's '@\x0d\n '@" .singleQuotedHereString).toList ++
      "\x22x\x22".toList) =
        [.ok ⟨.singleHereString "it's '@\x0d\n '@", ⟨0, 18⟩⟩,
          .ok ⟨.doubleQuoted "x", ⟨18, 21⟩⟩] := by
  have harises : (Token.singleHereString "it's '@\x0d\n '@").Arises :=
    ⟨"@' \nit's '@\x0d\n '@\x0d\n'@".toList, ⟨.singleHereString "it's '@\x0d\n '@", ⟨0, 20⟩⟩,
      by decide, rfl⟩
  refine ⟨harises, ?_⟩
  rw [@quoted_reads_back _ .singleQuotedHereString _ _ "\x22x\x22".toList rfl ⟨harises, by decide⟩
    (by decide)]
  rfl

end Source

end ScriptInject
