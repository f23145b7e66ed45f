import ScriptInject.Grammar.Parser
import ScriptInject.Proofs.Cutting
/-! Tokens as they are cut out by bytes. A cut that is none would be a failure; none of them is, and
what comes out is what is read character by character. -/
namespace ScriptInject

namespace Text

variable {cs : List Char} {m n : Nat}

/-- The byte stands between two characters of the text or at one of its ends. -/
def IsBoundary (cs : List Char) (n : Nat) : Prop :=
  ∃ before after, cs = before ++ after ∧ n = size before

theorem isBoundary_zero (cs : List Char) : IsBoundary cs 0 := ⟨[], cs, rfl, rfl⟩

theorem isBoundary_size (cs : List Char) : IsBoundary cs (size cs) :=
  ⟨cs, [], (List.append_nil cs).symm, rfl⟩

theorem slice?_isSome (hm : IsBoundary cs m) (hn : IsBoundary cs n) (hle : m ≤ n) :
    (slice? cs m n).isSome := by
  obtain ⟨before, after, rfl, rfl⟩ := hm
  obtain ⟨longer, behind, hcs, rfl⟩ := hn
  have hprefix : ∃ text, longer = before ++ text := by
    rcases List.append_eq_append_iff.mp hcs with ⟨text, rfl, -⟩ | ⟨text, rfl, -⟩
    · exact ⟨text, rfl⟩
    · -- the longer one of the two parts is not the shorter one, unless they are the same
      rw [size_append] at hle
      have hnil : text = [] := by
        by_contra hne
        have := size_pos hne
        omega
      exact ⟨[], by rw [hnil, List.append_nil, List.append_nil]⟩
  obtain ⟨text, rfl⟩ := hprefix
  rw [hcs, size_append, slice?_append]
  rfl

/-- The bytes from `start` up to `stop`, where it is a failure if they are none. -/
def cutOut (cs : List Char) (start stop : Nat) : Except Grammar.Failure (List Char) :=
  (slice? cs start stop).elim (.error .cut) .ok

theorem cutOut_append (before text after : List Char) :
    cutOut (before ++ text ++ after) (size before) (size before + size text) = .ok text := by
  rw [cutOut, slice?_append]
  rfl

theorem cutOut_take (text after : List Char) : cutOut (text ++ after) 0 (size text) = .ok text := by
  have h := cutOut_append [] text after
  rwa [List.nil_append, size_nil, Nat.zero_add] at h

theorem cutOut_drop (before text : List Char) :
    cutOut (before ++ text) (size before) (size (before ++ text)) = .ok text := by
  have h := cutOut_append before text []
  rwa [List.append_nil, ← size_append] at h

/-- The byte at which a pattern first occurs. -/
def findBytes? (pattern cs : List Char) : Option Nat :=
  (find? pattern cs).map fun n => size (cs.take n)

theorem findBytes?_eq_none {pattern : List Char} (h : find? pattern cs = none) :
    findBytes? pattern cs = none := by
  rw [findBytes?, h]
  rfl

theorem findBytes?_eq_some {pattern before after : List Char}
    (h : find? pattern (before ++ pattern ++ after) = some before.length) :
    findBytes? pattern (before ++ pattern ++ after) = some (size before) := by
  rw [findBytes?, h, Option.map_some, List.append_assoc, List.take_left]

end Text

namespace Token
open Text

variable {c : Char} {rest text kept : List Char} {n : Nat} {t : Token}

/-- The lines of a here-string without the start of the line end behind them. -/
def valueOf (lines : List Char) : List Char :=
  if lines.getLast? = some '\r' then lines.dropLast else lines

/-- What stands between the line of an opener and the end of its here-string, and the bytes up to
there. -/
def linesBytes (quote : Char) (body : List Char) :
    Except Grammar.Failure (Option (List Char × Nat)) :=
  match findBytes? ['\n', quote, '@'] body with
  | none => .ok none
  | some 0 => .ok (some ([], 0))
  | some (stop + 1) => (cutOut body 1 (stop + 1)).map fun lines => some (lines, stop + 1)

/-- The value of a here-string and the bytes behind its opener that it takes. -/
def hereStringBytes (quote : Char) (rest : List Char) :
    Except Grammar.Failure (Option (List Char × Nat)) := do
  let some header := findBytes? ['\n'] rest | return none
  let blanks ← cutOut rest 0 header
  if blanks.all isBlank then
    let body ← cutOut rest header (size rest)
    let some (lines, stop) ← linesBytes quote body | return none
    let taken := header + stop + size ['\n', quote, '@']
    let _ ← cutOut rest 0 taken
    return some (valueOf lines, taken)
  else return none

/-- A comment in marks or the start of one, and the bytes behind its opener that it takes. -/
def commentBytes (body : List Char) : Except Grammar.Failure (Piece × Nat) := do
  match findBytes? ['#', '>'] body with
  | some stop =>
    let _ ← cutOut body 0 (stop + 2)
    return (.trivia, stop + 2)
  | none =>
    let _ ← cutOut body 0 (size body)
    return (.unclosed "<#", size body)

/-- A comment is passed over as it is read by characters. -/
theorem commentBytes_eq (body : List Char) :
    commentBytes body = .ok ((scanAngle ('#' :: body)).1,
      size (body.take ((scanAngle ('#' :: body)).2 - 2))) := by
  cases hn : find? ['#', '>'] body with
  | none =>
    have hcut := cutOut_take body []
    rw [List.append_nil] at hcut
    have hscan : scanAngle ('#' :: body) = (.unclosed "<#", body.length + 2) := by
      rw [scanAngle, hn]
    rw [commentBytes, findBytes?_eq_none hn, hscan, Nat.add_sub_cancel, List.take_length]
    dsimp only
    rw [hcut]
    rfl
  | some n =>
    obtain ⟨before, after, rfl, rfl, -⟩ := (find?_eq_some_iff (List.cons_ne_nil _ _)).mp hn
    have hcut := cutOut_take (before ++ ['#', '>']) after
    have hsize : size (before ++ ['#', '>']) = size before + 2 := size_append _ _
    have hscan : scanAngle ('#' :: (before ++ ['#', '>'] ++ after)) =
        (.trivia, (before ++ ['#', '>']).length + 2) := by
      rw [scanAngle, hn]
      simp
    rw [commentBytes, findBytes?_eq_some hn, hscan, Nat.add_sub_cancel, List.take_left, hsize]
    dsimp only
    rw [← hsize, hcut]
    rfl

/-- The here-string that starts behind `blanks`. -/
theorem hereString_of_line {blanks lines : List Char} (quote : Char)
    (h : find? ['\n'] (blanks ++ ['\n'] ++ lines) = some blanks.length) :
    hereString quote (blanks ++ ['\n'] ++ lines) =
      if blanks.all isBlank then
        (find? ['\n', quote, '@'] ('\n' :: lines)).map fun length =>
          (valueOf ((('\n' :: lines).take length).drop 1), 2 + blanks.length + length + 3)
      else none := by
  have htake : (blanks ++ ['\n'] ++ lines).take blanks.length = blanks := by
    rw [List.append_assoc, List.take_left]
  have hdrop : (blanks ++ ['\n'] ++ lines).drop blanks.length = '\n' :: lines := by
    rw [List.append_assoc, List.drop_left, List.singleton_append]
  rw [hereString, h, Option.bind_eq_bind, Option.bind_some, htake, hdrop]
  by_cases hall : blanks.all isBlank = true
  · have hguard : (guard (blanks.all isBlank = true) : Option Unit) = some () := if_pos hall
    rw [if_pos hall, hguard]
    change (find? ['\n', quote, '@'] ('\n' :: lines)).bind _ = _
    cases find? ['\n', quote, '@'] ('\n' :: lines) with
    | none => rfl
    | some length => rfl
  · have hguard : (guard (blanks.all isBlank = true) : Option Unit) = none := if_neg hall
    rw [if_neg hall, hguard]
    rfl

/-- The lines of a here-string are cut out between its first line and its end. -/
theorem linesBytes_eq (quote : Char) (lines : List Char) :
    linesBytes quote ('\n' :: lines) =
      .ok ((find? ['\n', quote, '@'] ('\n' :: lines)).map fun length =>
        ((('\n' :: lines).take length).drop 1, size (('\n' :: lines).take length))) := by
  cases hn : find? ['\n', quote, '@'] ('\n' :: lines) with
  | none =>
    rw [linesBytes, findBytes?_eq_none hn]
    rfl
  | some length =>
    obtain ⟨front, behind, hsplit, rfl, -⟩ := (find?_eq_some_iff (List.cons_ne_nil _ _)).mp hn
    rw [hsplit] at hn ⊢
    have htake : (front ++ ['\n', quote, '@'] ++ behind).take front.length = front := by
      rw [List.append_assoc, List.take_left]
    rw [linesBytes, findBytes?_eq_some hn, Option.map_some, htake]
    cases front with
    | nil => rfl
    | cons c front =>
      obtain rfl : c = '\n' := (List.cons.inj hsplit).1.symm
      have hcut := cutOut_append ['\n'] front (['\n', quote, '@'] ++ behind)
      have hsize : size ('\n' :: front) = size front + 1 := Nat.add_comm _ _
      have hsize' : size ['\n'] + size front = size front + 1 := Nat.add_comm _ _
      rw [hsize'] at hcut
      rw [hsize, List.append_assoc]
      dsimp only
      rw [List.cons_append]
      exact congrArg (Except.map _) hcut

/-- A here-string is cut out as it is read by characters. -/
theorem hereStringBytes_eq (quote : Char) (rest : List Char) :
    hereStringBytes quote rest =
      .ok ((hereString quote rest).map fun r => (r.1, size (rest.take (r.2 - 2)))) := by
  cases hh : find? ['\n'] rest with
  | none =>
    rw [hereStringBytes, findBytes?_eq_none hh, hereString, hh]
    rfl
  | some header =>
    obtain ⟨blanks, lines, rfl, rfl, -⟩ := (find?_eq_some_iff (List.cons_ne_nil _ _)).mp hh
    have hblanks := cutOut_take blanks (['\n'] ++ lines)
    have hlines := cutOut_drop blanks (['\n'] ++ lines)
    rw [← List.append_assoc] at hblanks hlines
    rw [hereStringBytes, findBytes?_eq_some hh, hereString_of_line quote hh]
    dsimp only
    rw [hblanks, hlines]
    change (if blanks.all isBlank = true then _ else _) = _
    by_cases hall : blanks.all isBlank = true
    · rw [if_pos hall, if_pos hall]
      change (linesBytes quote ('\n' :: lines) >>= _) = _
      rw [linesBytes_eq]
      cases hn : find? ['\n', quote, '@'] ('\n' :: lines) with
      | none => rfl
      | some length =>
        obtain ⟨front, behind, hsplit, rfl, -⟩ := (find?_eq_some_iff (List.cons_ne_nil _ _)).mp hn
        have htake : ('\n' :: lines).take front.length = front := by
          rw [hsplit, List.append_assoc, List.take_left]
        have hrest : blanks ++ ['\n'] ++ lines =
            blanks ++ front ++ ['\n', quote, '@'] ++ behind := by
          rw [List.append_assoc, List.singleton_append, hsplit]
          simp
        have htaken : size blanks + size front + size ['\n', quote, '@'] =
            size (blanks ++ front ++ ['\n', quote, '@']) := by
          rw [size_append, size_append]
        have hlength : 2 + blanks.length + front.length + 3 - 2 =
            (blanks ++ front ++ ['\n', quote, '@']).length := by
          simp
          omega
        have hcut := cutOut_take (blanks ++ front ++ ['\n', quote, '@']) behind
        rw [← htaken] at hcut
        simp only [Option.map_some, htake]
        rw [hrest, hlength, List.take_left, ← htaken]
        change (cutOut _ 0 (size blanks + size front + size ['\n', quote, '@']) >>= _) = _
        rw [hcut]
        rfl
    · rw [if_neg hall, if_neg hall]
      rfl

/-- How many bytes a token leaves out at the start and at the end of its text. -/
def margins (text : List Char) : Token → Nat × Nat
  | .variableName _ => if ['$', '\x7b'].isPrefixOf text then (2, 1) else (1, 0)
  | .splat _ => (1, 0)
  | .singleQuoted _ | .doubleQuoted _ => (1, 1)
  | _ => (0, 0)

/-- What a token keeps of its text as it is written. A here-string is cut out on its own, and line
ends and marks keep nothing. -/
def kept? : Token → Option (List Char)
  | .variableName path => some path.toList
  | .splat name => some name.toList
  | .number text | .word text | .dashWord text => some text.toList
  | .singleQuoted value => some (doubled value.toList)
  | .doubleQuoted body => some body.toList
  | .singleHereString _ | .doubleHereString _ | .newline | .mark _ => none

/-- What is left of a text without its margins. -/
def IsBetween (text : List Char) (margins : Nat × Nat) (kept : List Char) : Prop :=
  margins.2 ≤ size text ∧ cutOut text margins.1 (size text - margins.2) = .ok kept

theorem isBetween_append (before kept after : List Char) :
    IsBetween (before ++ kept ++ after) (size before, size after) kept := by
  rw [IsBetween, size_append (before ++ kept), Nat.add_sub_cancel, size_append before]
  exact ⟨Nat.le_add_left _ _, cutOut_append before kept after⟩

theorem isBetween_whole (text : List Char) : IsBetween text (0, 0) text := by
  have h := isBetween_append [] text []
  rwa [List.nil_append, List.append_nil] at h

theorem isBetween_cons {d : Char} (hd : d.utf8Size = 1) (kept : List Char) :
    IsBetween (d :: kept) (1, 0) kept := by
  have h := isBetween_append [d] kept []
  rwa [List.append_nil, List.singleton_append, size_cons, hd] at h

theorem isBetween_quotes {d : Char} (hd : d.utf8Size = 1) (kept after : List Char) :
    IsBetween (d :: (kept ++ d :: after).take (kept.length + 1)) (1, 1) kept := by
  have h := isBetween_append [d] kept [d]
  have htake : (kept ++ d :: after).take (kept.length + 1) = kept ++ [d] := by
    rw [List.append_cons]
    exact List.take_left' (by rw [List.length_append, List.length_singleton])
  rw [htake]
  rwa [List.singleton_append, List.cons_append, size_cons, hd] at h

/-- A run that does not take all is followed by what ends it. -/
theorem take_run_succ {d : Char} {cs : List Char} (h : run (· != d) cs < cs.length) :
    cs.take (run (· != d) cs + 1) = cs.take (run (· != d) cs) ++ [d] := by
  have hdrop := drop_run (p := (· != d)) cs
  rw [List.take_add]
  cases hd : cs.dropWhile (· != d) with
  | nil =>
    have hlength := congrArg List.length (hdrop.trans hd)
    rw [List.length_drop, List.length_nil] at hlength
    omega
  | cons e es =>
    have hstop := List.head_dropWhile_not (l := cs) (· != d) (by simp [hd])
    obtain rfl : e = d := by simpa [hd] using hstop
    rw [hdrop, hd]
    rfl

/-- A path stands between braces, or it has none and every character of it is one byte. -/
theorem path_stands {path : String} (h : scanDollar rest = (.token (.variableName path), n + 1)) :
    '$' :: rest.take n = ['$', '\x7b'] ++ path.toList ++ ['\x7d'] ∨
      rest.take n = path.toList ∧ ∀ c ∈ path.toList, c.utf8Size = 1 ∧ c ≠ '\x7b' := by
  rw [scanDollar_eq] at h
  split at h
  · cases congrArg Prod.fst h
  split at h
  · rename_i hbrace
    cases rest with
    | nil => cases hbrace
    | cons d body =>
      obtain rfl : d = '\x7b' := by simpa using hbrace
      obtain ⟨-, hlt, ht, hn⟩ := (scanBraced_eq_read (isRead_token _)).mp h
      obtain rfl := Token.variableName.inj (Piece.token.inj ht)
      obtain rfl := Nat.succ.inj hn
      rw [String.toList_ofList, List.take_succ_cons, take_run_succ hlt]
      exact .inl rfl
  split at h
  · obtain ⟨ht, hn⟩ := Prod.mk.inj h
    obtain rfl := Token.variableName.inj (Piece.token.inj ht)
    rw [Nat.succ.inj hn, String.toList_ofList]
    refine .inr ⟨rfl, fun c hc => ?_⟩
    rcases take_scopedNameLength c (Nat.succ.inj hn ▸ hc) with hpart | rfl
    · refine ⟨utf8Size_of_isNamePart hpart, ?_⟩
      rintro rfl
      cases hpart
    · decide
  · unfold scanSpecial at h
    split at h
    · split at h
      · rename_i hspecial
        obtain ⟨ht, hn⟩ := Prod.mk.inj h
        obtain rfl := Token.variableName.inj (Piece.token.inj ht)
        obtain rfl := Nat.succ.inj hn
        rw [String.toList_ofList]
        refine .inr ⟨rfl, List.forall_mem_singleton.mpr ?_⟩
        simp only [Bool.or_eq_true, beq_iff_eq] at hspecial
        rcases hspecial with (rfl | rfl) | rfl <;> decide
      · cases congrArg Prod.fst h
    · cases congrArg Prod.fst h

theorem path_isBetween {path : String}
    (h : scanDollar rest = (.token (.variableName path), n + 1)) :
    IsBetween ('$' :: rest.take n) (margins ('$' :: rest.take n) (.variableName path))
      path.toList := by
  rcases path_stands h with htext | ⟨htext, hchars⟩
  · rw [htext]
    exact isBetween_append ['$', '\x7b'] _ ['\x7d']
  · have hmargins : margins ('$' :: path.toList) (.variableName path) = (1, 0) := by
      cases hpath : path.toList with
      | nil => rfl
      | cons c cs =>
        have hc := (hchars c (by simp [hpath])).2
        simp [margins, hc.symm]
    rw [htext, hmargins]
    exact isBetween_cons rfl _

/-- A splatted name stands behind the at sign. -/
theorem splat_isBetween {name : String} (h : scanAt rest = (.token (.splat name), n + 1)) :
    IsBetween ('@' :: rest.take n) (1, 0) name.toList := by
  have hhere {quote : Char} {make : String → Token} (hmake : ∀ v, make v ≠ .splat name) :
      scanHereTail quote make rest ≠ (.token (.splat name), n + 1) := by
    intro hscan
    obtain ⟨value, -, ht⟩ := (scanHereString_eq_read (isRead_token _)).mp hscan
    exact hmake _ (Piece.token.inj ht).symm
  rw [scanAt_eq] at h
  split at h
  · cases congrArg Prod.fst h
  split at h
  · cases congrArg Prod.fst h
  split at h
  · exact absurd h (hhere fun _ => Token.noConfusion)
  split at h
  · exact absurd h (hhere fun _ => Token.noConfusion)
  split at h
  · obtain ⟨ht, hn⟩ := Prod.mk.inj h
    obtain rfl := Token.splat.inj (Piece.token.inj ht)
    rw [Nat.succ.inj hn, String.toList_ofList]
    exact isBetween_cons rfl _
  · cases congrArg Prod.fst h

/-- A token keeps what is cut out of its text by bytes. -/
theorem kept_isBetween (h : piece c rest = (.token t, n)) (hkept : t.kept? = some kept) :
    IsBetween ((c :: rest).take n) (t.margins ((c :: rest).take n)) kept := by
  have hfound := found_piece h
  obtain ⟨m, rfl⟩ := exists_succ_of_piece h
  have hwhole {text : String} (htext : text = String.ofList ((c :: rest).take (m + 1)))
      (hkept : some text.toList = some kept) :
      IsBetween ((c :: rest).take (m + 1)) (0, 0) kept := by
    obtain rfl := Option.some.inj hkept
    rw [htext, String.toList_ofList]
    exact isBetween_whole _
  cases t with
  | number text => exact hwhole hfound.2 hkept
  | word text => exact hwhole hfound.2 hkept
  | dashWord text => exact hwhole hfound.2 hkept
  | variableName path =>
    obtain ⟨rfl, hscan⟩ := hfound
    obtain rfl := Option.some.inj hkept
    exact path_isBetween hscan
  | splat name =>
    obtain ⟨rfl, hscan⟩ := hfound
    obtain rfl := Option.some.inj hkept
    exact splat_isBetween hscan
  | singleQuoted value =>
    obtain ⟨rfl, hscan⟩ := hfound
    obtain ⟨value, after, rfl, -, rfl, ht⟩ := (scanSingleQuoted_eq_read (isRead_token _)).mp hscan
    obtain rfl := Token.singleQuoted.inj (Piece.token.inj ht)
    obtain rfl := Option.some.inj hkept
    rw [String.toList_ofList]
    exact isBetween_quotes rfl (doubled value) after
  | doubleQuoted body =>
    obtain ⟨rfl, hscan⟩ := hfound
    obtain ⟨body, after, rfl, -, -, rfl, ht⟩ := (scanDoubleQuoted_eq_read (isRead_token _)).mp hscan
    obtain rfl := Token.doubleQuoted.inj (Piece.token.inj ht)
    obtain rfl := Option.some.inj hkept
    rw [String.toList_ofList]
    exact isBetween_quotes rfl body after
  | singleHereString | doubleHereString | newline | mark => cases hkept

/-- The name in a dashed word stands behind the dash, and before the colon if there is one. -/
theorem dash_cutOut {word : String} (h : piece c rest = (.token (.dashWord word), n)) :
    cutOut word.toList 1 (size word.toList) = .ok (word.toList.drop 1) ∧
      (word.toList.getLast? = some ':' →
        cutOut word.toList.dropLast 1 (size word.toList.dropLast) =
          .ok (word.toList.dropLast.drop 1)) := by
  obtain ⟨m, rfl⟩ := exists_succ_of_piece h
  obtain ⟨rfl, rfl⟩ := found_piece h
  rw [String.toList_ofList, List.take_succ_cons]
  refine ⟨cutOut_drop ['-'] _, fun hcolon => ?_⟩
  cases hname : rest.take m with
  | nil =>
    rw [hname] at hcolon
    cases hcolon
  | cons d name => exact cutOut_drop ['-'] (d :: name).dropLast

/-- The path of a variable that stands in braces. -/
def Cut.bracedPath? (cut : Cut) : Option String :=
  match cut.piece with
  | .token (.variableName path) =>
    if ['$', '\x7b'].isPrefixOf cut.text then some path else none
  | _ => none

/-- A piece is cut out of the text by bytes, what its token keeps is cut out of the piece, and what
is cut out of a dashed word later is a part of that. -/
structure Cut.IsCutOut (cs : List Char) (cut : Cut) : Prop where
  text : cutOut cs cut.span.start cut.span.stop = .ok cut.text
  kept : ∀ t kept, cut.piece = .token t → t.kept? = some kept →
    IsBetween cut.text (t.margins cut.text) kept
  dash : ∀ word, cut.piece = .token (.dashWord word) →
    cutOut word.toList 1 (size word.toList) = .ok (word.toList.drop 1) ∧
      (word.toList.getLast? = some ':' →
        cutOut word.toList.dropLast 1 (size word.toList.dropLast) =
          .ok (word.toList.dropLast.drop 1))

theorem cut_isCutOut {cs : List Char} {cut : Cut} (h : cut ∈ cuts cs) : cut.IsCutOut cs := by
  obtain ⟨before, c, rest, n, rfl, hp, htext, hstart⟩ := cut_stands h
  rw [Nat.zero_add] at hstart
  refine ⟨?_, fun t kept ht hkept => ?_, fun word hword => ?_⟩
  · have hcut := cutOut_append before ((c :: rest).take n) ((c :: rest).drop n)
    rw [List.append_assoc, List.take_append_drop] at hcut
    rw [Cut.span, hstart, htext]
    exact hcut
  · rw [htext]
    exact kept_isBetween (hp.trans (by rw [ht])) hkept
  · exact dash_cutOut (hp.trans (by rw [hword]))

end Token

end ScriptInject
