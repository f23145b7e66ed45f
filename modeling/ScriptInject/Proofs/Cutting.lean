import ScriptInject.Proofs.Coverage.Basic
import ScriptInject.Proofs.Fetching.Text
/-! Lexing loses nothing of a text: between the tokens and the errors there is only what may be
passed over. -/
namespace ScriptInject

namespace Token

/-- What is passed over in front of `after`: blanks, a comment up to the end of its line, a
continued line, or a comment in marks up to the first mark that closes it. -/
inductive IsGap : List Char → List Char → Prop where
  | blanks {text after : List Char} (hne : text ≠ [])
      (h : ∀ c ∈ text, c ∈ [' ', '\t', '\x0d', '\x0c']) : IsGap text after
  | comment {body after : List Char} (h : '\n' ∉ body)
      (hend : after = [] ∨ after.head? = some '\n') : IsGap ('#' :: body) after
  | continued {lineEnd after : List Char} (h : lineEnd = ['\n'] ∨ lineEnd = ['\x0d', '\n']) :
      IsGap ('\x60' :: lineEnd) after
  | marked {body after : List Char} (h : ¬ ['#', '>'] <:+: body ++ ['#']) :
      IsGap ('<' :: '#' :: body ++ ['#', '>']) after

variable {c : Char} {cs rest : List Char} {n : Nat} {x : Piece} {p : Char → Bool}

theorem drop_run (cs : List Char) : cs.drop (run p cs) = cs.dropWhile p := by
  have h := congrArg (List.drop (run p cs)) (List.takeWhile_append_dropWhile (p := p) (l := cs))
  rwa [run, List.drop_left, eq_comm] at h

/-- A pattern is found where it first occurs. -/
theorem find?_eq_some_iff {pattern : List Char} (hne : pattern ≠ []) :
    Text.find? pattern cs = some n ↔ ∃ before after, cs = before ++ pattern ++ after ∧
      n = before.length ∧ ¬ pattern <:+: before ++ pattern.dropLast := by
  have hcut (before after : List Char) :
      before ++ pattern.dropLast <+: before ++ pattern ++ after := by
    rw [List.append_assoc, List.prefix_append_right_inj]
    exact (List.dropLast_prefix pattern).trans (List.prefix_append pattern after)
  constructor
  · intro h
    induction cs generalizing n with
    | nil => simp [Text.find?, hne] at h
    | cons c cs ih =>
      unfold Text.find? at h
      split at h
      · rename_i hp
        obtain rfl := Option.some.inj h
        obtain ⟨after, hafter⟩ := List.isPrefixOf_iff_prefix.mp hp
        refine ⟨[], after, hafter.symm, rfl, fun hin => ?_⟩
        have hlength := hin.length_le
        have hpos := List.length_pos_iff.mpr hne
        rw [List.nil_append, List.length_dropLast] at hlength
        omega
      · rename_i hp
        obtain ⟨m, hm, rfl⟩ := Option.map_eq_some_iff.mp h
        obtain ⟨before, after, rfl, rfl, hnone⟩ := ih hm
        refine ⟨c :: before, after, rfl, rfl, fun hin => ?_⟩
        rw [List.cons_append, List.infix_cons_iff] at hin
        rcases hin with hpre | hin
        · exact hp (List.isPrefixOf_iff_prefix.mpr (hpre.trans (hcut (c :: before) after)))
        · exact hnone hin
  · rintro ⟨before, after, rfl, rfl, hnone⟩
    induction before with
    | nil =>
      obtain ⟨c, cs, rfl⟩ := List.exists_cons_of_ne_nil hne
      rw [List.nil_append, List.cons_append, Text.find?, ← List.cons_append, if_pos]
      · rfl
      · exact List.isPrefixOf_iff_prefix.mpr (List.prefix_append _ _)
    | cons c before ih =>
      have hlater : ¬ pattern <:+: before ++ pattern.dropLast := fun hin =>
        hnone (List.infix_cons hin)
      rw [List.cons_append, List.cons_append, Text.find?, if_neg, ih hlater]
      · rfl
      · -- what is found here ends before the last character of the later occurrence
        intro hpre
        have hpre := List.isPrefixOf_iff_prefix.mp hpre
        refine hnone (List.IsPrefix.isInfix
          (List.prefix_of_prefix_length_le hpre (hcut (c :: before) after) ?_))
        simp only [List.length_append, List.length_cons, List.length_dropLast]
        omega

theorem isRead_trivia : Piece.trivia.IsRead := trivial

theorem ofMarks_ne_trivia {ms : List Mark} : ofMarks cs ms ≠ (.trivia, n) := by
  unfold ofMarks
  split <;> rintro ⟨⟩

theorem scanDollar_ne_trivia : scanDollar rest ≠ (.trivia, n) := by
  unfold scanDollar
  dsimp only
  repeat' split
  all_goals rintro ⟨⟩

theorem scanAt_ne_trivia : scanAt rest ≠ (.trivia, n) := by
  unfold scanAt scanHereString
  dsimp only
  repeat' split
  all_goals rintro ⟨⟩

theorem scanDash_ne_trivia : scanDash rest ≠ (.trivia, n) := by
  rw [scanDash_eq]
  split
  · rintro ⟨⟩
  · exact ofMarks_ne_trivia

theorem gap_of_scanAngle (h : scanAngle rest = (.trivia, n)) :
    IsGap (('<' :: rest).take n) (('<' :: rest).drop n) := by
  have hpos := (scanAngle_le h isRead_trivia).1
  obtain ⟨m, rfl⟩ := Nat.exists_eq_succ_of_ne_zero (Nat.ne_zero_of_lt hpos)
  obtain ⟨body, k, rfl, hk, rfl, -⟩ := (scanAngle_eq_read isRead_trivia).mp h
  obtain ⟨before, after, rfl, rfl, hnone⟩ :=
    (find?_eq_some_iff (List.cons_ne_nil _ _)).mp hk
  have htake : ('<' :: '#' :: (before ++ ['#', '>'] ++ after)) =
      ('<' :: '#' :: before ++ ['#', '>']) ++ after := by simp
  have hlength : (before.length + 3).succ = ('<' :: '#' :: before ++ ['#', '>']).length := by simp
  rw [htake, hlength, List.take_left, List.drop_left]
  exact .marked hnone

theorem gap_of_scanBacktick (h : scanBacktick rest = (.trivia, n)) :
    IsGap (('\x60' :: rest).take n) (('\x60' :: rest).drop n) := by
  have hpos := (scanBacktick_le h isRead_trivia).1
  obtain ⟨m, rfl⟩ := Nat.exists_eq_succ_of_ne_zero (Nat.ne_zero_of_lt hpos)
  obtain ⟨-, ⟨after, rfl, rfl⟩ | ⟨after, rfl, rfl⟩⟩ := (scanBacktick_eq_read isRead_trivia).mp h
  · exact .continued (.inl rfl)
  · exact .continued (.inr rfl)

theorem gap_of_comment (rest : List Char) :
    IsGap ('#' :: rest.takeWhile (· != '\n')) (rest.dropWhile (· != '\n')) := by
  refine .comment (fun h => ?_) ?_
  · simpa using List.all_eq_true.mp List.all_takeWhile _ h
  · cases hd : rest.dropWhile (· != '\n') with
    | nil => exact .inl rfl
    | cons d ds =>
      have hstop := List.head_dropWhile_not (l := rest) (· != '\n') (by simp [hd])
      exact .inr (by simpa [hd] using hstop)

/-- Whatever is passed over is a gap. -/
theorem gap_of_piece (h : piece c rest = (.trivia, n)) :
    IsGap ((c :: rest).take n) ((c :: rest).drop n) := by
  unfold piece at h
  split at h
  · rename_i hc
    obtain rfl := congrArg Prod.snd h
    dsimp only
    rw [take_run]
    refine .blanks (by simp [hc]) fun d hd => ?_
    simpa [isSpace, or_assoc] using List.all_eq_true.mp List.all_takeWhile d hd
  split at h
  · cases congrArg Prod.fst h
  split at h
  · cases congrArg Prod.fst h
  split at h
  · cases congrArg Prod.fst h
  · obtain rfl := congrArg Prod.snd h
    dsimp only
    rw [Nat.add_comm, List.take_succ_cons, List.drop_succ_cons, take_run, drop_run]
    exact gap_of_comment rest
  · exact gap_of_scanBacktick h
  · exact gap_of_scanAngle h
  · exact absurd h scanDollar_ne_trivia
  · exact absurd h scanAt_ne_trivia
  · exact absurd h scanDash_ne_trivia
  · split at h <;> cases congrArg Prod.fst h
  · split at h <;> cases congrArg Prod.fst h
  · exact absurd h ofMarks_ne_trivia

/-- What is wrong at the start of `cs` takes a character, and an open delimiter stands there. -/
def FaultStands (cs : List Char) : Piece × Nat → Prop
  | (.invalid, n) => 0 < n
  | (.unclosed delimiter, n) => 0 < n ∧ delimiter.toList <+: cs.take n
  | _ => True

theorem fault_ofMarks (cs : List Char) (ms : List Mark) : FaultStands cs (ofMarks cs ms) := by
  unfold ofMarks
  split
  · trivial
  · exact Nat.one_pos

theorem fault_scanDollar (rest : List Char) : FaultStands ('$' :: rest) (scanDollar rest) := by
  unfold scanDollar
  dsimp only
  repeat' split
  all_goals simp [FaultStands, ofMark]

theorem fault_scanHereString (q : Char) (make : String → Token) (rest : List Char) :
    FaultStands ('@' :: q :: rest) (scanHereString q make rest) := by
  unfold scanHereString
  split <;> simp [FaultStands]

theorem fault_scanAt (rest : List Char) : FaultStands ('@' :: rest) (scanAt rest) := by
  unfold scanAt
  split
  · trivial
  · trivial
  · exact fault_scanHereString _ _ _
  · exact fault_scanHereString _ _ _
  · dsimp only
    split <;> simp [FaultStands]
  · exact Nat.one_pos

theorem fault_scanDash (rest : List Char) : FaultStands ('-' :: rest) (scanDash rest) := by
  rw [scanDash_eq]
  split
  · trivial
  · exact fault_ofMarks _ _

theorem fault_scanAngle (rest : List Char) : FaultStands ('<' :: rest) (scanAngle rest) := by
  unfold scanAngle
  split
  · split <;> simp [FaultStands]
  · exact Nat.one_pos

theorem fault_scanBacktick (rest : List Char) :
    FaultStands ('\x60' :: rest) (scanBacktick rest) := by
  unfold scanBacktick
  split <;> simp [FaultStands]

theorem fault_piece (c : Char) (rest : List Char) : FaultStands (c :: rest) (piece c rest) := by
  unfold piece
  split
  · trivial
  split
  · trivial
  split
  · trivial
  split
  · trivial
  · trivial
  · exact fault_scanBacktick rest
  · exact fault_scanAngle rest
  · exact fault_scanDollar rest
  · exact fault_scanAt rest
  · exact fault_scanDash rest
  · split <;> simp [FaultStands]
  · split <;> simp [FaultStands]
  · exact fault_ofMarks _ _

/-- Every piece takes a character, whatever it is. -/
theorem piece_pos (h : piece c rest = (x, n)) : 0 < n := by
  have hfault := fault_piece c rest
  rw [h] at hfault
  cases x with
  | token t => exact (piece_le h (isRead_token t)).1
  | trivia => exact (piece_le h isRead_trivia).1
  | invalid => exact hfault
  | unclosed delimiter => exact hfault.1

theorem exists_succ_of_piece (h : piece c rest = (x, n)) : ∃ m, n = m + 1 :=
  Nat.exists_eq_succ_of_ne_zero (Nat.ne_zero_of_lt (piece_pos h))

/-- Where a piece stands in a text and what is read there. -/
theorem cut_stands {steps start : Nat} {cut : Cut} (h : cut ∈ cutsFrom steps start cs) :
    ∃ before c rest n, cs = before ++ c :: rest ∧ piece c rest = (cut.piece, n) ∧
      cut.text = (c :: rest).take n ∧ cut.start = start + Text.size before := by
  induction steps generalizing start cs with
  | zero => exact absurd h List.not_mem_nil
  | succ steps ih =>
    cases cs with
    | nil => exact absurd h List.not_mem_nil
    | cons c rest =>
      rw [cutsFrom] at h
      generalize hp : piece c rest = found at h
      obtain ⟨x, n⟩ := found
      rcases List.mem_cons.mp h with rfl | h
      · exact ⟨[], c, rest, n, rfl, hp, rfl, rfl⟩
      · obtain ⟨before, d, ds, m, hcs, hd, htext, hstart⟩ := ih h
        refine ⟨(c :: rest).take n ++ before, d, ds, m, ?_, hd, htext, ?_⟩
        · rw [List.append_assoc, ← hcs, List.take_append_drop]
        · rw [hstart, Text.size_append, Nat.add_assoc]

end Token

/-- The error of what cannot be read. -/
def Lexeme.error? : Except ParseError Lexeme → Option ParseError
  | .ok _ => none
  | .error e => some e

/-- A token or an error of a text, with the bytes and the characters that it takes. -/
structure Slice where
  reading : Except ParseError Lexeme
  span : Span
  text : List Char

namespace Slice

def ofCut? (cut : Token.Cut) : Option Slice := cut.reading?.map fun r => ⟨r, cut.span, cut.text⟩

def lexeme? (s : Slice) : Option Lexeme := s.reading.toOption

def error? (s : Slice) : Option ParseError := Lexeme.error? s.reading

/-- What is reported of the slice is where it stands and what is in it. -/
def Reports (s : Slice) : Prop :=
  match s.reading with
  | .ok l => l.span = s.span
  | .error (.invalidToken position text) => position = s.span.start ∧ text.toList = s.text
  | .error (.unclosedDelimiter delimiter position) =>
    position = s.span.start ∧ delimiter.toList <+: s.text
  | .error _ => False

end Slice

namespace Lexeme
open Token

/-- What a text is read as, slice by slice. -/
def slices (cs : List Char) : List Slice := (cuts cs).filterMap Slice.ofCut?

/-- Byte `b` lies in a gap that no slice reaches into. -/
def IsPassed (start : Nat) (cs : List Char) (ss : List Slice) (b : Nat) : Prop :=
  ∃ before text after, cs = before ++ text ++ after ∧ IsGap text after ∧
    start + Text.size before ≤ b ∧ b < start + Text.size before + Text.size text ∧
    ∀ s ∈ ss, s.span.stop ≤ start + Text.size before ∨
      start + Text.size before + Text.size text ≤ s.span.start

/-- The slices stand one after the other in the text that starts at byte `start`, and what is not
in them is passed over. -/
structure Parted (start : Nat) (cs : List Char) (ss : List Slice) : Prop where
  placed : ∀ s ∈ ss, s.text ≠ [] ∧ ∃ before after, cs = before ++ s.text ++ after ∧
    s.span = ⟨start + Text.size before, start + Text.size before + Text.size s.text⟩
  apart : ss.Pairwise fun s t => s.span.stop ≤ t.span.start
  between : ∀ b, start ≤ b → b < start + Text.size cs →
    (∃ s ∈ ss, s.span.start ≤ b ∧ b < s.span.stop) ∨ IsPassed start cs ss b

namespace Parted

variable {start : Nat} {cs text after : List Char} {s : Slice} {ss : List Slice}

theorem nil (start : Nat) : Parted start [] [] :=
  ⟨by simp, .nil, fun b hlo hhi => by rw [Text.size_nil] at hhi; omega⟩

theorem start_le (h : Parted start cs ss) : ∀ s ∈ ss, start ≤ s.span.start := by
  intro s hs
  obtain ⟨-, before, after, -, hspan⟩ := h.placed s hs
  rw [hspan]
  exact Nat.le_add_right _ _

/-- The slices behind a text stand in the whole as they did. -/
theorem placed_append (h : Parted (start + Text.size text) after ss) :
    ∀ s ∈ ss, s.text ≠ [] ∧ ∃ before behind, text ++ after = before ++ s.text ++ behind ∧
      s.span = ⟨start + Text.size before, start + Text.size before + Text.size s.text⟩ := by
  intro s hs
  obtain ⟨hne, before, behind, rfl, hspan⟩ := h.placed s hs
  refine ⟨hne, text ++ before, behind, by simp, ?_⟩
  rw [hspan, Text.size_append, Nat.add_assoc start]

/-- Slices that end with a text do not reach into the gaps behind it. -/
theorem passed_append {ts : List Slice} {b : Nat}
    (hts : ∀ t ∈ ts, t ∈ ss ∨ t.span.stop ≤ start + Text.size text)
    (h : IsPassed (start + Text.size text) after ss b) : IsPassed start (text ++ after) ts b := by
  obtain ⟨before, gap, behind, rfl, hgap, hlo, hhi, hfree⟩ := h
  refine ⟨text ++ before, gap, behind, by simp, hgap, ?_⟩
  rw [Text.size_append, ← Nat.add_assoc start]
  refine ⟨hlo, hhi, fun t ht => ?_⟩
  rcases hts t ht with ht | ht
  · exact hfree t ht
  · exact .inl (Nat.le_trans ht (Nat.le_add_right _ _))

theorem gap (hgap : IsGap text after) (h : Parted (start + Text.size text) after ss) :
    Parted start (text ++ after) ss where
  placed := h.placed_append
  apart := h.apart
  between b hlo hhi := by
    rw [Text.size_append, ← Nat.add_assoc] at hhi
    by_cases hb : b < start + Text.size text
    · exact .inr ⟨[], text, after, rfl, hgap, hlo, hb, fun s hs => .inr (h.start_le s hs)⟩
    · exact (h.between b (Nat.le_of_not_lt hb) hhi).imp_right (passed_append fun _ => .inl)

theorem cons (hne : text ≠ []) (hspan : s.span = ⟨start, start + Text.size text⟩)
    (htext : s.text = text) (h : Parted (start + Text.size text) after ss) :
    Parted start (text ++ after) (s :: ss) where
  placed := by
    refine List.forall_mem_cons.mpr ⟨⟨htext ▸ hne, [], after, by rw [htext]; rfl, ?_⟩,
      h.placed_append⟩
    rw [hspan, htext]
    rfl
  apart := by
    refine List.pairwise_cons.mpr ⟨fun t ht => ?_, h.apart⟩
    rw [hspan]
    exact h.start_le t ht
  between b hlo hhi := by
    rw [Text.size_append, ← Nat.add_assoc] at hhi
    by_cases hb : b < start + Text.size text
    · exact .inl ⟨s, List.mem_cons_self, by rw [hspan]; exact ⟨hlo, hb⟩⟩
    rcases h.between b (Nat.le_of_not_lt hb) hhi with ⟨t, ht, hin⟩ | hpassed
    · exact .inl ⟨t, List.mem_cons_of_mem s ht, hin⟩
    · refine .inr (passed_append (fun t ht => ?_) hpassed)
      rcases List.mem_cons.mp ht with rfl | ht
      · exact .inr (Nat.le_of_eq (by rw [hspan]))
      · exact .inl ht

end Parted

/-- A row of pieces that is long enough leaves nothing of the text. -/
theorem parted_cutsFrom {steps start : Nat} {cs : List Char} (hs : cs.length ≤ steps) :
    Parted start cs ((cutsFrom steps start cs).filterMap Slice.ofCut?) := by
  induction steps generalizing start cs with
  | zero =>
    obtain rfl := List.eq_nil_of_length_eq_zero (Nat.le_zero.mp hs)
    exact .nil start
  | succ steps ih =>
    cases cs with
    | nil => exact .nil start
    | cons c rest =>
      rw [cutsFrom]
      generalize hp : piece c rest = found
      obtain ⟨x, n⟩ := found
      have hpos := piece_pos hp
      have htail := @ih (start + Text.size ((c :: rest).take n)) ((c :: rest).drop n) (by
        rw [List.length_drop]
        omega)
      have hne : (c :: rest).take n ≠ [] := by
        rw [Ne, List.take_eq_nil_iff, not_or]
        exact ⟨Nat.ne_of_gt hpos, List.cons_ne_nil c rest⟩
      have hsplit : (c :: rest).take n ++ (c :: rest).drop n = c :: rest :=
        List.take_append_drop n (c :: rest)
      conv in Parted start (c :: rest) => rw [← hsplit]
      cases x with
      | trivia => exact .gap (gap_of_piece hp) htail
      | token t => exact .cons hne rfl rfl htail
      | invalid => exact .cons hne rfl rfl htail
      | unclosed delimiter => exact .cons hne rfl rfl htail

theorem reports_of_mem {cs : List Char} {s : Slice} (h : s ∈ slices cs) : s.Reports := by
  obtain ⟨cut, hcut, hs⟩ := List.mem_filterMap.mp h
  obtain ⟨before, c, rest, n, -, hp, htext, -⟩ := cut_stands hcut
  obtain ⟨r, hr, rfl⟩ := Option.map_eq_some_iff.mp hs
  have hfault := hp ▸ fault_piece c rest
  unfold Cut.reading? at hr
  cases hpiece : cut.piece with
  | trivia =>
    rw [hpiece] at hr
    cases hr
  | token t =>
    rw [hpiece] at hr
    obtain rfl := Option.some.inj hr
    exact rfl
  | invalid =>
    rw [hpiece] at hr
    obtain rfl := Option.some.inj hr
    exact ⟨rfl, String.toList_ofList⟩
  | unclosed delimiter =>
    rw [hpiece] at hr hfault
    obtain rfl := Option.some.inj hr
    exact ⟨rfl, htext ▸ hfault.2⟩

/-- Where a token of a text comes from. -/
theorem cut_of_mem {cs : List Char} {l : Lexeme} (h : l ∈ (ofBrokenText cs).1) :
    ∃ cut ∈ cuts cs, cut.piece = .token l.token ∧ l.span = cut.span := by
  obtain ⟨r, hr, hl⟩ := List.mem_filterMap.mp h
  obtain ⟨cut, hcut, hr⟩ := List.mem_filterMap.mp hr
  refine ⟨cut, hcut, ?_, span_of_reading? hr hl⟩
  unfold Cut.reading? at hr
  split at hr <;> grind [Except.toOption]

theorem readings_eq_map (cs : List Char) : readings cs = (slices cs).map (·.reading) := by
  rw [readings, slices, List.map_filterMap]
  congr 1
  funext cut
  rw [Slice.ofCut?, Option.map_map]
  exact Option.map_id'.symm

theorem mapM_id_eq_error_iff {rs : List (Except ParseError Lexeme)} {e : ParseError} :
    rs.mapM id = .error e ↔ (rs.filterMap error?).head? = some e := by
  induction rs with
  | nil => simp [pure, Except.pure]
  | cons r rs ih =>
    rw [List.mapM_cons]
    cases r with
    | error e' =>
      exact ⟨fun h => congrArg some (Except.error.inj h),
        fun h => congrArg Except.error (Option.some.inj h)⟩
    | ok l =>
      refine Iff.trans ?_ ih
      change (rs.mapM id >>= fun ls => pure (l :: ls)) = .error e ↔ _
      cases rs.mapM id with
      | error e' => exact Iff.rfl
      | ok ls => exact ⟨by rintro ⟨⟩, by rintro ⟨⟩⟩

theorem ofBrokenText_snd (cs : List Char) :
    (ofBrokenText cs).2 = (readings cs).filterMap error? := by
  rw [ofBrokenText]
  congr 1

/-- Where a text has errors, the first of them is what is wrong with it. -/
theorem ofText?_eq_error_iff {cs : List Char} {e : ParseError} :
    ofText? cs = .error e ↔ (ofBrokenText cs).2.head? = some e := by
  rw [ofBrokenText_snd]
  exact mapM_id_eq_error_iff

/-- The tokens and the errors of a text stand one after the other in it, none of them is empty, and
every byte outside them is passed over. -/
theorem lexing_loses_nothing (cs : List Char) :
    (ofBrokenText cs).1 = (slices cs).filterMap Slice.lexeme? ∧
    (ofBrokenText cs).2 = (slices cs).filterMap Slice.error? ∧
    (∀ s ∈ slices cs, s.Reports ∧ s.span.start < s.span.stop ∧ s.span.stop ≤ Text.size cs ∧
      Text.slice? cs s.span.start s.span.stop = some s.text) ∧
    (slices cs).Pairwise (fun s t => s.span.stop ≤ t.span.start) ∧
    (∀ b < Text.size cs, (∃ s ∈ slices cs, s.span.start ≤ b ∧ b < s.span.stop) ∨
      ∃ before text after, cs = before ++ text ++ after ∧ IsGap text after ∧
        Text.size before ≤ b ∧ b < Text.size before + Text.size text ∧
        ∀ s ∈ slices cs, s.span.stop ≤ Text.size before ∨
          Text.size before + Text.size text ≤ s.span.start) ∧
    (∀ ls, ofText? cs = .ok ls ↔ ofBrokenText cs = (ls, [])) ∧
    ∀ e, ofText? cs = .error e ↔ (ofBrokenText cs).2.head? = some e := by
  have hparted : Parted 0 cs (slices cs) := parted_cutsFrom (Nat.le_refl _)
  refine ⟨?_, ?_, fun s hs => ⟨reports_of_mem hs, ?_⟩, hparted.apart, fun b hb => ?_,
    fun _ => ofText?_eq_ok_iff, fun _ => ofText?_eq_error_iff⟩
  · rw [ofBrokenText, readings_eq_map, List.filterMap_map]
    rfl
  · rw [ofBrokenText_snd, readings_eq_map, List.filterMap_map]
    rfl
  · obtain ⟨hne, before, after, rfl, hspan⟩ := hparted.placed s hs
    rw [Nat.zero_add] at hspan
    have hsize := Text.size_pos hne
    rw [hspan]
    refine ⟨Nat.lt_add_of_pos_right hsize, ?_, Text.slice?_append before s.text after⟩
    rw [Text.size_append, Text.size_append]
    exact Nat.le_add_right _ _
  · have hb := hparted.between b (Nat.zero_le b) (by rwa [Nat.zero_add])
    simpa only [IsPassed, Nat.zero_add] using hb

end Lexeme

end ScriptInject
