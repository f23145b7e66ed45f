import ScriptInject.Proofs.Pieces
/-! Where a token ends. A token that a text starts with is still there when the rest of the text is
cut off behind it, or replaced by something that begins with a blank or a bracket. -/
namespace ScriptInject.Token

/-- The end of a text, or a character in front of it that goes on with no token. -/
def Neutral (after : List Char) : Prop := ∀ c ∈ after.head?, c ∈ " \n;,)]\x7d(\x7b".toList

/-- A length that is measured from the left: what lies behind does not count. -/
structure Measured (f : List Char → Nat) : Prop where
  cut : ∀ xs after, f (xs ++ after) ≤ xs.length → f xs = f (xs ++ after)
  neutral : ∀ xs after, Neutral after → f (xs ++ after) = f xs

variable {p : Char → Bool} {c : Char} {cs xs after : List Char} {n : Nat} {t : Token}

theorem neutral_cons : Neutral (c :: cs) ↔ c ∈ " \n;,)]\x7d(\x7b".toList := by
  simp [Neutral]

/-- No character of the class is neutral. -/
def Splits (p : Char → Bool) : Prop := ∀ c ∈ " \n;,)]\x7d(\x7b".toList, p c = false

theorem splits_of_all (h : (" \n;,)]\x7d(\x7b".toList.all fun c => !p c) = true) : Splits p :=
  fun c hc => by simpa using List.all_eq_true.mp h c hc

theorem run_cons : run p (c :: cs) = if p c then run p cs + 1 else 0 := by
  unfold run
  rw [List.takeWhile_cons]
  split <;> simp_all

theorem run_nil : run p [] = 0 := rfl

theorem run_cut (h : run p (xs ++ after) ≤ xs.length) : run p xs = run p (xs ++ after) := by
  induction xs with
  | nil => exact (Nat.le_zero.mp h).symm
  | cons c xs ih =>
    simp only [List.cons_append, run_cons, List.length_cons] at h ⊢
    split
    · rename_i hc
      simp only [hc, if_true] at h
      rw [ih (by omega)]
    · rfl

theorem run_append_of_lt (h : run p xs < xs.length) : run p (xs ++ after) = run p xs := by
  induction xs with
  | nil => exact absurd h (Nat.lt_irrefl _)
  | cons c xs ih =>
    simp only [List.cons_append, run_cons, List.length_cons] at h ⊢
    split
    · rename_i hc
      simp only [hc, if_true] at h
      rw [ih (by omega)]
    · rfl

theorem measured_run (hp : Splits p) : Measured (run p) where
  cut _ _ := run_cut
  neutral xs after h := by
    induction xs with
    | nil =>
      cases after with
      | nil => rfl
      | cons c cs => simp [run_cons, run_nil, hp c (neutral_cons.mp h)]
    | cons c xs ih => simp only [List.cons_append, run_cons, ih]

theorem splits_digit : Splits Char.isDigit := splits_of_all (by decide)

theorem splits_hexDigit : Splits isHexDigit := splits_of_all (by decide)

theorem splits_namePart : Splits isNamePart := splits_of_all (by decide)

theorem splits_wordPart : Splits isWordPart := splits_of_all (by decide)

theorem digitsAfter_one : digitsAfter 1 (c :: cs) =
    if run Char.isDigit cs = 0 then 0 else 1 + run Char.isDigit cs := by
  simp only [digitsAfter, List.drop_succ_cons, List.drop_zero]
  cases run Char.isDigit cs <;> simp

theorem digitsAfter_two {d : Char} : digitsAfter 2 (c :: d :: cs) =
    if run Char.isDigit cs = 0 then 0 else 2 + run Char.isDigit cs := by
  simp only [digitsAfter, List.drop_succ_cons, List.drop_zero]
  cases run Char.isDigit cs <;> simp

theorem run_digit_neutral (h : Neutral after) : run Char.isDigit after = 0 :=
  (measured_run splits_digit).neutral [] after h

theorem neutral_ne {d : Char} (h : Neutral (c :: cs)) (hd : d ∉ " \n;,)]\x7d(\x7b".toList) :
    c ≠ d := by
  rintro rfl
  exact hd (neutral_cons.mp h)

theorem fractionLength_dot : fractionLength ('.' :: cs) = digitsAfter 1 ('.' :: cs) := rfl

theorem fractionLength_of_ne (h : c ≠ '.') : fractionLength (c :: cs) = 0 := by
  unfold fractionLength
  split <;> simp_all

theorem measured_fraction : Measured fractionLength where
  cut xs after h := by
    cases xs with
    | nil => exact (Nat.le_zero.mp h).symm
    | cons c xs =>
      by_cases hc : c = '.'
      · subst hc
        have hcut := (measured_run splits_digit).cut xs after
        simp only [List.cons_append, fractionLength_dot, digitsAfter_one, List.length_cons] at h ⊢
        grind
      · rw [List.cons_append, fractionLength_of_ne hc, fractionLength_of_ne hc]
  neutral xs after h := by
    cases xs with
    | nil =>
      cases after with
      | nil => rfl
      | cons d ds => exact fractionLength_of_ne (neutral_ne h (by decide))
    | cons c xs =>
      by_cases hc : c = '.'
      · subst hc
        simp only [List.cons_append, fractionLength_dot, digitsAfter_one,
          (measured_run splits_digit).neutral xs after h]
      · rw [List.cons_append, fractionLength_of_ne hc, fractionLength_of_ne hc]

theorem exponentLength_cons {d : Char} : exponentLength (c :: d :: cs) =
    if c == 'e' || c == 'E' then
      if d == '+' || d == '-' then
        if run Char.isDigit cs = 0 then 0 else 2 + run Char.isDigit cs
      else if run Char.isDigit (d :: cs) = 0 then 0 else 1 + run Char.isDigit (d :: cs)
    else 0 := by
  simp only [exponentLength, digitsAfter_one, digitsAfter_two]

theorem measured_exponent : Measured exponentLength where
  cut xs after h := by
    match xs with
    | [] => exact (Nat.le_zero.mp h).symm
    | [c] =>
      cases after with
      | nil => rfl
      | cons d ds =>
        simp only [List.cons_append, List.nil_append, exponentLength_cons, List.length_cons,
          List.length_nil, show exponentLength [c] = 0 from rfl] at h ⊢
        grind
    | c :: d :: xs =>
      have h₁ := (measured_run splits_digit).cut xs after
      have h₂ := (measured_run splits_digit).cut (d :: xs) after
      simp only [List.cons_append, exponentLength_cons, List.length_cons] at h h₂ ⊢
      grind
  neutral xs after h := by
    match xs, after with
    | [], [] => rfl
    | [], [d] => rfl
    | [], d :: e :: ds =>
      have := neutral_ne h (d := 'e') (by decide)
      have := neutral_ne h (d := 'E') (by decide)
      simp [exponentLength_cons, *, show exponentLength [] = 0 from rfl]
    | [c], [] => rfl
    | [c], d :: ds =>
      have := neutral_ne h (d := '+') (by decide)
      have := neutral_ne h (d := '-') (by decide)
      simp [exponentLength_cons, *, run_digit_neutral h, show exponentLength [c] = 0 from rfl]
    | c :: d :: xs, after =>
      have h₁ := (measured_run splits_digit).neutral xs after h
      have h₂ := (measured_run splits_digit).neutral (d :: xs) after h
      simp only [List.cons_append] at h₂
      simp only [List.cons_append, exponentLength_cons, h₁, h₂]

/-- The letters that end a number on their own. -/
def isSizeLetter (c : Char) : Bool := "dDlL".toList.contains c

/-- The letters that end a number together with a `b`. -/
def isScaleLetter (c : Char) : Bool := "kKmMgGtTpP".toList.contains c

theorem suffixLength_cons : suffixLength (c :: cs) =
    if isSizeLetter c then 1
    else if isScaleLetter c then if cs.head?.any fun b => b == 'b' || b == 'B' then 2 else 0
    else 0 := by
  cases cs <;> simp [suffixLength, isSizeLetter, isScaleLetter]

theorem neutral_letters : ∀ c ∈ " \n;,)]\x7d(\x7b".toList,
    isSizeLetter c = false ∧ isScaleLetter c = false :=
  fun c hc => ⟨splits_of_all (by decide) c hc, splits_of_all (by decide) c hc⟩

theorem measured_suffix : Measured suffixLength where
  cut xs after h := by
    match xs with
    | [] => exact (Nat.le_zero.mp h).symm
    | [c] =>
      simp only [List.cons_append, List.nil_append, suffixLength_cons, List.length_cons,
        List.length_nil, List.head?_nil, Option.any_none] at h ⊢
      grind
    | c :: d :: xs => simp [suffixLength_cons]
  neutral xs after h := by
    match xs, after with
    | [], [] => rfl
    | [], d :: ds =>
      obtain ⟨h₁, h₂⟩ := neutral_letters d (neutral_cons.mp h)
      simp only [List.nil_append, suffixLength_cons, h₁, h₂]
      rfl
    | [c], [] => rfl
    | [c], d :: ds =>
      have := neutral_ne h (d := 'b') (by decide)
      have := neutral_ne h (d := 'B') (by decide)
      simp [suffixLength_cons, *]
    | c :: d :: xs, after => simp [suffixLength_cons]

theorem Measured.then {f g : List Char → Nat} (hf : Measured f) (hg : Measured g)
    (hle : ∀ cs, f cs ≤ cs.length) : Measured fun cs => f cs + g (cs.drop (f cs)) where
  cut xs after h := by
    have hfx := hf.cut xs after (by omega)
    rw [← hfx] at h ⊢
    have hx := hle xs
    rw [List.drop_append_of_le_length hx] at h ⊢
    rw [← hg.cut (xs.drop (f xs)) after (by rw [List.length_drop]; omega)]
  neutral xs after h := by
    rw [hf.neutral xs after h, List.drop_append_of_le_length (hle xs), hg.neutral _ _ h]

theorem Measured.max {f g : List Char → Nat} (hf : Measured f) (hg : Measured g) :
    Measured fun cs => Max.max (f cs) (g cs) where
  cut xs after h := by rw [hf.cut xs after (by omega), hg.cut xs after (by omega)]
  neutral xs after h := by rw [hf.neutral xs after h, hg.neutral xs after h]

theorem measured_decimal : Measured decimalLength := by
  refine Measured.then (Measured.then (Measured.then (measured_run splits_digit)
    measured_fraction fun _ => run_le) measured_exponent ?_) measured_suffix ?_
  · intro cs
    have h₁ : run Char.isDigit cs ≤ cs.length := run_le
    have h₂ : fractionLength (cs.drop (run Char.isDigit cs)) ≤ (cs.drop (run Char.isDigit cs)).length := fractionLength_le
    rw [List.length_drop] at h₂
    omega
  · intro cs
    have h₁ : run Char.isDigit cs ≤ cs.length := run_le
    have h₂ : fractionLength (cs.drop (run Char.isDigit cs)) ≤ (cs.drop (run Char.isDigit cs)).length := fractionLength_le
    have h₃ (k : Nat) : exponentLength (cs.drop k) ≤ (cs.drop k).length := exponentLength_le
    simp only [List.length_drop] at h₂ h₃
    grind

/-- One for the letter of a long number. -/
def longLength (cs : List Char) : Nat := if cs.head?.any fun l => l == 'l' || l == 'L' then 1 else 0

theorem measured_long : Measured longLength where
  cut xs after h := by
    cases xs with
    | nil => exact (Nat.le_zero.mp h).symm
    | cons c xs => rfl
  neutral xs after h := by
    cases xs with
    | nil =>
      cases after with
      | nil => rfl
      | cons d ds =>
        have := neutral_ne h (d := 'l') (by decide)
        have := neutral_ne h (d := 'L') (by decide)
        simp [longLength, *]
    | cons c xs => rfl

theorem measured_hexRun : Measured fun cs => run isHexDigit cs + longLength (cs.drop
    (run isHexDigit cs)) :=
  (measured_run splits_hexDigit).then measured_long fun _ => run_le

theorem hexLength_cons {x : Char} : hexLength (c :: x :: cs) =
    if c = '0' ∧ (x = 'x' ∨ x = 'X') ∧ run isHexDigit cs ≠ 0 then
      2 + (run isHexDigit cs + longLength (cs.drop (run isHexDigit cs)))
    else 0 := by
  by_cases hc : c = '0'
  · subst hc
    simp only [hexLength, longLength]
    generalize run isHexDigit cs = n
    cases n with
    | zero => simp
    | succ n =>
      cases hd : cs.drop (n + 1) with
      | nil => simp [hd, Nat.add_comm]
      | cons l ls =>
        simp only [hd]
        simp
        grind
  · unfold hexLength
    split <;> simp_all

theorem hexLength_singleton : hexLength [c] = 0 := by
  unfold hexLength
  split <;> simp_all

theorem measured_hex : Measured hexLength where
  cut xs after h := by
    match xs with
    | [] => exact (Nat.le_zero.mp h).symm
    | [c] =>
      cases after with
      | nil => rfl
      | cons x ds =>
        simp only [List.cons_append, List.nil_append, hexLength_cons, hexLength_singleton,
          List.length_cons, List.length_nil] at h ⊢
        grind
    | c :: x :: xs =>
      have hcut := (measured_run splits_hexDigit).cut xs after
      have hrun := measured_hexRun.cut xs after
      simp only [List.cons_append, hexLength_cons, List.length_cons] at h ⊢
      grind
  neutral xs after h := by
    match xs, after with
    | [], [] => rfl
    | [], [d] => exact hexLength_singleton
    | [], d :: e :: ds =>
      have := neutral_ne h (d := '0') (by decide)
      simp [hexLength_cons, this, show hexLength [] = 0 from rfl]
    | [c], [] => rfl
    | [c], d :: ds =>
      have := neutral_ne h (d := 'x') (by decide)
      have := neutral_ne h (d := 'X') (by decide)
      simp [hexLength_cons, *, hexLength_singleton]
    | c :: x :: xs, after =>
      have hrun := measured_hexRun.neutral xs after h
      rw [(measured_run splits_hexDigit).neutral xs after h] at hrun
      simp only [List.cons_append, hexLength_cons, hrun,
        (measured_run splits_hexDigit).neutral xs after h]

/-- A colon with a name behind it. -/
def scopeLength : List Char → Nat
  | ':' :: rest => if run isNamePart rest = 0 then 0 else 1 + run isNamePart rest
  | _ => 0

theorem scopeLength_of_ne (h : c ≠ ':') : scopeLength (c :: cs) = 0 := by
  unfold scopeLength
  split <;> simp_all

theorem measured_scope : Measured scopeLength where
  cut xs after h := by
    cases xs with
    | nil => exact (Nat.le_zero.mp h).symm
    | cons c xs =>
      by_cases hc : c = ':'
      · subst hc
        have hcut := (measured_run splits_namePart).cut xs after
        simp only [List.cons_append, scopeLength, List.length_cons] at h ⊢
        grind
      · rw [List.cons_append, scopeLength_of_ne hc, scopeLength_of_ne hc]
  neutral xs after h := by
    cases xs with
    | nil =>
      cases after with
      | nil => rfl
      | cons d ds => exact scopeLength_of_ne (neutral_ne h (by decide))
    | cons c xs =>
      by_cases hc : c = ':'
      · subst hc
        simp only [List.cons_append, scopeLength, (measured_run splits_namePart).neutral xs after h]
      · rw [List.cons_append, scopeLength_of_ne hc, scopeLength_of_ne hc]

theorem measured_scopedName : Measured scopedNameLength := by
  have h := (measured_run splits_namePart).then measured_scope fun _ => run_le
  have he : scopedNameLength = fun cs =>
      run isNamePart cs + scopeLength (cs.drop (run isNamePart cs)) := by
    funext cs
    simp only [scopedNameLength]
    cases hd : cs.drop (run isNamePart cs) with
    | nil => rfl
    | cons d ds =>
      by_cases hc : d = ':'
      · subst hc
        simp only [scopeLength]
        cases run isNamePart ds <;> simp [Nat.add_assoc]
      · rw [scopeLength_of_ne hc]
        split <;> simp_all
  exact he ▸ h

/-! Quoted texts end at their closing quote. -/

/-- A text with each single quote written twice. -/
def doubled (value : List Char) : List Char :=
  value.flatMap fun c => if c == '\x27' then [c, c] else [c]

theorem doubled_quote (value : List Char) :
    doubled ('\x27' :: value) = '\x27' :: '\x27' :: doubled value := rfl

theorem doubled_of_ne (value : List Char) (h : c ≠ '\x27') :
    doubled (c :: value) = c :: doubled value := by
  simp [doubled, h]

theorem singleQuotedBody_doubled (value : List Char) (h : after.head? ≠ some '\x27') :
    singleQuotedBody (doubled value ++ '\x27' :: after) =
      some (value, (doubled value).length + 1) := by
  induction value with
  | nil =>
    cases after with
    | nil => rfl
    | cons c cs => simp_all [doubled, singleQuotedBody]
  | cons c value ih =>
    by_cases hc : c = '\x27'
    · subst hc
      simp [doubled_quote, singleQuotedBody, ih]
    · simp [doubled_of_ne _ hc, singleQuotedBody, hc, ih]

theorem of_singleQuotedBody {value : List Char} (h : singleQuotedBody cs = some (value, n)) :
    ∃ rest, cs = doubled value ++ '\x27' :: rest ∧ rest.head? ≠ some '\x27' ∧
      n = (doubled value).length + 1 := by
  fun_induction singleQuotedBody cs generalizing value n with
  | case1 cs ih =>
    obtain ⟨⟨v, m⟩, hm, he⟩ := Option.map_eq_some_iff.mp h
    obtain ⟨rest, rfl, hr, rfl⟩ := ih hm
    simp only [Prod.mk.injEq] at he
    obtain ⟨rfl, rfl⟩ := he
    exact ⟨rest, rfl, hr, rfl⟩
  | case2 cs hne =>
    simp only [Option.some.injEq, Prod.mk.injEq] at h
    obtain ⟨rfl, rfl⟩ := h
    refine ⟨cs, rfl, ?_, rfl⟩
    cases cs with
    | nil => simp
    | cons d ds =>
      rw [List.head?_cons]
      rintro ⟨⟩
      exact hne ds rfl
  | case3 c cs _ hne ih =>
    obtain ⟨⟨v, m⟩, hm, he⟩ := Option.map_eq_some_iff.mp h
    obtain ⟨rest, rfl, hr, rfl⟩ := ih hm
    simp only [Prod.mk.injEq] at he
    obtain ⟨rfl, rfl⟩ := he
    rw [doubled_of_ne v hne]
    exact ⟨rest, rfl, hr, rfl⟩
  | case4 => cases h

/-- What stands between double quotes does not depend on what follows them. -/
theorem of_doubleQuotedEnd (h : doubleQuotedEnd cs = .closed n) :
    ∃ body rest, cs = body ++ '\x22' :: rest ∧ rest.head? ≠ some '\x22' ∧ n = body.length + 1 ∧
      ∀ after, after.head? ≠ some '\x22' →
        doubleQuotedEnd (body ++ '\x22' :: after) = .closed (body.length + 1) := by
  fun_induction doubleQuotedEnd cs generalizing n with
  | case1 c cs ih =>
    obtain ⟨m, hm, rfl⟩ := after_eq_closed h
    obtain ⟨body, rest, rfl, hr, rfl, hend⟩ := ih hm
    refine ⟨'\x60' :: c :: body, rest, rfl, hr, by simp, fun after ha => ?_⟩
    simp [doubleQuotedEnd, hend after ha, QuoteEnd.after]
  | case2 => cases h
  | case3 cs ih =>
    obtain ⟨m, hm, rfl⟩ := after_eq_closed h
    obtain ⟨body, rest, rfl, hr, rfl, hend⟩ := ih hm
    refine ⟨'\x22' :: '\x22' :: body, rest, rfl, hr, by simp, fun after ha => ?_⟩
    simp [doubleQuotedEnd, hend after ha, QuoteEnd.after]
  | case4 cs hne =>
    obtain rfl := QuoteEnd.closed.inj h
    refine ⟨[], cs, rfl, ?_, rfl, fun after ha => ?_⟩
    · cases cs with
      | nil => simp
      | cons d ds =>
        rw [List.head?_cons]
        rintro ⟨⟩
        exact hne ds rfl
    · cases after with
      | nil => rfl
      | cons d ds => simp_all [doubleQuotedEnd]
  | case5 c cs h₁ h₂ h₃ h₄ ih =>
    obtain ⟨m, hm, rfl⟩ := after_eq_closed h
    obtain ⟨body, rest, rfl, hr, rfl, hend⟩ := ih hm
    refine ⟨c :: body, rest, rfl, hr, by simp, fun after ha => ?_⟩
    have hc : c ≠ '\x60' := by
      rintro rfl
      cases body <;> simp_all
    have hd : c ≠ '\x22' := by
      rintro rfl
      cases body <;> simp_all
    simp [doubleQuotedEnd, hc, hd, hend after ha, QuoteEnd.after]
  | case6 => cases h

theorem find?_cut {pattern : List Char} (h : Text.find? pattern (xs ++ after) = some n)
    (hn : n + pattern.length ≤ xs.length) : Text.find? pattern xs = some n := by
  induction xs generalizing n with
  | nil =>
    obtain ⟨rfl, hp⟩ : n = 0 ∧ pattern.length = 0 := by
      simp only [List.length_nil] at hn
      omega
    simp [Text.find?, List.eq_nil_of_length_eq_zero hp]
  | cons c xs ih =>
    simp only [List.cons_append, Text.find?] at h ⊢
    split at h
    · rename_i hp
      obtain rfl := Option.some.inj h
      have hpre : pattern.isPrefixOf (c :: xs) = true := by
        rw [List.isPrefixOf_iff_prefix] at hp ⊢
        exact List.prefix_of_prefix_length_le hp (List.prefix_append (c :: xs) after) (by omega)
      simp [hpre]
    · rename_i hp
      obtain ⟨m, hm, rfl⟩ := Option.map_eq_some_iff.mp h
      have hpre : ¬ pattern.isPrefixOf (c :: xs) = true := by
        rw [List.isPrefixOf_iff_prefix] at hp ⊢
        exact fun h => hp (h.trans (List.prefix_append (c :: xs) after))
      rw [if_neg hpre, ih hm (by simp only [List.length_cons] at hn; omega)]
      rfl

theorem find?_append {pattern : List Char} (h : Text.find? pattern xs = some n) :
    Text.find? pattern (xs ++ after) = some n := by
  induction xs generalizing n with
  | nil =>
    unfold Text.find? at h
    split at h
    · rename_i hp
      obtain rfl := Option.some.inj h
      cases after <;> simp [Text.find?, List.isEmpty_iff.mp hp]
    · exact absurd h nofun
  | cons c xs ih =>
    simp only [List.cons_append, Text.find?] at h ⊢
    split at h
    · rename_i hp
      have hpre : pattern.isPrefixOf (c :: (xs ++ after)) = true := by
        rw [List.isPrefixOf_iff_prefix] at hp ⊢
        exact hp.trans (List.prefix_append (c :: xs) after)
      rw [if_pos hpre, h]
    · rename_i hp
      obtain ⟨m, hm, rfl⟩ := Option.map_eq_some_iff.mp h
      have hle := find?_le hm
      have hpre : ¬ pattern.isPrefixOf (c :: (xs ++ after)) = true := by
        rw [List.isPrefixOf_iff_prefix] at hp ⊢
        intro hpp
        exact hp (List.prefix_of_prefix_length_le hpp (List.prefix_append (c :: xs) after)
          (by simp only [List.length_cons]; omega))
      rw [if_neg hpre, ih hm]
      rfl

theorem hereString_eq {quote : Char} {value : List Char} :
    hereString quote xs = some (value, n) ↔ ∃ header length,
      Text.find? ['\n'] xs = some header ∧ (xs.take header).all Text.isBlank ∧
      Text.find? ['\n', quote, '@'] (xs.drop header) = some length ∧
      (if (((xs.drop header).take length).drop 1).getLast? = some '\r' then
        (((xs.drop header).take length).drop 1).dropLast
        else ((xs.drop header).take length).drop 1) = value ∧
      2 + header + length + 3 = n := by
  delta hereString guard
  simp only [Option.bind_eq_bind, Option.bind_eq_some_iff, Option.pure_def,
    Option.some.injEq, Prod.mk.injEq]
  constructor
  · rintro ⟨header, hheader, _, hblank, length, hlength, hvalue, hn⟩
    exact ⟨header, length, hheader, by simpa using hblank, hlength, hvalue, hn⟩
  · rintro ⟨header, length, hheader, hblank, hlength, hvalue, hn⟩
    exact ⟨header, hheader, (), by simpa using hblank, length, hlength, hvalue, hn⟩

theorem hereString_append {quote : Char} {value : List Char}
    (h : hereString quote xs = some (value, n)) :
    hereString quote (xs ++ after) = some (value, n) := by
  obtain ⟨header, length, hheader, hblank, hlength, rfl, rfl⟩ := hereString_eq.mp h
  have hle := find?_le hheader
  have hle' := find?_le hlength
  simp only [List.length_cons, List.length_nil, List.length_drop] at hle hle'
  rw [hereString_eq]
  refine ⟨header, length, find?_append hheader, ?_, ?_, ?_, rfl⟩
  · rwa [List.take_append_of_le_length (by omega)]
  · rw [List.drop_append_of_le_length (by omega)]
    exact find?_append hlength
  · rw [List.drop_append_of_le_length (by omega),
      List.take_append_of_le_length (by rw [List.length_drop]; omega)]

theorem hereString_cut {quote : Char} {value : List Char}
    (h : hereString quote (xs ++ after) = some (value, n)) (hle : n ≤ xs.length + 2) :
    hereString quote xs = some (value, n) := by
  obtain ⟨header, length, hheader, hblank, hlength, rfl, hn⟩ := hereString_eq.mp h
  have hhead : header + 1 ≤ xs.length := by omega
  rw [List.drop_append_of_le_length (by omega)] at hlength ⊢
  rw [List.take_append_of_le_length (by omega)] at hblank
  rw [List.take_append_of_le_length (by rw [List.length_drop]; omega)]
  refine hereString_eq.mpr ⟨header, length, find?_cut hheader hhead, hblank, ?_, rfl, hn⟩
  apply find?_cut hlength
  simp only [List.length_cons, List.length_nil, List.length_drop]
  omega

/-- A piece that lies in `cs` is found with or without a text behind `cs`; gaps must not reach the
end of `cs`, where a neutral text could go on with them. -/
structure Settles (f : List Char → Piece × Nat) : Prop where
  cut : ∀ {cs after x n}, f (cs ++ after) = (x, n + 1) → x.IsRead → n ≤ cs.length →
    f cs = (x, n + 1)
  neutral : ∀ {cs after x n}, f cs = (x, n + 1) → x.IsRead → n ≤ cs.length →
    (x = .trivia → n < cs.length) → Neutral after → f (cs ++ after) = (x, n + 1)

theorem settles_measured {g : List Char → Nat} (hg : Measured g) (make : List Char → Token) :
    Settles fun cs => (.token (make (cs.take (g cs))), g cs + 1) where
  cut {cs after x n} h _ hn := by
    simp only [Prod.mk.injEq, Nat.add_right_cancel_iff] at h ⊢
    have hcut := hg.cut cs after (by omega)
    rw [hcut, ← h.1, h.2, List.take_append_of_le_length hn]
    exact ⟨rfl, rfl⟩
  neutral {cs after x n} h _ hn _ ha := by
    simp only [Prod.mk.injEq, Nat.add_right_cancel_iff] at h ⊢
    rw [hg.neutral cs after ha, ← h.1, h.2, List.take_append_of_le_length hn]
    exact ⟨rfl, rfl⟩

theorem settles_ofPrefix {make : String → Token} {g : List Char → Nat} (hg : Measured g) :
    Settles fun cs => ofPrefix make (c :: cs) (g (c :: cs)) where
  cut {cs after x n} h _ hn := by
    simp only [ofPrefix, Prod.mk.injEq] at h ⊢
    have hcut := hg.cut (c :: cs) after (by simp only [List.cons_append, List.length_cons]; omega)
    simp only [List.cons_append] at hcut
    rw [hcut, h.2, ← h.1, h.2, List.take_succ_cons, List.take_succ_cons,
      List.take_append_of_le_length hn]
    exact ⟨rfl, rfl⟩
  neutral {cs after x n} h _ hn _ ha := by
    simp only [ofPrefix, Prod.mk.injEq] at h ⊢
    have hneutral := hg.neutral (c :: cs) after ha
    simp only [List.cons_append] at hneutral
    rw [hneutral, h.2, ← h.1, h.2, List.take_succ_cons, List.take_succ_cons,
      List.take_append_of_le_length hn]
    exact ⟨rfl, rfl⟩

theorem isPrefixOf_append {ys : List Char} (h : ys.isPrefixOf xs = true) :
    ys.isPrefixOf (xs ++ after) = true := by
  rw [List.isPrefixOf_iff_prefix] at h ⊢
  exact h.trans (List.prefix_append xs after)

/-- The marks that a text might go on with are longer than one character, and none of them has a
neutral second character. -/
def Distinct (ms : List Mark) : Prop :=
  ∀ m ∈ ms, ∀ d ∈ " \n;,)]\x7d(\x7b".toList, d ∉ m.text.toList.tail

theorem distinct_of_all {ms : List Mark} (h : (ms.all fun m => " \n;,)]\x7d(\x7b".toList.all fun d =>
    !m.text.toList.tail.contains d) = true) : Distinct ms := fun m hm d hd => by
  simpa using List.all_eq_true.mp (List.all_eq_true.mp h m hm) d hd

theorem ofMarks_eq_read {ms : List Mark} {x : Piece} (hx : x.IsRead) :
    ofMarks cs ms = (x, n) ↔ ∃ m us vs, ms = us ++ m :: vs ∧ x = .token (.mark m) ∧
      n = m.text.length ∧ m.text.toList.isPrefixOf cs = true ∧
      ∀ u ∈ us, u.text.toList.isPrefixOf cs = false := by
  unfold ofMarks
  constructor
  · intro h
    split at h
    · rename_i m hm
      obtain ⟨hp, us, vs, rfl, hus⟩ := List.find?_eq_some_iff_append.mp hm
      simp only [ofMark, Prod.mk.injEq] at h
      exact ⟨m, us, vs, rfl, h.1.symm, h.2.symm, hp, by simpa using hus⟩
    · obtain rfl := congrArg Prod.fst h
      exact hx.elim
  · rintro ⟨m, us, vs, rfl, rfl, rfl, hp, hus⟩
    have hm : (us ++ m :: vs).find? (fun m => m.text.toList.isPrefixOf cs) = some m :=
      List.find?_eq_some_iff_append.mpr ⟨hp, us, vs, rfl, by simpa using hus⟩
    rw [hm]
    rfl

theorem settles_ofMarks {ms : List Mark} (hms : Distinct ms) :
    Settles fun cs => ofMarks (c :: cs) ms where
  cut {cs after x n} h hx hn := by
    obtain ⟨m, us, vs, rfl, rfl, hm, hp, hus⟩ := (ofMarks_eq_read hx).mp h
    refine (ofMarks_eq_read hx).mpr ⟨m, us, vs, rfl, rfl, hm, ?_, fun u hu => ?_⟩
    · rw [List.isPrefixOf_iff_prefix] at hp ⊢
      refine List.prefix_of_prefix_length_le hp (List.prefix_append (c :: cs) after) ?_
      rw [String.length_toList, ← hm, List.length_cons]
      omega
    · cases hb : u.text.toList.isPrefixOf (c :: cs) with
      | false => rfl
      | true => exact absurd (isPrefixOf_append hb) (by rw [List.cons_append, hus u hu]; nofun)
  neutral {cs after x n} h hx hn _ ha := by
    obtain ⟨m, us, vs, rfl, rfl, hm, hp, hus⟩ := (ofMarks_eq_read hx).mp h
    refine (ofMarks_eq_read hx).mpr
      ⟨m, us, vs, rfl, rfl, hm, isPrefixOf_append hp, fun u hu => ?_⟩
    cases hb : u.text.toList.isPrefixOf (c :: (cs ++ after)) with
    | false => rfl
    | true =>
      exfalso
      obtain ⟨rest, hr⟩ := List.isPrefixOf_iff_prefix.mp hb
      have hnot := hus u hu
      -- the mark is longer than the text, so it has the first character of what follows
      rw [← List.cons_append] at hr
      rcases List.append_eq_append_iff.mp hr with ⟨zs, hz, -⟩ | ⟨zs, hz, hza⟩
      · rw [hz, List.isPrefixOf_iff_prefix.mpr (List.prefix_append _ zs)] at hnot
        exact absurd hnot nofun
      · cases zs with
        | nil =>
          rw [List.append_nil] at hz
          rw [hz, List.isPrefixOf_iff_prefix.mpr (List.prefix_refl _)] at hnot
          exact absurd hnot nofun
        | cons d zs =>
          refine hms u (by simp [hu]) d (neutral_cons.mp (hza ▸ ha)) ?_
          simp [hz]

/-- A choice by the next character. With nothing left to look at, the first way must take a
character that is not there, and the second way must not be led astray by a neutral one. -/
theorem settles_choice {q : Char → Bool} {f g : List Char → Piece × Nat} (hf : Settles f)
    (hg : Settles g) (hlong : ∀ cs x, cs.head?.any q = true → x.IsRead → f cs ≠ (x, 1))
    (hq : Splits q ∨ ¬ (g []).1.IsRead) :
    Settles fun cs => if cs.head?.any q then f cs else g cs where
  cut {cs after x n} h hx hn := by
    cases cs with
    | nil =>
      obtain rfl := Nat.le_zero.mp hn
      simp only [List.nil_append] at h
      split at h
      · rename_i hany
        exact absurd h (hlong _ x hany hx)
      · exact hg.cut h hx hn
    | cons c cs =>
      by_cases hc : q c = true
      · simp only [List.cons_append, List.head?_cons, Option.any_some, hc, if_true] at h ⊢
        exact hf.cut h hx hn
      · simp only [List.cons_append, List.head?_cons, Option.any_some, hc, Bool.false_eq_true,
          if_false] at h ⊢
        exact hg.cut h hx hn
  neutral {cs after x n} h hx hn hgap ha := by
    cases cs with
    | nil =>
      simp only [List.head?_nil, Option.any_none, Bool.false_eq_true, if_false] at h
      rcases hq with hq | hq
      · have hnone : after.head?.any q = false := by
          cases after with
          | nil => rfl
          | cons d ds => exact hq d (neutral_cons.mp ha)
        simp only [List.nil_append, hnone, Bool.false_eq_true, if_false]
        exact hg.neutral h hx hn hgap ha
      · rw [h] at hq
        exact absurd hx hq
    | cons c cs =>
      by_cases hc : q c = true
      · simp only [List.cons_append, List.head?_cons, Option.any_some, hc, if_true] at h ⊢
        exact hf.neutral h hx hn hgap ha
      · simp only [List.cons_append, List.head?_cons, Option.any_some, hc, Bool.false_eq_true,
          if_false] at h ⊢
        exact hg.neutral h hx hn hgap ha

theorem settles_const (x : Piece × Nat) : Settles fun _ => x :=
  ⟨fun h _ _ => h, fun h _ _ _ _ => h⟩

/-- One for a colon. -/
def colonLength (cs : List Char) : Nat := if cs.head?.any (· == ':') then 1 else 0

theorem measured_colon : Measured colonLength where
  cut xs after h := by
    cases xs with
    | nil => exact (Nat.le_zero.mp h).symm
    | cons c xs => rfl
  neutral xs after h := by
    cases xs with
    | nil =>
      cases after with
      | nil => rfl
      | cons d ds => simp [colonLength, neutral_ne h (d := ':') (by decide)]
    | cons c xs => rfl

def dashMarks : List Mark := [.minusAssign, .minusMinus, .minus]

/-- The length of a name with an optional colon behind it. -/
def dashLength (cs : List Char) : Nat :=
  run isNamePart cs + colonLength (cs.drop (run isNamePart cs))

theorem measured_dash : Measured dashLength :=
  (measured_run splits_namePart).then measured_colon fun _ => run_le

theorem scanDash_eq (rest : List Char) : scanDash rest =
    if rest.head?.any isNameStart then
      (.token (.dashWord (String.ofList ('-' :: rest.take (dashLength rest)))), dashLength rest + 1)
    else ofMarks ('-' :: rest) dashMarks := by
  unfold scanDash
  cases rest with
  | nil => rfl
  | cons c cs =>
    rw [List.head?_cons, Option.any_some]
    by_cases hc : isNameStart c = true
    · simp only [hc, if_true, ofPrefix, dashLength]
      cases (c :: cs).drop (run isNamePart (c :: cs)) with
      | nil => simp only [colonLength, Nat.add_comm 1, List.take_succ_cons]; rfl
      | cons d ds =>
        by_cases hd : d = ':'
        · subst hd
          simp only [colonLength, Nat.add_comm 1, Nat.add_right_comm, List.take_succ_cons]; rfl
        · simp only [colonLength, Nat.add_comm 1]
          simp [hd]
    · simp only [hc, Bool.false_eq_true, if_false]
      rfl

theorem isNamePart_of_isNameStart (h : isNameStart c = true) : isNamePart c = true := by
  simp_all [isNamePart, isNameStart, Char.isAlphanum]
  grind

theorem settles_scanDash : Settles scanDash := by
  rw [funext scanDash_eq]
  refine settles_choice
    (settles_measured measured_dash fun cs => .dashWord (String.ofList ('-' :: cs)))
    (settles_ofMarks (distinct_of_all (by decide))) ?_ (.inl (splits_of_all (by decide)))
  intro cs x hany _
  cases cs with
  | nil => simp at hany
  | cons c cs =>
    have : 0 < run isNamePart (c :: cs) :=
      run_pos (isNamePart_of_isNameStart (by simpa using hany))
    simp only [dashLength, ne_eq, Prod.mk.injEq, not_and]
    intro _
    omega

/-- A name in braces, up to and with the closing brace. -/
def scanBraced : List Char → Piece × Nat
  | _ :: body =>
    let n := run (· != '\x7d') body
    if n == 0 then (.invalid, 1)
    else if n < body.length then (.token (.variableName (String.ofList (body.take n))), n + 3)
    else (.invalid, n + 2)
  | [] => (.invalid, 1)

theorem scanBraced_eq_read {x : Piece} (hx : x.IsRead) : scanBraced (c :: cs) = (x, n) ↔
    run (· != '\x7d') cs ≠ 0 ∧ run (· != '\x7d') cs < cs.length ∧
      x = .token (.variableName (String.ofList (cs.take (run (· != '\x7d') cs)))) ∧
      n = run (· != '\x7d') cs + 3 := by
  simp only [scanBraced]
  generalize run (· != '\x7d') cs = k
  by_cases hk : k = 0
  · simp only [hk, beq_self_eq_true, if_true, Prod.mk.injEq]
    constructor
    · rintro ⟨rfl, -⟩
      exact hx.elim
    · rintro ⟨h, -⟩
      exact absurd rfl h
  · by_cases hl : k < cs.length
    · simp only [hk, hl, beq_iff_eq, if_false, if_true, Prod.mk.injEq, ne_eq,
        not_false_eq_true, true_and]
      exact ⟨fun h => ⟨h.1.symm, h.2.symm⟩, fun h => ⟨h.1.symm, h.2.symm⟩⟩
    · simp only [hk, hl, beq_iff_eq, if_false, Prod.mk.injEq]
      constructor
      · rintro ⟨rfl, -⟩
        exact hx.elim
      · rintro ⟨-, h, -⟩
        exact h.elim

theorem settles_scanBraced : Settles scanBraced where
  cut {cs after x n} h hx hn := by
    cases cs with
    | nil =>
      cases after with
      | nil => exact h
      | cons c cs =>
        have := ((scanBraced_eq_read hx).mp h).2.2.2
        simp only [List.length_nil] at hn
        omega
    | cons c cs =>
      rw [List.cons_append] at h
      obtain ⟨hne, -, ht, he⟩ := (scanBraced_eq_read hx).mp h
      simp only [List.length_cons] at hn
      have hcut : run (· != '\x7d') cs = run (· != '\x7d') (cs ++ after) := run_cut (by omega)
      rw [← hcut] at hne ht he
      rw [List.take_append_of_le_length (by omega)] at ht
      exact (scanBraced_eq_read hx).mpr ⟨hne, by omega, ht, he⟩
  neutral {cs after x n} h hx _ _ _ := by
    cases cs with
    | nil =>
      obtain rfl := congrArg Prod.fst h
      exact hx.elim
    | cons c cs =>
      obtain ⟨hne, hlt, ht, he⟩ := (scanBraced_eq_read hx).mp h
      have happ : run (· != '\x7d') (cs ++ after) = run (· != '\x7d') cs := run_append_of_lt hlt
      rw [List.cons_append]
      refine (scanBraced_eq_read hx).mpr ⟨?_, ?_, ?_, ?_⟩
      · rwa [happ]
      · rw [happ, List.length_append]
        omega
      · rw [happ, List.take_append_of_le_length (by omega)]
        exact ht
      · rwa [happ]

/-- The variables whose names are a single mark. -/
def scanSpecial : List Char → Piece × Nat
  | c :: _ => if c == '?' || c == '^' || c == '$' then
      (.token (.variableName (String.ofList [c])), 2) else (.invalid, 1)
  | [] => (.invalid, 1)

theorem settles_scanSpecial : Settles scanSpecial where
  cut {cs after x n} h hx hn := by
    cases cs with
    | nil =>
      obtain rfl := Nat.le_zero.mp hn
      cases after with
      | nil => exact h
      | cons c cs =>
        simp only [List.nil_append, scanSpecial] at h
        split at h
        · exact absurd (congrArg Prod.snd h) (by simp)
        · obtain rfl := congrArg Prod.fst h
          exact hx.elim
    | cons c cs => exact h
  neutral {cs after x n} h hx _ _ _ := by
    cases cs with
    | nil =>
      obtain rfl := congrArg Prod.fst h
      exact hx.elim
    | cons c cs => exact h

theorem scanDollar_eq (rest : List Char) : scanDollar rest =
    if rest.head?.any (· == '(') then (.token (.mark .dollarParen), 2)
    else if rest.head?.any (· == '\x7b') then scanBraced rest
    else if rest.head?.any isNamePart then
      (.token (.variableName (String.ofList (rest.take (scopedNameLength rest)))),
        scopedNameLength rest + 1)
    else scanSpecial rest := by
  cases rest with
  | nil => rfl
  | cons c cs =>
    by_cases hp : c = '('
    · subst hp
      rfl
    by_cases hb : c = '\x7b'
    · subst hb
      rfl
    simp only [List.head?_cons, Option.any_some]
    by_cases hn : isNamePart c = true
    · simp [scanDollar, hp, hb, hn]
    · simp [scanDollar, hp, hb, hn, scanSpecial]

theorem scopedNameLength_pos (h : isNamePart c = true) : 0 < scopedNameLength (c :: cs) := by
  have : 0 < run isNamePart (c :: cs) := run_pos h
  simp only [scopedNameLength]
  split
  · split <;> omega
  · exact this

theorem settles_scanDollar : Settles scanDollar := by
  rw [funext scanDollar_eq]
  refine settles_choice (settles_const _) (settles_choice settles_scanBraced
    (settles_choice (settles_measured measured_scopedName fun cs => .variableName (String.ofList cs))
      settles_scanSpecial ?_ (.inr id)) ?_ (.inr id)) (by simp) (.inr id)
  · intro cs x hany _
    cases cs with
    | nil => simp at hany
    | cons c cs =>
      have : 0 < scopedNameLength (c :: cs) := scopedNameLength_pos (by simpa using hany)
      simp only [ne_eq, Prod.mk.injEq, not_and]
      intro _
      omega
  · intro cs x _ hx h
    cases cs with
    | nil =>
      obtain rfl := congrArg Prod.fst h
      exact hx.elim
    | cons c cs =>
      have := ((scanBraced_eq_read hx).mp h).2.2.2
      omega

/-- The tail of a text is read as a here-string. -/
def scanHereTail (quote : Char) (make : String → Token) (rest : List Char) : Piece × Nat :=
  scanHereString quote make rest.tail

theorem scanHereString_eq_read {quote : Char} {make : String → Token} {x : Piece}
    (hx : x.IsRead) : scanHereString quote make cs = (x, n) ↔
      ∃ value, hereString quote cs = some (value, n) ∧ x = .token (make (String.ofList value)) := by
  unfold scanHereString
  cases hereString quote cs with
  | none =>
    constructor
    · intro h
      obtain rfl := congrArg Prod.fst h
      exact hx.elim
    · rintro ⟨_, h, -⟩
      exact absurd h nofun
  | some r =>
    obtain ⟨value, m⟩ := r
    simp only [Prod.mk.injEq, Option.some.injEq]
    grind

theorem settles_scanHereTail (quote : Char) (make : String → Token) :
    Settles (scanHereTail quote make) where
  cut {cs after x n} h hx hn := by
    obtain ⟨value, hv, rfl⟩ := (scanHereString_eq_read hx).mp h
    have hle := (hereString_le hv).1
    cases cs with
    | nil =>
      simp only [List.length_nil] at hn
      omega
    | cons c cs =>
      exact (scanHereString_eq_read hx).mpr
        ⟨value, hereString_cut hv (by simp only [List.length_cons, List.tail_cons] at hn ⊢; omega),
          rfl⟩
  neutral {cs after x n} h hx hn _ _ := by
    obtain ⟨value, hv, rfl⟩ := (scanHereString_eq_read hx).mp h
    have hle := (hereString_le hv).1
    cases cs with
    | nil =>
      simp only [List.length_nil] at hn
      omega
    | cons c cs => exact (scanHereString_eq_read hx).mpr ⟨value, hereString_append hv, rfl⟩

theorem scanAt_eq (rest : List Char) : scanAt rest =
    if rest.head?.any (· == '(') then (.token (.mark .atParen), 2)
    else if rest.head?.any (· == '\x7b') then (.token (.mark .atBrace), 2)
    else if rest.head?.any (· == '\x27') then scanHereTail '\x27' .singleHereString rest
    else if rest.head?.any (· == '\x22') then scanHereTail '\x22' .doubleHereString rest
    else if rest.head?.any isNameStart then
      (.token (.splat (String.ofList (rest.take (run isNamePart rest)))), run isNamePart rest + 1)
    else (.invalid, 1) := by
  cases rest with
  | nil => rfl
  | cons c cs =>
    by_cases hp : c = '('
    · subst hp
      rfl
    by_cases hb : c = '\x7b'
    · subst hb
      rfl
    by_cases hs : c = '\x27'
    · subst hs
      rfl
    by_cases hd : c = '\x22'
    · subst hd
      rfl
    by_cases hn : isNameStart c = true <;> simp [scanAt, hp, hb, hs, hd, hn]

theorem settles_scanAt : Settles scanAt := by
  have hlong {quote : Char} {make : String → Token} (cs : List Char) (x : Piece) (hx : x.IsRead) :
      scanHereTail quote make cs ≠ (x, 1) := by
    intro h
    obtain ⟨value, hv, -⟩ := (scanHereString_eq_read hx).mp h
    have := (hereString_le hv).1
    omega
  rw [funext scanAt_eq]
  refine settles_choice (settles_const _) (settles_choice (settles_const _)
    (settles_choice (settles_scanHereTail _ _) (settles_choice (settles_scanHereTail _ _)
      (settles_choice
        (settles_measured (measured_run splits_namePart) fun cs => .splat (String.ofList cs))
        (settles_const _) ?_ (.inr id)) (fun cs x _ => hlong cs x) (.inr id))
      (fun cs x _ => hlong cs x) (.inr id)) (by simp) (.inr id)) (by simp) (.inr id)
  intro cs x hany _
  cases cs with
  | nil => simp at hany
  | cons c cs =>
    have : 0 < run isNamePart (c :: cs) :=
      run_pos (isNamePart_of_isNameStart (by simpa using hany))
    simp only [ne_eq, Prod.mk.injEq, not_and]
    intro _
    omega

theorem neutral_head?_ne {d : Char} (h : Neutral after) (hd : d ∉ " \n;,)]\x7d(\x7b".toList) :
    after.head? ≠ some d := fun he => hd (h d he)

/-- The rest of a text in single quotes. -/
def scanSingleQuoted (rest : List Char) : Piece × Nat :=
  match singleQuotedBody rest with
  | some (value, n) => (.token (.singleQuoted (String.ofList value)), n + 1)
  | none => (.unclosed "'", rest.length + 1)

theorem scanSingleQuoted_eq_read {x : Piece} (hx : x.IsRead) :
    scanSingleQuoted cs = (x, n + 1) ↔ ∃ value rest, cs = doubled value ++ '\x27' :: rest ∧
      rest.head? ≠ some '\x27' ∧ n = (doubled value).length + 1 ∧
      x = .token (.singleQuoted (String.ofList value)) := by
  unfold scanSingleQuoted
  constructor
  · intro h
    split at h
    · rename_i value m hm
      obtain ⟨rest, hcs, hrest, rfl⟩ := of_singleQuotedBody hm
      simp only [Prod.mk.injEq] at h
      exact ⟨value, rest, hcs, hrest, by omega, h.1.symm⟩
    · obtain rfl := congrArg Prod.fst h
      exact hx.elim
  · rintro ⟨value, rest, rfl, hrest, rfl, rfl⟩
    rw [singleQuotedBody_doubled value hrest]

theorem append_prefix {ys zs : List Char} (h : xs ++ after = ys ++ zs)
    (hle : ys.length ≤ xs.length) : ∃ ws, xs = ys ++ ws ∧ zs = ws ++ after := by
  rcases List.append_eq_append_iff.mp h with ⟨ws, hy, ha⟩ | ⟨ws, hx, hz⟩
  · have : ws = [] := by
      have := congrArg List.length hy
      rw [List.length_append] at this
      exact List.eq_nil_of_length_eq_zero (by omega)
    subst this
    exact ⟨[], by simp [hy], by simp [ha]⟩
  · exact ⟨ws, hx, hz⟩

theorem head?_ne_of_append {d : Char} (h : (xs ++ after).head? ≠ some d) : xs.head? ≠ some d := by
  cases xs with
  | nil => nofun
  | cons c cs => exact h

theorem append_head?_ne {d : Char} (h : xs.head? ≠ some d) (ha : Neutral after)
    (hd : d ∉ " \n;,)]\x7d(\x7b".toList) : (xs ++ after).head? ≠ some d := by
  cases xs with
  | nil => exact neutral_head?_ne ha hd
  | cons c cs => exact h

theorem settles_scanSingleQuoted : Settles scanSingleQuoted where
  cut {cs after x n} h hx hn := by
    obtain ⟨value, rest, hcs, hrest, rfl, rfl⟩ := (scanSingleQuoted_eq_read hx).mp h
    rw [List.append_cons] at hcs
    obtain ⟨ws, rfl, rfl⟩ := append_prefix hcs (by simpa using hn)
    exact (scanSingleQuoted_eq_read hx).mpr
      ⟨value, ws, by simp, head?_ne_of_append hrest, rfl, rfl⟩
  neutral {cs after x n} h hx _ _ ha := by
    obtain ⟨value, rest, rfl, hrest, rfl, rfl⟩ := (scanSingleQuoted_eq_read hx).mp h
    exact (scanSingleQuoted_eq_read hx).mpr
      ⟨value, rest ++ after, by simp, append_head?_ne hrest ha (by decide), rfl, rfl⟩

/-- The rest of a text in double quotes. -/
def scanDoubleQuoted (rest : List Char) : Piece × Nat :=
  match doubleQuotedEnd rest with
  | .closed n => (.token (.doubleQuoted (String.ofList (rest.take (n - 1)))), n + 1)
  | .unclosed n => (.unclosed "\x22", n + 1)

/-- The text is what may stand between double quotes. -/
def IsQuotable (body : List Char) : Prop := ∀ after, after.head? ≠ some '\x22' →
  doubleQuotedEnd (body ++ '\x22' :: after) = .closed (body.length + 1)

theorem scanDoubleQuoted_eq_read {x : Piece} (hx : x.IsRead) :
    scanDoubleQuoted cs = (x, n + 1) ↔ ∃ body rest, cs = body ++ '\x22' :: rest ∧
      rest.head? ≠ some '\x22' ∧ IsQuotable body ∧ n = body.length + 1 ∧
      x = .token (.doubleQuoted (String.ofList body)) := by
  unfold scanDoubleQuoted
  constructor
  · intro h
    split at h
    · rename_i m hm
      obtain ⟨body, rest, rfl, hrest, rfl, hend⟩ := of_doubleQuotedEnd hm
      simp only [Prod.mk.injEq, Nat.add_sub_cancel, List.take_left] at h
      exact ⟨body, rest, rfl, hrest, hend, by omega, h.1.symm⟩
    · obtain rfl := congrArg Prod.fst h
      exact hx.elim
  · rintro ⟨body, rest, rfl, hrest, hend, rfl, rfl⟩
    rw [hend rest hrest]
    simp

theorem settles_scanDoubleQuoted : Settles scanDoubleQuoted where
  cut {cs after x n} h hx hn := by
    obtain ⟨body, rest, hcs, hrest, hbody, rfl, rfl⟩ := (scanDoubleQuoted_eq_read hx).mp h
    rw [List.append_cons] at hcs
    obtain ⟨ws, rfl, rfl⟩ := append_prefix hcs (by simpa using hn)
    exact (scanDoubleQuoted_eq_read hx).mpr
      ⟨body, ws, by simp, head?_ne_of_append hrest, hbody, rfl, rfl⟩
  neutral {cs after x n} h hx _ _ ha := by
    obtain ⟨body, rest, rfl, hrest, hbody, rfl, rfl⟩ := (scanDoubleQuoted_eq_read hx).mp h
    exact (scanDoubleQuoted_eq_read hx).mpr
      ⟨body, rest ++ after, by simp, append_head?_ne hrest ha (by decide), hbody, rfl, rfl⟩

theorem settles_scanNumber : Settles fun cs => scanNumber (c :: cs) := by
  have h := @settles_ofPrefix c .number _ (measured_decimal.max measured_hex)
  exact h

/-! Gaps. -/

theorem settles_run (p : Char → Bool) : Settles fun cs => (Piece.trivia, run p cs + 1) where
  cut {cs after x n} h hx hn := by
    simp only [Prod.mk.injEq, Nat.add_right_cancel_iff] at h ⊢
    have hcut : run p cs = run p (cs ++ after) := run_cut (by omega)
    rw [hcut]
    exact h
  neutral {cs after x n} h hx hn hgap _ := by
    simp only [Prod.mk.injEq, Nat.add_right_cancel_iff] at h ⊢
    have := hgap h.1.symm
    rw [run_append_of_lt (by omega)]
    exact h

theorem scanAngle_eq_read {x : Piece} (hx : x.IsRead) : scanAngle cs = (x, n + 1) ↔
    ∃ body k, cs = '#' :: body ∧ Text.find? ['#', '>'] body = some k ∧ n = k + 3 ∧
      x = .trivia := by
  unfold scanAngle
  constructor
  · intro h
    split at h
    · rename_i body
      split at h
      · rename_i k hk
        simp only [Prod.mk.injEq] at h
        exact ⟨body, k, rfl, hk, by omega, h.1.symm⟩
      · obtain rfl := congrArg Prod.fst h
        exact hx.elim
    · obtain rfl := congrArg Prod.fst h
      exact hx.elim
  · rintro ⟨body, k, rfl, hk, rfl, rfl⟩
    simp only [hk]

theorem settles_scanAngle : Settles scanAngle where
  cut {cs after x n} h hx hn := by
    obtain ⟨body, k, hcs, hk, rfl, rfl⟩ := (scanAngle_eq_read hx).mp h
    cases cs with
    | nil => simp at hn
    | cons c cs =>
      obtain ⟨rfl, rfl⟩ := List.cons.inj hcs
      refine (scanAngle_eq_read hx).mpr ⟨cs, k, rfl, find?_cut hk ?_, rfl, rfl⟩
      simp only [List.length_cons, List.length_nil] at hn ⊢
      omega
  neutral {cs after x n} h hx _ _ _ := by
    obtain ⟨body, k, rfl, hk, rfl, rfl⟩ := (scanAngle_eq_read hx).mp h
    exact (scanAngle_eq_read hx).mpr ⟨body ++ after, k, rfl, find?_append hk, rfl, rfl⟩

theorem scanBacktick_eq_read {x : Piece} (hx : x.IsRead) : scanBacktick cs = (x, n + 1) ↔
    x = .trivia ∧ ((∃ rest, cs = '\n' :: rest ∧ n = 1) ∨
      ∃ rest, cs = '\x0d' :: '\n' :: rest ∧ n = 2) := by
  unfold scanBacktick
  split
  · simp [eq_comm]
  · simp [eq_comm]
  · rename_i h₁ h₂
    constructor
    · intro h
      obtain rfl := congrArg Prod.fst h
      exact hx.elim
    · rintro ⟨-, ⟨rest, rfl, -⟩ | ⟨rest, rfl, -⟩⟩
      · exact (h₁ rest rfl).elim
      · exact (h₂ rest rfl).elim

theorem settles_scanBacktick : Settles scanBacktick where
  cut {cs after x n} h hx hn := by
    obtain ⟨rfl, ⟨rest, hcs, rfl⟩ | ⟨rest, hcs, rfl⟩⟩ := (scanBacktick_eq_read hx).mp h
    · cases cs with
      | nil => simp at hn
      | cons c cs =>
        obtain ⟨rfl, -⟩ := List.cons.inj hcs
        exact (scanBacktick_eq_read hx).mpr ⟨rfl, .inl ⟨cs, rfl, rfl⟩⟩
    · match cs, hcs with
      | [], _ => simp at hn
      | [_], _ => simp at hn
      | c :: d :: cs, hcs =>
        obtain ⟨rfl, htail⟩ := List.cons.inj hcs
        obtain ⟨rfl, -⟩ := List.cons.inj htail
        exact (scanBacktick_eq_read hx).mpr ⟨rfl, .inr ⟨cs, rfl, rfl⟩⟩
  neutral {cs after x n} h hx _ _ _ := by
    obtain ⟨rfl, ⟨rest, rfl, rfl⟩ | ⟨rest, rfl, rfl⟩⟩ := (scanBacktick_eq_read hx).mp h
    · exact (scanBacktick_eq_read hx).mpr ⟨rfl, .inl ⟨rest ++ after, rfl, rfl⟩⟩
    · exact (scanBacktick_eq_read hx).mpr ⟨rfl, .inr ⟨rest ++ after, rfl, rfl⟩⟩

/-- Every mark that is not looked at on its own. -/
def otherMarks : List Mark :=
  [.plusAssign, .plusPlus, .plus, .starAssign, .star, .slashAssign, .slash, .percentAssign,
    .percent, .assign, .dotDot, .dot, .colonColon, .colon, .questionDot, .questionBracket,
    .question, .lparen, .rparen, .lbrace, .rbrace, .lbracket, .rbracket, .comma, .semicolon,
    .pipe, .ampersand, .backslash, .bang]

theorem settles_piece (c : Char) : Settles (piece c) := by
  have hmarks : Settles fun cs => ofMarks (c :: cs) otherMarks :=
    settles_ofMarks (distinct_of_all (by decide))
  by_cases h₁ : isSpace c = true
  · rw [show piece c = fun cs => (Piece.trivia, run isSpace cs + 1) by
      funext cs; simp [piece, h₁, run_cons]]
    exact settles_run _
  by_cases h₂ : isNameStart c = true
  · rw [show piece c = fun cs => ofPrefix .word (c :: cs) (run isWordPart (c :: cs)) by
      funext cs; simp [piece, h₁, h₂]]
    exact settles_ofPrefix (measured_run splits_wordPart)
  by_cases h₃ : c.isDigit = true
  · rw [show piece c = fun cs => scanNumber (c :: cs) by funext cs; simp [piece, h₁, h₂, h₃]]
    exact settles_scanNumber
  by_cases h₄ : c = '\n'
  · subst h₄
    exact settles_const (.token .newline, 1)
  by_cases h₅ : c = '#'
  · subst h₅
    rw [show piece '#' = fun cs => (Piece.trivia, run (· != '\n') cs + 1) by
      funext cs; exact Prod.ext rfl (Nat.add_comm 1 _)]
    exact settles_run _
  by_cases h₆ : c = '\x60'
  · subst h₆
    exact settles_scanBacktick
  by_cases h₇ : c = '<'
  · subst h₇
    exact settles_scanAngle
  by_cases h₈ : c = '$'
  · subst h₈
    exact settles_scanDollar
  by_cases h₉ : c = '@'
  · subst h₉
    exact settles_scanAt
  by_cases h₁₀ : c = '-'
  · subst h₁₀
    exact settles_scanDash
  by_cases h₁₁ : c = '\x27'
  · subst h₁₁
    exact settles_scanSingleQuoted
  by_cases h₁₂ : c = '\x22'
  · subst h₁₂
    exact settles_scanDoubleQuoted
  · rwa [show piece c = fun cs => ofMarks (c :: cs) otherMarks by
      funext cs; simp [piece, otherMarks, *]]

end ScriptInject.Token

namespace ScriptInject.Chunk
open Token

variable {w : Chunk} {ws : List Chunk} {rest after : List Char} {t : Token}

theorem isRead_piece (h : w.isGap = true ∨ w.token?.isSome = true) : w.piece.IsRead := by
  cases hp : w.piece <;> simp_all [isGap, token?, Piece.IsRead]

theorem Stands.cut (h : w.Stands (rest ++ after)) (hw : w.piece.IsRead) : w.Stands rest := by
  obtain ⟨c, cs, hc, hp⟩ := h
  rw [hc, ← List.append_assoc] at hp
  refine ⟨c, cs, hc, ?_⟩
  rw [hc]
  exact (settles_piece c).cut hp hw (by simp)

theorem Stands.neutral (h : w.Stands rest) (hw : w.piece.IsRead)
    (hgap : w.isGap = true → rest ≠ []) (ha : Neutral after) : w.Stands (rest ++ after) := by
  obtain ⟨c, cs, hc, hp⟩ := h
  rw [hc] at hp
  refine ⟨c, cs, hc, ?_⟩
  rw [hc, ← List.append_assoc]
  refine (settles_piece c).neutral hp hw (by simp) (fun ht => ?_) ha
  have := List.length_pos_iff.mpr (hgap (by simp [isGap, ht]))
  rw [List.length_append]
  omega

theorem Clean.cut (h : Clean ws after) : Clean ws [] := by
  induction ws with
  | nil => trivial
  | cons w ws ih =>
    obtain ⟨hw, hr, hws⟩ := h
    refine ⟨?_, hr, ih hws⟩
    rw [List.append_nil]
    exact hw.cut (isRead_piece hr)

/-- A row of chunks that ends in a token is still read in this way before a neutral text. -/
theorem Clean.neutral (h : Clean ws []) (hlast : ∀ w ∈ ws.getLast?, w.isGap = false)
    (ha : Neutral after) : Clean ws after := by
  induction ws with
  | nil => trivial
  | cons w ws ih =>
    obtain ⟨hw, hr, hws⟩ := h
    rw [List.append_nil] at hw
    refine ⟨hw.neutral (isRead_piece hr) ?_ ha, hr, ih hws ?_⟩
    · intro hgap
      cases ws with
      | nil => simp_all
      | cons v vs =>
        obtain ⟨⟨c, cs, hc, -⟩, -⟩ := hws
        simp [hc]
    · cases ws with
      | nil => nofun
      | cons v vs => simpa using hlast

end ScriptInject.Chunk
