import ScriptInject.Proofs.Preparing.Lines
import ScriptInject.Source.Literal
/-! The text of an assigned call, token by token. Whatever its strings are, each of them is read as
one token again, and so is each name in braces. -/
namespace ScriptInject

theorem Text.size_eq_length {cs : List Char} (h : ∀ c ∈ cs, c.utf8Size = 1) :
    Text.size cs = cs.length := by
  induction cs with
  | nil => rfl
  | cons c cs ih =>
    rw [Text.size_cons, h c List.mem_cons_self, ih fun d hd => h d (List.mem_cons_of_mem c hd),
      List.length_cons, Nat.add_comm]

namespace Source
open Token

variable {path : String} {cs : List Char}

theorem isNamePart_of_isPlainName (h : isPlainName cs = true) : ∀ c ∈ cs, isNamePart c = true :=
  List.all_eq_true.mp (Bool.and_eq_true_iff.mp h).2

theorem ne_nil_of_isPlainName (h : isPlainName cs = true) : cs ≠ [] := by
  rintro rfl
  cases h

/-- The paths that stand without braces. -/
theorem needsNoBraces_cases (h : needsNoBraces path = true) :
    (∃ scope name, path.toList = scope ++ ':' :: name ∧ isPlainName scope = true ∧
      isPlainName name = true) ∨ isPlainName path.toList = true ∨
      ∃ c ∈ ['?', '^', '$'], path.toList = [c] := by
  unfold needsNoBraces at h
  dsimp only at h
  split at h
  · rename_i d name hd
    simp only [Bool.and_eq_true] at h
    have hsplit : path.toList.dropWhile (· != ':') = d :: name := by
      have happend := List.takeWhile_append_dropWhile (p := (· != ':')) (l := path.toList)
      have hdrop := congrArg (List.drop (path.toList.takeWhile (· != ':')).length) happend
      rw [List.drop_left] at hdrop
      rw [hdrop, hd]
    have hcolon : d = ':' := by
      have hstop := List.head_dropWhile_not (l := path.toList) (· != ':') (by simp [hsplit])
      simpa [hsplit] using hstop
    subst hcolon
    refine .inl ⟨_, name, ?_, h.1⟩
    rw [← hsplit, List.takeWhile_append_dropWhile]
  · simp only [Bool.or_eq_true, beq_iff_eq] at h
    rcases h with ((h | rfl) | rfl) | rfl
    · exact .inr (.inl h)
    · exact .inr (.inr ⟨'?', by simp, rfl⟩)
    · exact .inr (.inr ⟨'^', by simp, rfl⟩)
    · exact .inr (.inr ⟨'$', by simp, rfl⟩)

end Source

namespace Token

variable {p : Char → Bool} {xs after : List Char} {path : String}

theorem run_of_all (h : ∀ c ∈ xs, p c = true) (ha : ∀ c ∈ after.head?, p c = false) :
    run p (xs ++ after) = xs.length := by
  have hnone : after.takeWhile p = [] := by
    cases after with
    | nil => rfl
    | cons c cs => simp [ha c rfl]
  rw [run, List.takeWhile_append_of_pos h, hnone, List.append_nil]

theorem scopedNameLength_plain (h : ∀ c ∈ xs, isNamePart c = true)
    (ha : ∀ c ∈ after.head?, isNamePart c = false ∧ c ≠ ':') :
    scopedNameLength (xs ++ after) = xs.length := by
  rw [scopedNameLength, run_of_all h fun c hc => (ha c hc).1, List.drop_left]
  split
  · exact absurd rfl (ha ':' rfl).2
  · rfl

theorem scopedNameLength_scoped {name : List Char} (h : ∀ c ∈ xs, isNamePart c = true)
    (hne : name ≠ []) (hname : ∀ c ∈ name, isNamePart c = true)
    (ha : ∀ c ∈ after.head?, isNamePart c = false) :
    scopedNameLength (xs ++ ':' :: (name ++ after)) = (xs ++ ':' :: name).length := by
  have hcolon : run isNamePart (xs ++ ':' :: (name ++ after)) = xs.length :=
    run_of_all h fun c hc => by
      obtain rfl := Option.some.inj hc
      rfl
  obtain ⟨c, cs, rfl⟩ := List.exists_cons_of_ne_nil hne
  simp only [scopedNameLength, hcolon, List.drop_left, run_of_all hname ha, List.length_cons,
    List.length_append]
  omega

theorem take_run (cs : List Char) : cs.take (run p cs) = cs.takeWhile p :=
  (List.prefix_iff_eq_take.mp (List.takeWhile_prefix p)).symm

theorem utf8Size_of_isNamePart {c : Char} (h : isNamePart c = true) : c.utf8Size = 1 := by
  refine Char.utf8Size_eq_one_iff.mpr ?_
  revert h
  rw [isNamePart]
  delta Char.isAlphanum Char.isDigit Char.isAlpha Char.isUpper Char.isLower
  simp only [UInt32.le_iff_toNat_le, ge_iff_le, Bool.and_eq_true, decide_eq_true_eq,
    Bool.or_eq_true, beq_iff_eq]
  have h9 : '9'.val.toNat = 57 := rfl
  have hZ : 'Z'.val.toNat = 90 := rfl
  have hz : 'z'.val.toNat = 122 := rfl
  have h127 : (127 : UInt32).toNat = 127 := rfl
  rintro (((h | h) | h) | rfl)
  · omega
  · omega
  · omega
  · decide

/-- A name and the scope before it have no other characters. -/
theorem take_scopedNameLength {cs : List Char} :
    ∀ c ∈ cs.take (scopedNameLength cs), isNamePart c = true ∨ c = ':' := by
  have hpart {cs : List Char} :
      ∀ c ∈ cs.take (run isNamePart cs), isNamePart c = true ∨ c = ':' := by
    rw [take_run]
    exact fun c hc => .inl (List.all_eq_true.mp List.all_takeWhile c hc)
  unfold scopedNameLength
  dsimp only
  split
  · rename_i rest hd
    split
    · exact hpart
    · rename_i k hk
      rw [Nat.add_assoc, List.take_add, hd, Nat.add_comm 1, List.take_succ_cons]
      intro c hc
      rcases List.mem_append.mp hc with hc | hc
      · exact hpart c hc
      rcases List.mem_cons.mp hc with rfl | hc
      · exact .inr rfl
      · exact hpart c hc
  · exact hpart

/-- What comes out of the reading of a variable may stand between braces. -/
theorem path_of_occurs (h : (Token.variableName path).Occurs) :
    path ≠ "" ∧ '\x7d' ∉ path.toList := by
  have htake {cs : List Char} {n : Nat} (hpos : 0 < n) (hle : n ≤ cs.length)
      (hparts : ∀ c ∈ cs.take n, c ≠ '\x7d') :
      String.ofList (cs.take n) ≠ "" ∧ '\x7d' ∉ (String.ofList (cs.take n)).toList := by
    rw [String.toList_ofList]
    refine ⟨fun hnil => ?_, fun hmem => hparts _ hmem rfl⟩
    have := congrArg List.length (congrArg String.toList hnil)
    rw [String.toList_ofList, List.length_take] at this
    simp only [String.toList_empty, List.length_nil] at this
    omega
  obtain ⟨c, cs, n, hp⟩ := h
  obtain ⟨rfl, hscan⟩ := found_piece hp
  rw [scanDollar_eq] at hscan
  split at hscan
  · cases congrArg Prod.fst hscan
  split at hscan
  · cases cs with
    | nil => cases congrArg Prod.fst hscan
    | cons d body =>
      obtain ⟨hne, hlt, ht, -⟩ := (scanBraced_eq_read (isRead_token _)).mp hscan
      obtain rfl := Token.variableName.inj (Piece.token.inj ht)
      refine htake (Nat.pos_of_ne_zero hne) (Nat.le_of_lt hlt) fun c hc => ?_
      rw [take_run] at hc
      simpa using List.all_eq_true.mp List.all_takeWhile c hc
  split at hscan
  · rename_i hany
    obtain ⟨ht, -⟩ := Prod.mk.inj hscan
    obtain rfl := Token.variableName.inj (Piece.token.inj ht)
    cases cs with
    | nil => cases hany
    | cons d ds =>
      refine htake (scopedNameLength_pos (by simpa using hany)) scopedNameLength_le ?_
      rintro _ hc rfl
      exact absurd (take_scopedNameLength _ hc) (by decide)
  · cases cs with
    | nil => cases congrArg Prod.fst hscan
    | cons d ds =>
      rw [scanSpecial] at hscan
      split at hscan
      · rename_i hd
        obtain ⟨ht, -⟩ := Prod.mk.inj hscan
        obtain rfl := Token.variableName.inj (Piece.token.inj ht)
        simp only [Bool.or_eq_true, beq_iff_eq] at hd
        rcases hd with (rfl | rfl) | rfl <;> decide
      · cases congrArg Prod.fst hscan

end Token

namespace Chunk
open Token

variable {path method value : String} {values : List String} {after : List Char}

def reference (path : String) : Chunk :=
  ⟨.token (.variableName path), (Source.variableText path false).toList⟩

/-- A variable, with braces around its path where they are needed or wanted. -/
def ofPath (path : String) (braced : Bool) : Chunk :=
  ⟨.token (.variableName path), (Source.variableText path braced).toList⟩

def quoted (value : String) : Chunk :=
  ⟨.token (.singleQuoted value), (Source.quoted value .singleQuoted).toList⟩

/-- The strings after the first one, each after a comma. -/
def others (values : List String) : List Chunk :=
  values.flatMap fun value => [mark .comma, blank, quoted value]

/-- `$context.Method('value', ...)` -/
def call (contextVariable method value : String) (values : List String) : List Chunk :=
  reference contextVariable :: mark .dot :: word method :: mark .lparen :: quoted value ::
    (others values ++ [mark .rparen])

/-- `$path = $context.Method('value', ...)` -/
def assigned (path contextVariable method value : String) (values : List String) : List Chunk :=
  reference path :: blank :: mark .assign :: blank :: call contextVariable method value values

/-- A variable ends where its name cannot go on. -/
theorem ofPath_stands (braced : Bool) (hne : path ≠ "") (hbrace : '\x7d' ∉ path.toList)
    (ha : ∀ c ∈ after.head?, isNamePart c = false ∧ c ≠ ':') :
    (ofPath path braced).Stands after := by
  have hstands {text : List Char} (htext : (ofPath path braced).text = '$' :: text)
      (hscan : scanDollar (text ++ after) = (.token (.variableName path), text.length + 1)) :
      (ofPath path braced).Stands after := by
    refine ⟨'$', text, htext, ?_⟩
    rw [htext]
    exact hscan
  have hplain {c : Char} {cs : List Char} (htext : path.toList = c :: cs)
      (hc : isNamePart c = true)
      (hlength : scopedNameLength (c :: cs ++ after) = (c :: cs).length) :
      scanDollar (path.toList ++ after) =
        (.token (.variableName path), path.toList.length + 1) := by
    have hparen : (c == '(') = false := beq_false_of_ne fun h => absurd (h ▸ hc) (by decide)
    have hcurly : (c == '\x7b') = false := beq_false_of_ne fun h => absurd (h ▸ hc) (by decide)
    rw [htext, scanDollar_eq, hlength, List.take_left, ← htext, String.ofList_toList, htext]
    simp [hparen, hcurly, hc]
  by_cases hplainText : (Source.needsNoBraces path && !braced) = true
  · have htext : (ofPath path braced).text = '$' :: path.toList := by
      simp [ofPath, Source.variableText, hplainText]
    refine hstands htext ?_
    rcases Source.needsNoBraces_cases (Bool.and_eq_true_iff.mp hplainText).1 with
      ⟨scope, name, hpath, hscope, hname⟩ | hname | ⟨c, hc, hpath⟩
    · obtain ⟨c, cs, rfl⟩ := List.exists_cons_of_ne_nil (Source.ne_nil_of_isPlainName hscope)
      have hparts := Source.isNamePart_of_isPlainName hscope
      refine hplain hpath (hparts c (by simp)) ?_
      have hlength := scopedNameLength_scoped hparts (Source.ne_nil_of_isPlainName hname)
        (Source.isNamePart_of_isPlainName hname) fun d hd => (ha d hd).1
      simpa using hlength
    · obtain ⟨c, cs, hpath⟩ := List.exists_cons_of_ne_nil (Source.ne_nil_of_isPlainName hname)
      rw [hpath] at hname
      have hparts := Source.isNamePart_of_isPlainName hname
      exact hplain hpath (hparts c (by simp)) (scopedNameLength_plain hparts ha)
    · rw [← String.ofList_toList (s := path), hpath]
      simp only [List.mem_cons, List.not_mem_nil, or_false] at hc
      rcases hc with rfl | rfl | rfl <;> rfl
  · have htext : (ofPath path braced).text = '$' :: '\x7b' :: (path.toList ++ ['\x7d']) := by
      simp [ofPath, Source.variableText, hplainText]
    refine hstands htext ?_
    have hrun : run (· != '\x7d') (path.toList ++ '\x7d' :: after) = path.toList.length := by
      refine run_of_all (fun c hc => ?_) fun c hc => ?_
      · exact bne_iff_ne.mpr fun h => hbrace (h ▸ hc)
      · obtain rfl := Option.some.inj hc
        rfl
    have hlength : path.toList.length ≠ 0 := fun h =>
      hne (String.toList_eq_nil_iff.mp (List.eq_nil_of_length_eq_zero h))
    rw [List.cons_append, List.append_assoc, List.singleton_append]
    refine (scanBraced_eq_read (c := '\x7b') (isRead_token _)).mpr ⟨?_, ?_, ?_, ?_⟩
    · rwa [hrun]
    · rw [hrun, List.length_append, List.length_cons]
      omega
    · rw [hrun, List.take_left, String.ofList_toList]
    · rw [hrun]
      simp

theorem reference_stands (hne : path ≠ "") (hbrace : '\x7d' ∉ path.toList)
    (ha : ∀ c ∈ after.head?, isNamePart c = false ∧ c ≠ ':') : (reference path).Stands after :=
  ofPath_stands false hne hbrace ha

/-- A string in quotes ends at its last quote, whatever is in it. -/
theorem quoted_stands (ha : after.head? ≠ some '\x27') : (quoted value).Stands after := by
  have htext : (quoted value).text = '\x27' :: (doubled value.toList ++ ['\x27']) := by
    simp [quoted, Source.quoted, Source.doubleQuotes, doubled]
  refine ⟨'\x27', _, htext, ?_⟩
  rw [htext, List.append_assoc, List.singleton_append]
  have hread := (scanSingleQuoted_eq_read (isRead_token (.singleQuoted value))).mpr
    ⟨value.toList, after, rfl, ha, rfl, by rw [String.ofList_toList]⟩
  rw [List.length_cons, List.length_append]
  exact hread

theorem quoted_start (value : String) : ∃ cs, (quoted value).text = '\x27' :: cs :=
  ⟨doubled value.toList ++ ['\x27'], by
    simp [quoted, Source.quoted, Source.doubleQuotes, doubled]⟩

theorem reference_start (path : String) : ∃ cs, (reference path).text = '$' :: cs := by
  simp only [reference, Source.variableText]
  split
  · exact ⟨path.toList, by simp⟩
  · exact ⟨'\x7b' :: (path.toList ++ ['\x7d']), by simp⟩

theorem head?_textOf {w : Chunk} {ws : List Chunk} {c : Char} (h : ∃ cs, w.text = c :: cs) :
    (textOf (w :: ws) ++ after).head? = some c := by
  obtain ⟨cs, hcs⟩ := h
  rw [textOf_cons, hcs]
  rfl

theorem blank_stands_head {c : Char} (h : after.head? = some c) (hc : isSpace c = false) :
    blank.Stands after := by
  cases after with
  | nil => cases h
  | cons d ds =>
    obtain rfl := Option.some.inj h
    exact blank_stands hc

/-- A string ends before what follows it among the others. -/
theorem quoted_stands_others (value : String) (values : List String) :
    (quoted value).Stands (textOf (others values ++ [mark .rparen]) ++ []) := by
  refine quoted_stands ?_
  cases values with
  | nil =>
    rw [others, List.flatMap_nil, List.nil_append, head?_textOf ⟨[], rfl⟩]
    decide
  | cons other values =>
    rw [others, List.flatMap_cons, List.append_assoc, List.cons_append, head?_textOf ⟨[], rfl⟩]
    decide

theorem others_clean (values : List String) : Clean (others values ++ [mark .rparen]) [] := by
  induction values with
  | nil => exact ⟨mark_stands (by simp), .inr rfl, trivial⟩
  | cons value values ih =>
    exact ⟨mark_stands (by simp), .inr rfl,
      blank_stands_head (head?_textOf (quoted_start value)) rfl, .inl rfl,
      quoted_stands_others value values, .inr rfl, ih⟩

variable {contextVariable : String}

theorem call_clean (hne : contextVariable ≠ "") (hbrace : '\x7d' ∉ contextVariable.toList)
    (hmethod : (Token.word method).Occurs) :
    Clean (call contextVariable method value values) [] := by
  obtain ⟨m, ms, hm, hstart, -⟩ := word_start hmethod
  refine ⟨reference_stands hne hbrace fun c hc => ?_, .inr rfl, ?_, .inr rfl,
    word_stands hmethod fun c hc => ?_, .inr rfl, mark_stands (by simp), .inr rfl,
    quoted_stands_others value values, .inr rfl, others_clean values⟩
  · rw [head?_textOf ⟨[], rfl⟩] at hc
    obtain rfl := Option.some.inj hc
    decide
  · rw [textOf_cons, word, hm]
    exact dot_stands hstart
  · rw [head?_textOf ⟨[], rfl⟩] at hc
    obtain rfl := Option.some.inj hc
    rfl

/-- The text of an assigned call is cut into the tokens that it was made of. -/
theorem assigned_clean (hpath : path ≠ "") (hpathBrace : '\x7d' ∉ path.toList)
    (hne : contextVariable ≠ "") (hbrace : '\x7d' ∉ contextVariable.toList)
    (hmethod : (Token.word method).Occurs) :
    Clean (assigned path contextVariable method value values) [] := by
  refine ⟨reference_stands hpath hpathBrace fun c hc => ?_, .inr rfl,
    blank_stands_head (head?_textOf ⟨[], rfl⟩) rfl, .inl rfl, mark_stands (by simp), .inr rfl,
    blank_stands_head (head?_textOf (reference_start contextVariable)) rfl, .inl rfl,
    call_clean hne hbrace hmethod⟩
  rw [head?_textOf ⟨[], rfl⟩] at hc
  obtain rfl := Option.some.inj hc
  decide

theorem textOf_strings (value : String) (values : List String) :
    textOf (quoted value :: others values) =
      (", ".intercalate ((value :: values).map (Source.quoted · .singleQuoted))).toList := by
  induction values generalizing value with
  | nil => simp [others, quoted]
  | cons other values ih =>
    rw [others, List.flatMap_cons, ← others, List.cons_append, List.cons_append, List.cons_append,
      List.nil_append, textOf_cons, textOf_cons, textOf_cons, ih]
    simp only [List.map_cons, String.intercalate_cons_cons]
    simp [mark, Mark.text, blank, quoted]

theorem textOf_assigned : textOf (assigned path contextVariable method value values) =
    (Source.variableText path false ++ " = " ++ (Source.variableText contextVariable false ++ "." ++
      method ++ "(" ++ ", ".intercalate ((value :: values).map (Source.quoted · .singleQuoted)) ++
      ")")).toList := by
  have hstrings := textOf_strings value values
  rw [textOf_cons] at hstrings
  simp only [assigned, call, textOf_cons, textOf_append, textOf_nil, ← List.append_assoc,
    String.toList_append, ← hstrings]
  simp [reference, blank, mark, Mark.text, word]

end Chunk

end ScriptInject
