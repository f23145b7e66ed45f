import Mathlib.Data.List.TakeWhile
import ScriptInject.Proofs.Chains.Term
import ScriptInject.Proofs.Fetching.Text
/-! The text of operands that are joined by operators, token by token. -/
namespace ScriptInject
open Token Grammar

namespace Operand

def text : Operand → String
  | var name => "$" ++ name
  | number digits => digits

/-- The name or the number is written with letters, digits and underscores, or with digits. -/
def Plain : Operand → Prop
  | var name => Source.isPlainName name.toList = true
  | number digits => digits ≠ "" ∧ digits.toList.all Char.isDigit = true

instance : DecidablePred Plain
  | var name => inferInstanceAs (Decidable (Source.isPlainName name.toList = true))
  | number digits =>
    inferInstanceAs (Decidable (digits ≠ "" ∧ digits.toList.all Char.isDigit = true))

def token : Operand → Token
  | var name => .variableName name
  | number digits => .number digits

def chunk (o : Operand) : Chunk := ⟨.token o.token, o.text.toList⟩

end Operand

/-- An operator as it is written, and the operand after it. -/
structure Link where
  operator : BinaryOperator
  spelling : String
  operand : Operand
deriving DecidableEq, Repr

namespace Link

/-- The operator is written in any case. -/
def Spelled (l : Link) : Prop := Text.caselessEq l.operator.text l.spelling = true

instance (l : Link) : Decidable l.Spelled :=
  inferInstanceAs (Decidable (Text.caselessEq l.operator.text l.spelling = true))

def text (l : Link) : String := " " ++ l.spelling ++ " " ++ l.operand.text

/-- The mark of an operator that is no word. -/
def mark? : BinaryOperator → Option Mark
  | .add => some .plus
  | .subtract => some .minus
  | .multiply => some .star
  | .divide => some .slash
  | .remainder => some .percent
  | .range => some .dotDot
  | _ => none

def token (l : Link) : Token :=
  match mark? l.operator with
  | some m => .mark m
  | none => .dashWord l.spelling

/-- The operator alone. -/
def chunk (l : Link) : Chunk := ⟨.token l.token, l.spelling.toList⟩

def chunks (l : Link) : List Chunk := [.blank, l.chunk, .blank, l.operand.chunk]

end Link

/-- The text of a chain of operands. -/
def chainText (first : Operand) (links : List Link) : String :=
  first.text ++ String.join (links.map Link.text)

def chainChunks (first : Operand) (links : List Link) : List Chunk :=
  first.chunk :: links.flatMap Link.chunks

namespace Operand

variable {o : Operand} {name digits : String}

theorem needsNoBraces_of_isPlainName (h : Source.isPlainName name.toList = true) :
    Source.needsNoBraces name = true := by
  have hname := Source.isNamePart_of_isPlainName h
  have hcolon : name.toList.takeWhile (· != ':') = name.toList := by
    refine List.takeWhile_eq_self_iff.mpr fun c hc => ?_
    refine bne_iff_ne.mpr ?_
    rintro rfl
    exact absurd (hname _ hc) (by decide)
  simp [Source.needsNoBraces, hcolon, h]

/-- A plain name is as long in bytes as in characters. -/
theorem size_of_isNamePart {cs : List Char} (h : ∀ c ∈ cs, isNamePart c = true) :
    Text.size cs = cs.length :=
  Text.size_eq_length fun c hc => utf8Size_of_isNamePart (h c hc)

theorem chunk_var (h : Source.isPlainName name.toList = true) :
    (var name).chunk = Chunk.reference name := by
  simp [chunk, token, text, Chunk.reference, Source.variableText, needsNoBraces_of_isPlainName h]

theorem isAlpha_of_isDigit {c : Char} (h : c.isDigit = true) : c.isAlpha = false := by
  revert h
  delta Char.isDigit Char.isAlpha Char.isUpper Char.isLower
  simp only [UInt32.le_iff_toNat_le, ge_iff_le, Bool.and_eq_true, decide_eq_true_eq,
    Bool.or_eq_false_iff, Bool.and_eq_false_iff, decide_eq_false_iff_not]
  have h9 : '9'.val.toNat = 57 := rfl
  have hA : 'A'.val.toNat = 65 := rfl
  have ha : 'a'.val.toNat = 97 := rfl
  omega

/-- Digits alone are one number. -/
theorem number_stands (hne : digits ≠ "") (hall : digits.toList.all Char.isDigit = true) :
    (number digits).chunk.Stands [] := by
  have hdigits := List.all_eq_true.mp hall
  obtain ⟨c, cs, hcs⟩ := List.exists_cons_of_ne_nil fun h => hne (String.toList_eq_nil_iff.mp h)
  refine ⟨c, cs, hcs, ?_⟩
  rw [hcs] at hdigits
  have hc := hdigits c (by simp)
  have hspace : isSpace c = false := by
    cases h : isSpace c with
    | false => rfl
    | true =>
      simp only [isSpace, Bool.or_eq_true, beq_iff_eq] at h
      rcases h with ((rfl | rfl) | rfl) | rfl <;> exact absurd hc (by decide)
  have hstart : isNameStart c = false := by
    simp only [isNameStart, isAlpha_of_isDigit hc, Bool.false_or, beq_eq_false_iff_ne]
    rintro rfl
    exact absurd hc (by decide)
  have hrun : run Char.isDigit (c :: cs) = (c :: cs).length := by
    have hrun : run Char.isDigit ((c :: cs) ++ []) = _ := run_of_all hdigits (by simp)
    rwa [List.append_nil] at hrun
  have hdecimal : decimalLength (c :: cs) = (c :: cs).length := by
    simp [decimalLength, hrun, fractionLength, exponentLength, suffixLength]
  have hlength : max (decimalLength (c :: cs)) (hexLength (c :: cs)) = (c :: cs).length := by
    rw [hdecimal]
    exact Nat.max_eq_left hexLength_le
  unfold piece
  rw [List.append_nil, if_neg (by simp [hspace]), if_neg (by simp [hstart]), if_pos hc,
    scanNumber, ofPrefix, hlength, List.take_length, ← hcs, String.ofList_toList]
  rfl

theorem Plain.stands (h : o.Plain) : o.chunk.Stands [] := by
  cases o with
  | var name =>
    rw [chunk_var h]
    refine Chunk.reference_stands ?_ ?_ nofun
    · rintro rfl
      exact Source.ne_nil_of_isPlainName h rfl
    · intro hmem
      exact absurd (Source.isNamePart_of_isPlainName h _ hmem) (by decide)
  | number digits => exact number_stands h.1 h.2

end Operand

namespace Link

variable {l : Link} {word : String}

theorem eq_of_map_toLower {cs ds : List Char} (h : cs.map Char.toLower = ds.map Char.toLower)
    (hd : (ds.all fun d => !d.toLower.isLower) = true) : cs = ds := by
  induction cs generalizing ds with
  | nil => exact (List.map_eq_nil_iff.mp h.symm).symm
  | cons c cs ih =>
    cases ds with
    | nil => cases h
    | cons d ds =>
      obtain ⟨hc, hcs⟩ := List.cons.inj h
      rw [List.all_cons, Bool.and_eq_true, Bool.not_eq_true'] at hd
      rw [ih hcs hd.2, eq_of_toLower hc hd.1, ← eq_of_toLower rfl hd.1]

theorem text_of_mark? {op : BinaryOperator} {m : Mark} (h : mark? op = some m) :
    op.text = m.text ∧ (m.text.toList.all fun d => !d.toLower.isLower) = true ∧
      binaryOperator? (.mark m) = some op := by
  cases op with
  | add | subtract | multiply | divide | remainder | range =>
    obtain rfl := Option.some.inj h
    exact ⟨rfl, by decide, rfl⟩
  | _ => cases h

theorem text_of_word {op : BinaryOperator} (h : mark? op = none) :
    ∃ word, op.dashWord? = some word ∧ op.text = "-" ++ word ∧ word ≠ "" ∧
      word.toList.all Char.isLower = true ∧ BinaryOperator.ofDashWord? word = some op := by
  cases op with
  | add | subtract | multiply | divide | remainder | range => cases h
  | _ => exact ⟨_, rfl, rfl, by decide, by decide +kernel, by decide +kernel⟩

theorem ofDashWord?_congr {word v : String} (h : Text.caselessEq word v = true) :
    BinaryOperator.ofDashWord? v = BinaryOperator.ofDashWord? word := by
  rw [BinaryOperator.ofDashWord?, BinaryOperator.ofDashWord?]
  congr 1
  funext op
  congr 1
  funext w
  refine Bool.eq_iff_iff.mpr ⟨fun hv => ?_, fun hw => Text.caselessEq_trans hw h⟩
  exact Text.caselessEq_trans hv ((Text.caselessEq_comm v word).trans h)

/-- An operator is written as a mark, or as a dash before a word in any case. -/
theorem Spelled.cases (h : l.Spelled) :
    (∃ m, mark? l.operator = some m ∧ l.spelling = m.text) ∨
    ∃ word v, mark? l.operator = none ∧ l.spelling = "-" ++ v ∧
      Text.caselessEq v word = true ∧ word ≠ "" ∧ word.toList.all Char.isLower = true ∧
      BinaryOperator.ofDashWord? v = some l.operator := by
  have hchars : l.operator.text.toList.map Char.toLower = l.spelling.toList.map Char.toLower := by
    simpa [Spelled, Text.caselessEq] using h
  cases hm : mark? l.operator with
  | some m =>
    obtain ⟨htext, hsmall, -⟩ := text_of_mark? hm
    rw [htext] at hchars
    exact .inl ⟨m, rfl, String.toList_inj.mp (eq_of_map_toLower hchars.symm hsmall)⟩
  | none =>
    obtain ⟨word, -, htext, hne, hlower, hword⟩ := text_of_word hm
    rw [htext, String.toList_append] at hchars
    cases hspelling : l.spelling.toList with
    | nil =>
      rw [hspelling] at hchars
      exact absurd hchars (by simp)
    | cons c cs =>
      rw [hspelling] at hchars
      obtain ⟨hc, hcs⟩ := List.cons.inj hchars
      obtain rfl : c = '-' := eq_of_toLower hc.symm rfl
      have hcaseless : Text.caselessEq word (String.ofList cs) = true := by
        simpa [Text.caselessEq] using hcs
      refine .inr ⟨word, String.ofList cs, rfl, ?_, ?_, hne, hlower, ?_⟩
      · exact String.toList_inj.mp (by simp [hspelling])
      · rw [Text.caselessEq_comm, hcaseless]
      · rw [ofDashWord?_congr hcaseless, hword]

theorem Spelled.binaryOperator? (h : l.Spelled) :
    Grammar.binaryOperator? l.token = some l.operator := by
  rcases h.cases with ⟨m, hm, -⟩ | ⟨word, v, hm, hspelling, -, -, -, hv⟩
  · rw [token, hm]
    exact (text_of_mark? hm).2.2
  · rw [token, hm]
    simp only [Grammar.binaryOperator?, hspelling]
    simpa using hv

/-- A dash and letters are one token. -/
theorem dashWord_stands {v : String} (hne : v.toList ≠ [])
    (halpha : ∀ c ∈ v.toList, c.isAlpha = true) :
    (⟨.token (.dashWord ("-" ++ v)), '-' :: v.toList⟩ : Chunk).Stands [] := by
  have hparts : ∀ c ∈ v.toList, isNamePart c = true := fun c hc => by
    simp [isNamePart, Char.isAlphanum, halpha c hc]
  have hrun : run isNamePart (v.toList ++ []) = v.toList.length := run_of_all hparts (by simp)
  rw [List.append_nil] at hrun
  have hstart : v.toList.head?.any isNameStart = true := by
    obtain ⟨c, cs, hv⟩ := List.exists_cons_of_ne_nil hne
    simp [hv, isNameStart, halpha c (by simp [hv])]
  have hlength : dashLength v.toList = v.toList.length := by
    simp [dashLength, hrun, colonLength]
  refine ⟨'-', v.toList, rfl, ?_⟩
  rw [List.append_nil]
  change scanDash v.toList = _
  rw [scanDash_eq, if_pos hstart, hlength, List.take_length, List.length_cons]
  congr 3
  exact String.toList_inj.mp (by simp)

theorem Spelled.stands (h : l.Spelled) : l.chunk.Stands [] := by
  rcases h.cases with ⟨m, hm, hspelling⟩ | ⟨word, v, hm, hspelling, hcaseless, hne, hlower, -⟩
  · have hchunk : l.chunk = .mark m := by
      rw [chunk, token, hm, hspelling]
      rfl
    rw [hchunk]
    generalize l.operator = op at hm
    cases op with
    | add => obtain rfl := Option.some.inj hm; exact ⟨'+', [], rfl, rfl⟩
    | subtract => obtain rfl := Option.some.inj hm; exact ⟨'-', [], rfl, rfl⟩
    | multiply => obtain rfl := Option.some.inj hm; exact ⟨'*', [], rfl, rfl⟩
    | divide => obtain rfl := Option.some.inj hm; exact ⟨'/', [], rfl, rfl⟩
    | remainder => obtain rfl := Option.some.inj hm; exact ⟨'%', [], rfl, rfl⟩
    | range => obtain rfl := Option.some.inj hm; exact ⟨'.', ['.'], rfl, rfl⟩
    | _ => cases hm
  · have hchunk : l.chunk = ⟨.token (.dashWord ("-" ++ v)), '-' :: v.toList⟩ := by
      rw [chunk, token, hm, hspelling]
      simp
    rw [hchunk]
    exact dashWord_stands (ne_nil_of_caselessEq hcaseless hne)
      (isAlpha_of_caselessEq hcaseless hlower)

end Link

section Chain

variable {o first : Operand} {l : Link} {links : List Link} {w : Chunk} {t : Token}
  {ws : List Chunk}

/-- A token of a chain ends where a blank follows, or the end. -/
theorem stands_before_links (h : w.Stands []) (hw : w.piece = .token t) (links : List Link) :
    w.Stands (Chunk.textOf (links.flatMap Link.chunks) ++ []) := by
  have hneutral : Neutral (Chunk.textOf (links.flatMap Link.chunks) ++ []) := by
    cases links with
    | nil => exact nofun
    | cons l links => exact neutral_cons.mpr (by decide)
  have := h.neutral (by rw [hw]; trivial) (by simp [Chunk.isGap, hw]) hneutral
  simpa using this

theorem blank_stands_before (h : w.Stands []) (hw : w.piece = .token t) :
    Chunk.blank.Stands (Chunk.textOf (w :: ws) ++ []) := by
  obtain ⟨c, cs, hc, hspace⟩ := h.start hw
  exact Chunk.blank_stands_head (Chunk.head?_textOf ⟨cs, hc⟩) hspace

theorem links_clean (hlinks : ∀ l ∈ links, l.Spelled ∧ l.operand.Plain) :
    Chunk.Clean (links.flatMap Link.chunks) [] := by
  induction links with
  | nil => trivial
  | cons l links ih =>
    obtain ⟨hspelled, hplain⟩ := hlinks l (by simp)
    have hoperator : l.chunk.Stands ([] ++ (Chunk.textOf ([.blank, l.operand.chunk] ++
        links.flatMap Link.chunks) ++ [])) :=
      hspelled.stands.neutral trivial nofun (neutral_cons.mpr (by decide))
    exact ⟨blank_stands_before hspelled.stands rfl, .inl rfl, hoperator, .inr rfl,
      blank_stands_before hplain.stands rfl, .inl rfl, stands_before_links hplain.stands rfl links,
      .inr rfl, ih fun l' hl' => hlinks l' (by simp [hl'])⟩

theorem chain_clean (hfirst : first.Plain) (hlinks : ∀ l ∈ links, l.Spelled ∧ l.operand.Plain) :
    Chunk.Clean (chainChunks first links) [] :=
  ⟨stands_before_links hfirst.stands rfl links, .inr rfl, links_clean hlinks⟩

theorem textOf_links : Chunk.textOf (links.flatMap Link.chunks) =
    (String.join (links.map Link.text)).toList := by
  induction links with
  | nil => rfl
  | cons l links ih =>
    rw [List.flatMap_cons, Chunk.textOf_append, ih, List.map_cons, String.join_cons,
      String.toList_append]
    simp [Link.chunks, Link.text, Chunk.blank, Link.chunk, Operand.chunk]

theorem textOf_chain : Chunk.textOf (chainChunks first links) = (chainText first links).toList := by
  rw [chainChunks, Chunk.textOf_cons, textOf_links, chainText, String.toList_append]
  rfl

end Chain

end ScriptInject
