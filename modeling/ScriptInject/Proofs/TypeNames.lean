import ScriptInject.Proofs.Parsing.Basic
import ScriptInject.Proofs.Preparing.Lines
import ScriptInject.Proofs.Quoting
import ScriptInject.Proofs.Reading.TypeName
import ScriptInject.Proofs.Recovering
/-! The names of types are read back from what is written for them. A name, its arguments and its ranks
use the same brackets: what stands behind a bracket tells which one it is. -/
namespace ScriptInject

open Chunk
open Token (isWordPart)

namespace Chunk

variable {ws : List Chunk} {after : List Char}

@[simp] theorem tokensOf_mark (m : Mark) : tokensOf (mark m :: ws) = .mark m :: tokensOf ws := rfl

/-- As many pairs of brackets as `n` says. -/
def ranks (n : Nat) : List Chunk := (List.replicate n [mark .lbracket, mark .rbracket]).flatten

theorem ranks_succ (n : Nat) : ranks (n + 1) = mark .lbracket :: mark .rbracket :: ranks n := rfl

theorem ranks_add (m n : Nat) : ranks (m + n) = ranks m ++ ranks n := by
  rw [ranks, ← List.replicate_append_replicate, List.flatten_append]
  rfl

theorem textOf_ranks (n : Nat) :
    textOf (ranks n) = (String.join (List.replicate n "[]")).toList := by
  induction n with
  | zero => rfl
  | succ n ih =>
    rw [ranks_succ, textOf_cons, textOf_cons, ih, List.replicate_succ, String.join_cons,
      String.toList_append]
    rfl

theorem clean_ranks (n : Nat) : Clean (ranks n) after := by
  induction n with
  | zero => trivial
  | succ n ih => exact ⟨mark_stands (by simp), .inr rfl, mark_stands (by simp), .inr rfl, ih⟩

/-- What stands behind the first of some words. -/
def segments (words : List String) : List Token := words.flatMap fun w => [.mark .dot, .word w]

theorem tokensOf_dotted (w : String) (words : List String) :
    tokensOf (dotted (w :: words)) = .word w :: segments words := by
  induction words generalizing w with
  | nil => rfl
  | cons v words ih =>
    change Token.word w :: .mark .dot :: tokensOf (dotted (v :: words)) = _
    rw [ih]
    rfl

end Chunk

/-- The type with `n` more ranks. -/
def TypeName.withRanks : TypeName → Nat → TypeName
  | .array element rank, n => .array element (rank + n)
  | t, 0 => t
  | t, n + 1 => .array t (n + 1)

theorem TypeName.withRanks_zero (t : TypeName) : t.withRanks 0 = t := by cases t <;> rfl

theorem TypeName.withRanks_of_ne_array {t : TypeName} (h : ∀ e n, t ≠ .array e n) (n : Nat) :
    t.withRanks n = if n = 0 then t else .array t n := by
  cases t with
  | array element rank => exact absurd rfl (h element rank)
  | simple name => cases n <;> rfl
  | generic name arguments => cases n <;> rfl

namespace Grammar

open Grammar.Parser

variable {α : Type} {i : Input} {s t u : State} {k l : Token} {ks rest : List Token} {p : Place}
  {n m : Nat} {T : TypeName}

/-- The tokens to come. -/
def Place.tokens (p : Place) : List Token := p.rest.map (·.token)

/-- The reading has moved on to where the tokens to come are these. -/
def State.Awaits (s : State) (ks : List Token) (t : State) : Prop :=
  s.Moves t ∧ t.place.tokens = ks

namespace State.Awaits

theorem current?_eq (h : s.Awaits ks t) : t.place.current? = ks.head? := by
  rw [Place.current?, ← h.2, Place.tokens, List.head?_map]

theorem current? (h : s.Awaits (k :: ks) t) : t.place.current? = some k := h.current?_eq

theorem next? (h : s.Awaits (k :: ks) t) : t.place.next? = ks.head? := by
  have htail := congrArg List.tail h.2
  rw [Place.tokens, ← List.map_tail] at htail
  rw [Place.next?, ← List.head?_map, htail, List.tail_cons]

theorem advance (h : s.Awaits (k :: ks) t) :
    s.Awaits ks { t with place := t.place.advance } := by
  refine ⟨h.1.advance, ?_⟩
  have htokens := h.2
  rw [Place.tokens] at htokens ⊢
  cases hr : t.place.rest with
  | nil =>
    rw [hr] at htokens
    cases htokens
  | cons l ls =>
    rw [hr] at htokens
    rw [Place.advance, hr]
    exact (List.cons.inj htokens).2

theorem advanceTwo (h : s.Awaits (k :: l :: ks) t) :
    s.Awaits ks { t with place := t.place.advanceBy 2 } := h.advance.advance

theorem left (h : s.Awaits ks t) : t.place.left = ks.length := by
  rw [← h.2, Place.tokens, List.length_map, Place.left]

end State.Awaits

/-- The place behind some of the tokens to come. -/
theorem Place.advanceBy_length {ls rs : List Lexeme} (h : p.rest = ls ++ rs) (hne : ls ≠ []) :
    p.advanceBy ls.length = ⟨ls.getLast?, rs⟩ := by
  induction ls generalizing p with
  | nil => exact absurd rfl hne
  | cons l ls ih =>
    have hadvance : p.advance = ⟨some l, ls ++ rs⟩ := by
      rw [Place.advance, h]
      rfl
    rw [List.length_cons, Place.advanceBy, hadvance]
    cases ls with
    | nil => rfl
    | cons m ls => exact ih rfl (List.cons_ne_nil _ _)

theorem State.Awaits.eq {ls : List Lexeme} {last : Lexeme} (h : s.Awaits [k] t)
    (hs : s.place.rest = ls ++ [last]) (hne : ls ≠ []) :
    t = { s with place := ⟨ls.getLast?, [last]⟩ } := by
  have hleft := h.left
  obtain ⟨⟨n, rfl⟩, -⟩ := h
  have hn : n = ls.length := by
    rw [Place.left_advanceBy, Place.left, hs, List.length_append, List.length_singleton,
      List.length_singleton] at hleft
    omega
  rw [hn, Place.advanceBy_length hs hne]

/-- The run succeeds with the value, and stops where these tokens are to come. -/
def ReadsAs (p : Parser α) (i : Input) (s t : State) (a : α) (rest : List Token) : Prop :=
  Outcome p i t (fun _ _ => False) fun b u => b = a ∧ s.Awaits rest u

/-- What a type name does not go on with. -/
def EndsTypeName (k : Option Token) : Prop := k ≠ some (.mark .dot) ∧ k ≠ some (.mark .lbracket)

theorem head?_ranks (m : Nat) (hrest : rest.head? ≠ some (.mark .dot)) :
    (tokensOf (ranks m) ++ rest).head? ≠ some (.mark .dot) := by
  cases m with
  | zero => exact hrest
  | succ m =>
    rw [ranks_succ]
    simp

theorem dottedName_reads {w : String} {words : List String}
    (h : s.Awaits (.word w :: (segments words ++ rest)) t)
    (hrest : rest.head? ≠ some (.mark .dot)) :
    ReadsAs dottedName i s t (".".intercalate (w :: words)) rest := by
  rw [ReadsAs, dottedName, Outcome.peek_bind, h.current?]
  dsimp only
  rw [Outcome.advance_bind]
  -- The words read so far and those to come make up the name.
  let I (vs : List String) (u : State) : Prop :=
    ∃ us, vs ++ us = words ∧ s.Awaits (segments us ++ rest) u
  refine (Outcome.many_of_left (I := I) (F := fun vs u => vs = words ∧ s.Awaits rest u)
    ⟨words, rfl, h.advance⟩ ?_).bind ?_
  · rintro vs u ⟨us, hus, hu⟩
    rw [Outcome.peek_bind, Outcome.peekNext_bind]
    cases us with
    | nil =>
      rw [List.append_nil] at hus
      split
      · rename_i hdot _
        rw [hu.current?_eq] at hdot
        exact absurd hdot hrest
      · exact ⟨fun _ => ⟨hus, hu⟩, by simp⟩
    | cons v us =>
      have hawaits : s.Awaits (.mark .dot :: .word v :: (segments us ++ rest)) u := hu
      rw [hawaits.current?, hawaits.next?]
      dsimp only [List.head?_cons]
      rw [Outcome.advanceBy_bind, Outcome.pure_iff]
      have hlater := hawaits.advanceTwo
      refine ⟨by simp, fun a ha => ⟨⟨us, ?_, hlater⟩, ?_⟩⟩
      · rw [← Option.some.inj ha, ← hus, List.append_assoc]
        rfl
      · have hleft := hawaits.left
        have hleft' := hlater.left
        simp only [List.length_cons] at hleft
        omega
  · rintro vs u ⟨rfl, hu⟩
    exact ⟨rfl, hu⟩

theorem ranks_read {p : Parser TypeName} (h : s.Awaits (tokensOf (ranks m) ++ rest) t)
    (hrest : rest.head? ≠ some (.mark .lbracket)) (hn : t.place.left < n) :
    ReadsAs (iterateUpTo (typeBracket p) n (T, 0)) i s t (T, m) rest := by
  -- The ranks counted so far and those to come add up.
  let I (r : TypeName × Nat) (u : State) : Prop :=
    ∃ k l, r = (T, k) ∧ k + l = m ∧ s.Awaits (tokensOf (ranks l) ++ rest) u
  refine Outcome.iterateUpTo_of_left (I := I) ⟨0, m, rfl, Nat.zero_add m, h⟩ hn ?_
  rintro r u ⟨k, l, rfl, hkl, hu⟩
  rw [typeBracket, Outcome.peek_bind]
  cases l with
  | zero =>
    split
    · rename_i hbracket
      rw [hu.current?_eq] at hbracket
      exact absurd hbracket hrest
    · refine ⟨fun _ => ⟨?_, hu⟩, by simp⟩
      rw [← hkl]
      rfl
  | succ l =>
    have hawaits : s.Awaits (.mark .lbracket :: .mark .rbracket :: (tokensOf (ranks l) ++ rest)) u :=
      hu
    rw [hawaits.current?]
    dsimp only
    rw [Outcome.peekNext_bind, hawaits.next?]
    dsimp only [List.head?_cons]
    rw [Outcome.advanceBy_bind, Outcome.pure_iff]
    have hlater := hawaits.advanceTwo
    refine ⟨by simp, fun r hr => ⟨⟨k + 1, l, (Option.some.inj hr).symm, by omega, hlater⟩, ?_⟩⟩
    have hleft := hawaits.left
    have hleft' := hlater.left
    simp only [List.length_cons] at hleft
    omega

/-- A type name is read if its brackets are, behind its words. -/
theorem typeNameUpTo_reads {w : String} {words : List String} (hT : ∀ e k, T ≠ .array e k)
    (h : s.Awaits (.word w :: (segments words ++ ks)) t) (hks : ks.head? ≠ some (.mark .dot))
    (hbrackets : ∀ u, s.Awaits ks u → u.place.left < t.place.left →
      ReadsAs (iterate (typeBracket (typeNameUpTo n)) (.simple (".".intercalate (w :: words)), 0))
        i s u (T, m) rest) :
    ReadsAs (typeNameUpTo (n + 1)) i s t (T.withRanks m) rest := by
  rw [ReadsAs, typeNameUpTo]
  refine (dottedName_reads h hks).bind ?_
  rintro _ u ⟨rfl, hu⟩
  have hlt : u.place.left < t.place.left := by
    rw [h.left, hu.left, List.length_cons, List.length_append]
    omega
  refine (hbrackets u hu hlt).bind ?_
  rintro _ v ⟨rfl, hv⟩
  exact ⟨(TypeName.withRanks_of_ne_array hT m).symm, hv⟩

end Grammar

namespace TypeName

open Grammar Grammar.Parser

variable {i : Input} {s t : State} {rest : List Token} {n : Nat} {T : TypeName}
  {ts : List TypeName} {ws vs : List Chunk} {after : List Char}

/-- The chunks are what is written for the type. They are read as the type wherever they stand, with
the ranks that follow them. -/
structure SpelledBy (T : TypeName) (ws : List Chunk) : Prop where
  text : textOf ws = T.fullName.toList
  starts : ∃ w vs, ws = word w :: vs
  clean : ∀ {after : List Char}, (∀ c ∈ after.head?, isWordPart c = false) → Clean ws after
  reads : ∀ {i s t n m rest}, s.Awaits (tokensOf ws ++ (tokensOf (ranks m) ++ rest)) t →
    EndsTypeName rest.head? → t.place.left < n →
    ReadsAs (typeNameUpTo n) i s t (T.withRanks m) rest

/-- The chunks are a list of further types, each after a comma. -/
inductive Listed : List TypeName → List Chunk → Prop
  | nil : Listed [] []
  | cons {T : TypeName} {ts : List TypeName} {ws vs : List Chunk} : SpelledBy T ws →
      Listed ts vs → Listed (T :: ts) (mark .comma :: (ws ++ vs))

theorem exists_listed (h : ∀ T ∈ ts, ∃ ws, SpelledBy T ws) : ∃ vs, Listed ts vs := by
  induction ts with
  | nil => exact ⟨[], .nil⟩
  | cons T ts ih =>
    obtain ⟨hT, hts⟩ := List.forall_mem_cons.mp h
    obtain ⟨ws, hws⟩ := hT
    obtain ⟨vs, hvs⟩ := ih hts
    exact ⟨_, .cons hws hvs⟩

/-- The type itself is read where no ranks follow. -/
theorem SpelledBy.reads_plain (h : SpelledBy T ws) (ht : s.Awaits (tokensOf ws ++ rest) t)
    (hrest : EndsTypeName rest.head?) (hn : t.place.left < n) :
    ReadsAs (typeNameUpTo n) i s t T rest := by
  have hread := @SpelledBy.reads _ _ h i s t n 0 rest ht hrest hn
  rwa [withRanks_zero] at hread

theorem SpelledBy.argument_reads (h : SpelledBy T ws) (ht : s.Awaits (tokensOf ws ++ rest) t)
    (hrest : EndsTypeName rest.head?) (hn : t.place.left < n) :
    ReadsAs (typeArgument (typeNameUpTo n)) i s t T rest := by
  rw [ReadsAs, typeArgument, Outcome.eat_bind]
  constructor
  · intro hbracket
    obtain ⟨w, us, rfl⟩ := h.starts
    rw [ht.current?_eq] at hbracket
    cases hbracket
  · intro _
    exact h.reads_plain ht hrest hn

namespace Listed

theorem textOf_eq (h : Listed ts vs) :
    textOf vs = ts.flatMap fun T => ',' :: T.fullName.toList := by
  induction h with
  | nil => rfl
  | cons hws _ ih =>
    rw [textOf_cons, textOf_append, hws.text, ih]
    rfl

/-- No word goes on behind an argument. -/
theorem not_isWordPart (h : Listed ts vs) :
    ∀ c ∈ (textOf vs ++ ']' :: after).head?, isWordPart c = false := by
  cases h with
  | nil =>
    rintro _ ⟨⟩
    rfl
  | cons =>
    rintro _ ⟨⟩
    rfl

theorem clean (h : Listed ts vs) : Clean vs (']' :: after) := by
  induction h with
  | nil => trivial
  | cons hws hvs ih =>
    exact ⟨mark_stands (by simp), .inr rfl,
      clean_append.mpr ⟨hws.clean hvs.not_isWordPart, ih⟩⟩

theorem endsTypeName (h : Listed ts vs) :
    EndsTypeName (tokensOf vs ++ .mark .rbracket :: rest).head? := by
  cases h with
  | nil => simp [EndsTypeName]
  | cons => simp [EndsTypeName]

theorem reads (h : Listed ts vs) (ht : s.Awaits (tokensOf vs ++ .mark .rbracket :: rest) t)
    (hn : t.place.left < n) :
    ReadsAs (afterCommas (typeArgument (typeNameUpTo n))) i s t ts (.mark .rbracket :: rest) := by
  let I (done : List TypeName) (u : State) : Prop := ∃ us xs, done ++ us = ts ∧ Listed us xs ∧
    s.Awaits (tokensOf xs ++ .mark .rbracket :: rest) u ∧ u.place.left < n
  refine Outcome.many_of_left (I := I) ⟨ts, vs, rfl, h, ht, hn⟩ ?_
  rintro done u ⟨us, xs, hdone, hus, hu, hlt⟩
  rw [Outcome.eat_bind]
  constructor
  · intro hcomma
    cases hus with
    | nil =>
      rw [hu.current?_eq] at hcomma
      cases hcomma
    | @cons T us ws vs hws hvs =>
      have hawaits : s.Awaits (.mark .comma :: (tokensOf ws ++
          (tokensOf vs ++ .mark .rbracket :: rest))) u := by
        have htokens : tokensOf (mark .comma :: (ws ++ vs)) =
          .mark .comma :: (tokensOf ws ++ tokensOf vs) := congrArg _ tokensOf_append
        rwa [htokens, List.cons_append, List.append_assoc] at hu
      have hleft := hawaits.left
      rw [List.length_cons] at hleft
      have hnext := hawaits.advance.left
      refine (hws.argument_reads hawaits.advance hvs.endsTypeName (by omega)).bind ?_
      rintro _ v ⟨rfl, hv⟩
      have hlater := hv.left
      rw [List.length_append] at hleft
      refine ⟨by simp, fun a ha => ⟨⟨us, vs, ?_, hvs, hv, by omega⟩, by omega⟩⟩
      rw [← Option.some.inj ha, ← hdone, List.append_assoc]
      rfl
  · intro hcomma
    cases hus with
    | nil =>
      rw [List.append_nil] at hdone
      exact ⟨fun _ => ⟨hdone, hu⟩, by simp⟩
    | cons => exact absurd hu.current?_eq hcomma

end Listed

theorem arguments_text (T : TypeName) (ts : List TypeName) :
    (",".intercalate ((T :: ts).map fullName)).toList =
      T.fullName.toList ++ ts.flatMap fun U => ',' :: U.fullName.toList := by
  induction ts generalizing T with
  | nil => simp
  | cons U ts ih =>
    have hlater := ih U
    rw [List.map_cons] at hlater
    rw [List.map_cons, List.map_cons, String.intercalate_cons_cons, String.toList_append,
      String.toList_append, hlater]
    simp

theorem arguments_read {name : String} {first : TypeName} (hfirst : SpelledBy first ws)
    (h : Listed ts vs)
    (ht : s.Awaits (.mark .lbracket :: (tokensOf ws ++
      (tokensOf vs ++ .mark .rbracket :: rest))) t) (hn : t.place.left ≤ n) :
    Outcome (typeBracket (typeNameUpTo n) (.simple name, 0)) i t (fun _ _ => False) fun o u =>
      o = some (.generic name (first :: ts), 0) ∧ s.Awaits rest u := by
  have hleft := ht.left
  have hinside := ht.advance.left
  rw [List.length_cons] at hleft
  have hword : ∃ w, t.place.next? = some (.word w) := by
    obtain ⟨w, us, rfl⟩ := hfirst.starts
    exact ⟨w, ht.next?⟩
  obtain ⟨w, hword⟩ := hword
  rw [typeBracket, Outcome.peek_bind, ht.current?]
  dsimp only
  rw [Outcome.peekNext_bind, hword]
  -- Neither a bracket nor a comma: the arguments begin.
  refine Outcome.advance_bind.mpr ?_
  refine (hfirst.argument_reads ht.advance h.endsTypeName (by omega)).bind ?_
  rintro _ u ⟨rfl, hu⟩
  have hlater := hu.left
  rw [List.length_append] at hleft
  refine (h.reads hu (by omega)).bind ?_
  rintro _ v ⟨rfl, hv⟩
  rw [Outcome.expect_bind]
  exact ⟨fun _ => ⟨rfl, hv.advance⟩, fun hno => absurd hv.current? hno⟩

/-! What is written for each kind of type. -/

variable {w : String} {words : List String}

theorem spelledBy_simple (hwords : ∀ v ∈ w :: words, (Token.word v).Occurs) :
    SpelledBy (.simple (".".intercalate (w :: words))) (dotted (w :: words)) where
  text := textOf_dotted
  starts := by cases words <;> exact ⟨_, _, rfl⟩
  clean := clean_dotted (List.cons_ne_nil _ _) hwords
  reads := by
    intro i s t n m rest ht hrest hn
    obtain ⟨n, rfl⟩ : ∃ k, n = k + 1 := ⟨n - 1, by omega⟩
    rw [tokensOf_dotted, List.cons_append] at ht
    refine typeNameUpTo_reads (by simp) ht (head?_ranks m hrest.1) fun u hu _ => ?_
    exact ranks_read hu hrest.2 (Nat.lt_succ_self _)

theorem spelledBy_generic {first : TypeName} (hwords : ∀ v ∈ w :: words, (Token.word v).Occurs)
    (hfirst : SpelledBy first ws) (h : Listed ts vs) :
    SpelledBy (.generic (".".intercalate (w :: words)) (first :: ts))
      (dotted (w :: words) ++ mark .lbracket :: (ws ++ (vs ++ [mark .rbracket]))) where
  text := by
    rw [fullName, fullNames_eq_map, String.toList_append, String.toList_append,
      String.toList_append, arguments_text, textOf_append, textOf_dotted, textOf_cons,
      textOf_append, textOf_append, hfirst.text, h.textOf_eq]
    simp [mark, Mark.text]
  starts := by cases words <;> exact ⟨_, _, rfl⟩
  clean := by
    intro after _
    have hclose : Clean [mark .rbracket] after := ⟨mark_stands (by simp), .inr rfl, trivial⟩
    have hlist : Clean (vs ++ [mark .rbracket]) after := clean_append.mpr ⟨h.clean, hclose⟩
    have hinside : Clean (ws ++ (vs ++ [mark .rbracket])) after := by
      refine clean_append.mpr ⟨hfirst.clean ?_, hlist⟩
      rw [textOf_append, List.append_assoc]
      exact h.not_isWordPart
    refine clean_append.mpr ⟨clean_dotted (List.cons_ne_nil _ _) hwords ?_,
      mark_stands (by simp), .inr rfl, hinside⟩
    rintro _ ⟨⟩
    rfl
  reads := by
    intro i s t n m rest ht hrest hn
    obtain ⟨n, rfl⟩ : ∃ k, n = k + 1 := ⟨n - 1, by omega⟩
    have hname : s.Awaits (.word w :: (segments words ++ .mark .lbracket ::
        (tokensOf ws ++ (tokensOf vs ++ .mark .rbracket :: (tokensOf (ranks m) ++ rest))))) t := by
      simpa [tokensOf_dotted] using ht
    refine typeNameUpTo_reads (by simp) hname (by simp) fun u hu hlt => ?_
    rw [ReadsAs, iterate, Outcome.place_bind, iterateUpTo]
    refine (arguments_read hfirst h hu (by omega)).bind ?_
    rintro _ v ⟨rfl, hv⟩
    refine ranks_read hv hrest.2 ?_
    rw [← Place.left, hu.left, hv.left]
    simp only [List.length_cons, List.length_append]
    omega

theorem spelledBy_array {rank : Nat} (h : SpelledBy T ws) (hT : ∀ e k, T ≠ .array e k)
    (hrank : rank ≠ 0) : SpelledBy (.array T rank) (ws ++ ranks rank) where
  text := by rw [fullName, String.toList_append, textOf_append, h.text, textOf_ranks]
  starts := by
    obtain ⟨w, us, rfl⟩ := h.starts
    exact ⟨w, us ++ ranks rank, rfl⟩
  clean := by
    intro after _
    refine clean_append.mpr ⟨h.clean ?_, clean_ranks rank⟩
    obtain ⟨rank, rfl⟩ := Nat.exists_eq_succ_of_ne_zero hrank
    rintro _ ⟨⟩
    rfl
  reads := by
    intro i s t n m rest ht hrest hn
    have hall : s.Awaits (tokensOf ws ++ (tokensOf (ranks (rank + m)) ++ rest)) t := by
      rw [ranks_add]
      simpa using ht
    have hranks : (array T rank).withRanks m = T.withRanks (rank + m) := by
      rw [withRanks_of_ne_array hT, if_neg (by omega)]
      rfl
    rw [hranks]
    exact h.reads hall hrest hn

/-- Each type that may be written is written in some way. -/
theorem Written.exists_spelledBy (h : T.Written) : ∃ ws, SpelledBy T ws := by
  induction h with
  | simple hname =>
    obtain ⟨words, hne, rfl, hwords⟩ := hname
    obtain ⟨w, words, rfl⟩ := List.exists_cons_of_ne_nil hne
    exact ⟨_, spelledBy_simple hwords⟩
  | generic hname hne _ ih =>
    obtain ⟨words, hwne, rfl, hwords⟩ := hname
    obtain ⟨w, words, rfl⟩ := List.exists_cons_of_ne_nil hwne
    obtain ⟨first, ts, rfl⟩ := List.exists_cons_of_ne_nil hne
    obtain ⟨hfirst, hts⟩ := List.forall_mem_cons.mp ih
    obtain ⟨ws, hws⟩ := hfirst
    obtain ⟨vs, hvs⟩ := exists_listed hts
    exact ⟨_, spelledBy_generic hwords hws hvs⟩
  | array _ hplain hrank ih =>
    obtain ⟨ws, hws⟩ := ih
    exact ⟨_, spelledBy_array hws hplain hrank⟩

/-- The bracket behind what is written for the type. -/
def closing (T : TypeName) : Lexeme :=
  ⟨.mark .rbracket, ⟨Text.size T.fullName.toList, Text.size T.fullName.toList + 1⟩⟩

namespace SpelledBy

theorem ofText?_eq (h : SpelledBy T ws) :
    Lexeme.ofText? (T.fullName ++ "]").toList = .ok (lexemes 0 ws ++ [T.closing]) := by
  have htext : (T.fullName ++ "]").toList = textOf (ws ++ [mark .rbracket]) := by
    rw [String.toList_append, textOf_append, h.text]
    rfl
  have hclean : Clean (ws ++ [mark .rbracket]) [] := by
    refine clean_append.mpr ⟨h.clean ?_, mark_stands (by simp), .inr rfl, trivial⟩
    rintro _ ⟨⟩
    rfl
  rw [htext, Lexeme.ofText?_of_clean hclean, lexemes_append, h.text, Nat.zero_add]
  rfl

theorem typeName_eq (h : SpelledBy T ws) (ht : t.place.rest = lexemes 0 ws ++ [T.closing]) :
    typeName i t = .ok T { t with place := ⟨(lexemes 0 ws).getLast?, [T.closing]⟩ } := by
  have hawaits : t.Awaits (tokensOf ws ++ [.mark .rbracket]) t := by
    refine ⟨.refl t, ?_⟩
    rw [Place.tokens, ht, List.map_append, map_token_lexemes]
    rfl
  have hne : lexemes 0 ws ≠ [] := by
    obtain ⟨w, us, rfl⟩ := h.starts
    exact List.cons_ne_nil _ _
  have hread : ReadsAs (typeNameUpTo (t.place.left + 1)) i t t T [.mark .rbracket] :=
    h.reads_plain hawaits (by simp [EndsTypeName]) (Nat.lt_succ_self _)
  apply Outcome.eq_ok
  rw [typeName, Outcome.place_bind]
  exact Outcome.imp hread fun U u hu => ⟨hu.1, hu.2.eq ht hne⟩

end SpelledBy

/-- The types that are read somewhere are those that may be written. -/
theorem written_iff : T.Written ↔
    ∃ i s t, (∀ l ∈ s.place.rest, l.token.Arises) ∧ typeName i s = .ok T t := by
  constructor
  · intro h
    obtain ⟨ws, hws⟩ := h.exists_spelledBy
    have htokens := Lexeme.ofText?_eq_ok_iff.mp hws.ofText?_eq
    refine ⟨⟨[], 0⟩, { place := { rest := lexemes 0 ws ++ [T.closing] } }, _, ?_,
      hws.typeName_eq rfl⟩
    intro l hl
    exact ⟨_, l, by rwa [htokens], rfl⟩
  · rintro ⟨i, s, t, hs, h⟩
    exact (typeName_moves.of_ok h).2 fun l hl => (hs l hl).occurs

/-- A type name that is read is read again from what is written for it, and the reading stops at the
bracket behind it. -/
theorem fullName_reads_back (hs : ∀ l ∈ s.place.rest, l.token.Arises)
    (h : typeName i s = .ok T t) :
    ∃ ls, Lexeme.ofText? (T.fullName ++ "]").toList = .ok (ls ++ [T.closing]) ∧
      ∀ j u, u.place.rest = ls ++ [T.closing] →
        typeName j u = .ok T { u with place := ⟨ls.getLast?, [T.closing]⟩ } := by
  have hwritten : T.Written := written_iff.mpr ⟨i, s, t, hs, h⟩
  obtain ⟨ws, hws⟩ := hwritten.exists_spelledBy
  exact ⟨lexemes 0 ws, hws.ofText?_eq, fun j u hu => hws.typeName_eq hu⟩

/-- Blanks and the brackets around an argument are gone when the type is written again. -/
theorem fullName_reads_back_nested :
    let source := "A.Map[string, [List[int [] ]]] []]".toList
    let s : State := { place := { rest := (Lexeme.ofBrokenText source).1 } }
    let T : TypeName := .array (.generic "A.Map"
      [.simple "string", .generic "List" [.array (.simple "int") 1]]) 1
    (∀ l ∈ s.place.rest, l.token.Arises) ∧ (∃ t, typeName ⟨source, 0⟩ s = .ok T t) ∧
      T.fullName = "A.Map[string,List[int[]]][]" ∧
      ∃ ls, Lexeme.ofText? "A.Map[string,List[int[]]][]]".toList = .ok (ls ++ [T.closing]) ∧
        ∀ j u, u.place.rest = ls ++ [T.closing] →
          typeName j u = .ok T { u with place := ⟨ls.getLast?, [T.closing]⟩ } := by
  intro source s T
  have hs : ∀ l ∈ s.place.rest, l.token.Arises := fun l hl => ⟨source, l, hl, rfl⟩
  obtain ⟨t, hrun⟩ : ∃ t, typeName ⟨source, 0⟩ s = .ok T t := ⟨_, rfl⟩
  have hname : T.fullName = "A.Map[string,List[int[]]][]" := by decide +kernel
  have hread := fullName_reads_back hs hrun
  rw [hname] at hread
  exact ⟨hs, ⟨t, hrun⟩, hname, hread⟩

end TypeName

end ScriptInject
