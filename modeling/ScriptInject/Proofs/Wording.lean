import ScriptInject.Grammar.Block
import ScriptInject.Proofs.Munch
/-! The texts that nodes carry: bare words, names of types and targets of `using` lines. -/
namespace ScriptInject
open Chunk Grammar

/-- A bare word whose first token is `first`; the tokens follow one another without a gap. -/
def IsBareWord (first : Token) (value : String) : Prop :=
  ∃ w ws, Clean (w :: ws) [] ∧ String.ofList (textOf (w :: ws)) = value ∧
    w.piece = .token first ∧ ∀ v ∈ ws, ∃ t, v.piece = .token t ∧ isBareWordPart t = true

/-- Tokens that end the target of a `using` line. -/
def endsLine (t : Token) : Bool := t == .newline || t == .mark .semicolon

/-- The target of a `using` line, which reaches from a token to a token. -/
def IsUsingName (name : String) : Prop :=
  ∃ ws, Clean ws [] ∧ String.ofList (textOf ws) = name ∧ ws ≠ [] ∧
    (∀ w ∈ ws.head?, w.isGap = false) ∧ (∀ w ∈ ws.getLast?, w.isGap = false) ∧
    ∀ w ∈ ws, ∀ t, w.piece = .token t → endsLine t = false

/-- Words with dots between them. -/
def IsDottedName (name : String) : Prop :=
  ∃ words, words ≠ [] ∧ name = ".".intercalate words ∧ ∀ w ∈ words, (Token.word w).Occurs

/-- A type name as it may be written: only names that are no arrays have ranks. -/
inductive TypeName.Written : TypeName → Prop
  | simple {name : String} : IsDottedName name → Written (.simple name)
  | generic {name : String} {arguments : List TypeName} : IsDottedName name → arguments ≠ [] →
      (∀ t ∈ arguments, Written t) → Written (.generic name arguments)
  | array {element : TypeName} {rank : Nat} : Written element →
      (∀ t n, element ≠ .array t n) → rank ≠ 0 → Written (.array element rank)

namespace Chunk

variable {w : Chunk} {vs ws : List Chunk} {start : Nat} {t : Token}

theorem Stands.size_pos {after : List Char} (h : w.Stands after) : 0 < Text.size w.text := by
  obtain ⟨c, cs, hc, -⟩ := h
  have := c.utf8Size_pos
  simp only [hc, Text.size_cons]
  omega

theorem lexemes_start_le {after : List Char} {l : Lexeme} (h : Clean ws after)
    (hl : l ∈ (lexemes start ws).head?) : start ≤ l.span.start := by
  induction ws generalizing start with
  | nil => simp at hl
  | cons w ws ih =>
    rw [lexemes_cons] at hl
    cases hw : w.token? with
    | some t =>
      simp only [hw, Option.map_some, Option.toList_some, List.cons_append, List.head?_cons,
        Option.mem_some_iff] at hl
      subst hl
      exact Nat.le_refl _
    | none =>
      simp only [hw, Option.map_none, Option.toList_none, List.nil_append] at hl
      have := ih h.2.2 hl
      omega

theorem token?_eq : w.token? = some t ↔ w.piece = .token t := by
  cases hp : w.piece <;> simp [token?, hp]

/-- What is glued to a text are the next chunks as far as they are parts of a bare word. -/
theorem glued_lexemes {after : List Char} (h : Clean ws after) :
    ∃ vs us, ws = vs ++ us ∧ (∀ v ∈ vs, ∃ t, v.piece = .token t ∧ isBareWordPart t = true) ∧
      glued start (lexemes start ws) = (vs.length, start + Text.size (textOf vs)) := by
  induction ws generalizing start with
  | nil => exact ⟨[], [], rfl, nofun, rfl⟩
  | cons w ws ih =>
    rw [lexemes_cons]
    cases hw : w.token? with
    | some t =>
      by_cases ht : isBareWordPart t = true
      · obtain ⟨vs, us, rfl, hvs, hg⟩ := @ih (start + Text.size w.text) h.2.2
        refine ⟨w :: vs, us, rfl, ?_, ?_⟩
        · intro v hv
          rcases List.mem_cons.mp hv with rfl | hv
          · exact ⟨t, token?_eq.mp hw, ht⟩
          · exact hvs v hv
        · simp [glued, ht, hg, Nat.add_assoc]
      · exact ⟨[], w :: ws, rfl, nofun, by simp [glued, ht]⟩
    | none =>
      refine ⟨[], w :: ws, rfl, nofun, ?_⟩
      simp only [Option.map_none, Option.toList_none, List.nil_append, textOf_nil, Text.size_nil,
        List.length_nil, Nat.add_zero]
      have hpos := h.1.size_pos
      cases hls : lexemes (start + Text.size w.text) ws with
      | nil => rfl
      | cons l ls =>
        have := @lexemes_start_le _ (start + Text.size w.text) _ l h.2.2 (by simp [hls])
        have hne : (l.span.start == start) = false := by simpa using by omega
        simp [glued, hne]

/-- The target of a `using` line reaches to the last token before the line ends. -/
theorem usingTarget_lexemes {stop : Nat} :
    ∃ vs us, ws = vs ++ us ∧ (∀ v ∈ vs.getLast?, v.token?.isSome = true) ∧
      (∀ v ∈ vs, ∀ t, v.piece = .token t → endsLine t = false) ∧
      usingTarget stop (lexemes start ws) = ((vs.filter (·.token?.isSome)).length,
        if vs = [] then stop else start + Text.size (textOf vs)) := by
  induction ws generalizing start stop with
  | nil => exact ⟨[], [], rfl, nofun, nofun, rfl⟩
  | cons w ws ih =>
    rw [lexemes_cons]
    cases hw : w.token? with
    | some t =>
      by_cases ht : endsLine t = true
      · refine ⟨[], w :: ws, rfl, nofun, nofun, ?_⟩
        simp only [endsLine] at ht
        simp [usingTarget, ht]
      · obtain ⟨vs, us, rfl, hlast, hvs, hg⟩ := @ih (start + Text.size w.text)
          (start + Text.size w.text)
        refine ⟨w :: vs, us, rfl, ?_, ?_, ?_⟩
        · cases vs with
          | nil => simp [hw]
          | cons v vs => simpa using hlast
        · intro v hv u hu
          rcases List.mem_cons.mp hv with rfl | hv
          · obtain rfl := Option.some.inj (hw.symm.trans (token?_eq.mpr hu))
            simpa using ht
          · exact hvs v hv u hu
        · simp only [endsLine] at ht
          simp only [Option.map_some, Option.toList_some, List.cons_append, List.nil_append,
            usingTarget, ht, hg]
          simp only [Bool.false_eq_true, if_false, List.filter_cons, hw, Option.isSome_some, if_true,
            List.length_cons, reduceCtorEq, textOf_cons, Text.size_append]
          split <;> simp_all [Nat.add_assoc]
    | none =>
      obtain ⟨vs, us, rfl, hlast, hvs, hg⟩ := @ih (start + Text.size w.text) stop
      simp only [Option.map_none, Option.toList_none, List.nil_append, hg]
      cases vs with
      | nil => exact ⟨[], w :: us, rfl, nofun, nofun, rfl⟩
      | cons v vs =>
        refine ⟨w :: v :: vs, us, rfl, by simpa using hlast, ?_, ?_⟩
        · intro x hx u hu
          rcases List.mem_cons.mp hx with rfl | hx
          · exact absurd (hw.symm.trans (token?_eq.mpr hu)) nofun
          · exact hvs x hx u hu
        · simp [hw, Nat.add_assoc]

end Chunk

end ScriptInject
