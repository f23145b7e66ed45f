import ScriptInject.Proofs.Bytewise
import ScriptInject.Proofs.Composing.Statement
import ScriptInject.Proofs.Naming
import ScriptInject.Proofs.Progress
/-! No piece of a text is cut out of its bounds, neither while it is split into tokens nor while the
tokens are read. There is one exception, a path whose sixth byte lies within a character. -/
namespace ScriptInject

namespace Lexeme

variable {cs : List Char} {l : Lexeme} {ls : List Lexeme}

/-- Tokens begin and end between characters. -/
def Bounded (cs : List Char) (ls : List Lexeme) : Prop :=
  ∀ l ∈ ls, Text.IsBoundary cs l.span.start ∧ Text.IsBoundary cs l.span.stop

theorem bounded_ofBrokenText (cs : List Char) : Bounded cs (ofBrokenText cs).1 := by
  intro l hl
  obtain ⟨cut, hcut, -, hspan⟩ := cut_of_mem hl
  obtain ⟨before, c, rest, n, hcs, -, htext, hstart⟩ := Token.cut_stands hcut
  rw [Nat.zero_add] at hstart
  rw [hspan]
  refine ⟨⟨before, c :: rest, hcs, hstart⟩, before ++ cut.text, (c :: rest).drop n, ?_, ?_⟩
  · rw [htext, List.append_assoc, List.take_append_drop, hcs]
  · rw [Token.Cut.span, hstart, Text.size_append]

end Lexeme

namespace Grammar
open Lexeme

variable {i : Input} {ls : List Lexeme} {V : Place → Prop} {F : Failure → Prop} {q : Place}
  {l : Lexeme} {ms : List Lexeme} {stop : Nat}

theorem Composed.slice {m n : Nat} (h : (Text.slice? i.text m n).isSome) :
    Composed i V F (Parser.slice m n) := by
  obtain ⟨cs, hcs⟩ := Option.isSome_iff_exists.mp h
  refine look fun s => ⟨String.ofList cs, ?_⟩
  have hrun : Outcome (Parser.slice m n) i s (fun _ _ => False) fun a t =>
      a = String.ofList cs ∧ t = s := by
    unfold Parser.slice
    refine Outcome.bind (P := fun j t => j = i ∧ t = s) ⟨rfl, rfl⟩ ?_
    rintro _ _ ⟨rfl, rfl⟩
    rw [hcs]
    exact ⟨rfl, rfl⟩
  rw [Outcome] at hrun
  cases hr : Parser.slice m n i s with
  | ok a t =>
    rw [hr] at hrun
    rw [hrun.1, hrun.2]
  | error f t =>
    rw [hr] at hrun
    exact hrun.elim

theorem exists_stop_cons (h : stop = l.span.stop ∨ ∃ m ∈ ms, stop = m.span.stop) :
    ∃ m ∈ l :: ms, stop = m.span.stop := by
  rcases h with h | ⟨m, hm, h⟩
  · exact ⟨l, List.mem_cons_self, h⟩
  · exact ⟨m, List.mem_cons_of_mem l hm, h⟩

theorem glued_stop (stop : Nat) (ms : List Lexeme) : (glued stop ms).2 = stop ∨
    ∃ m ∈ ms, (glued stop ms).2 = m.span.stop := by
  induction ms generalizing stop with
  | nil => exact .inl rfl
  | cons m ms ih =>
    rw [glued]
    split
    · exact .inr (exists_stop_cons (ih m.span.stop))
    · exact .inl rfl

theorem usingTarget_stop (stop : Nat) (ms : List Lexeme) : (usingTarget stop ms).2 = stop ∨
    ∃ m ∈ ms, (usingTarget stop ms).2 = m.span.stop := by
  induction ms generalizing stop with
  | nil => exact .inl rfl
  | cons m ms ih =>
    rw [usingTarget]
    split
    · exact .inl rfl
    · exact .inr (exists_stop_cons (ih m.span.stop))

/-- A row of tokens that stand one after the other ends behind its first one. -/
theorem start_le_stop (hlined : Lined i.text (l :: ms)) {m : Lexeme} (hm : m ∈ l :: ms) :
    l.span.start ≤ m.span.stop := by
  have hl := hlined.upright l List.mem_cons_self
  rcases List.mem_cons.mp hm with rfl | hm
  · exact hl.1
  · have hapart := (List.pairwise_cons.mp hlined.apart).1 m hm
    have hupright := hlined.upright m (List.mem_cons_of_mem l hm)
    omega

namespace Place.Along

variable (hq : q.Along i.text ls)
include hq

theorem rest_subset : ∀ l ∈ q.rest, l ∈ ls := by
  obtain ⟨done, rfl, -⟩ := hq.split
  exact fun l hl => List.mem_append_right done hl

theorem lined_rest : Lined i.text q.rest := by
  obtain ⟨done, hls, -⟩ := hq.split
  have hlined := hls ▸ hq.lined
  exact ⟨(List.pairwise_append.mp hlined.apart).2.1,
    fun l hl => hlined.upright l (List.mem_append_right done hl)⟩

theorem isBoundary_start (hbounded : Bounded i.text ls) :
    Text.IsBoundary i.text (q.start i.text) := by
  have hrest := hq.rest_subset
  rw [Place.start]
  cases hr : q.rest with
  | nil => exact Text.isBoundary_size i.text
  | cons l ms => exact (hbounded l (hrest l (by simp [hr]))).1

theorem isBoundary_stop (hbounded : Bounded i.text ls) : Text.IsBoundary i.text q.stop := by
  obtain ⟨done, hls, hlast⟩ := hq.split
  rw [Place.stop, hlast]
  cases hl : done.getLast? with
  | none => exact Text.isBoundary_zero i.text
  | some l =>
    have hmem := List.mem_of_getLast? hl
    exact (hbounded l (hls ▸ List.mem_append_left _ hmem)).2

end Place.Along

section Excerpts

variable (hbounded : Bounded i.text ls)
include hbounded

/-- The target of a `using` statement begins and ends with a token. -/
theorem usingTarget_slice (hq : q.Along i.text ls)
    (hne : (usingTarget (q.start i.text) q.rest).2 ≠ q.start i.text) :
    (Text.slice? i.text (q.start i.text) (usingTarget (q.start i.text) q.rest).2).isSome := by
  have hrest := hq.rest_subset
  have hlined := hq.lined_rest
  have hstart := hq.isBoundary_start hbounded
  obtain ⟨m, hm, hstop⟩ := (usingTarget_stop (q.start i.text) q.rest).resolve_left hne
  rw [hstop]
  refine Text.slice?_isSome hstart (hbounded m (hrest m hm)).2 ?_
  cases hr : q.rest with
  | nil =>
    rw [hr] at hm
    cases hm
  | cons l ms =>
    rw [hr] at hlined hm
    rw [Place.start, hr]
    exact start_le_stop hlined hm

theorem bareWordText_composed (hV : Passable V F) (hV' : ∀ q, V q → q.Along i.text ls) :
    Composed i V F bareWordText := by
  refine .place_bind fun q hq => ?_
  have hq := hV' q hq
  have hrest := hq.rest_subset
  have hlined := hq.lined_rest
  split
  · exact .pure _
  · rename_i l ms hr
    rw [hr] at hrest hlined
    refine (Composed.advanceBy hV _).bind fun _ => .slice ?_
    have hl := hbounded l (hrest l List.mem_cons_self)
    obtain ⟨m, hm, hstop⟩ := exists_stop_cons (glued_stop l.span.stop ms)
    rw [hstop]
    exact Text.slice?_isSome hl.1 (hbounded m (hrest m hm)).2 (start_le_stop hlined hm)

theorem errorStatement_composed (hV : Passable V F) (hV' : ∀ q, V q → q.Along i.text ls)
    (closer : Closer) : Composed i V F (errorStatement closer) := by
  refine .start_bind fun p hp => Composed.place.bind fun _ =>
    (Composed.advanceBy hV _).bind fun _ => .place_bind fun q hq =>
      (Composed.slice ?_).bind fun _ => .add _ _
  have hstart := (hV' p hp).isBoundary_start hbounded
  have hstop := (hV' q hq).isBoundary_stop hbounded
  rcases Nat.le_total q.stop (p.start i.text) with h | h
  · rw [Nat.max_eq_right h]
    exact Text.slice?_isSome hstart hstart (Nat.le_refl _)
  · rw [Nat.max_eq_left h]
    exact Text.slice?_isSome hstart hstop h

theorem listedUsing_composed (hV : Passable V F) (hV' : ∀ q, V q → q.Along i.text ls) :
    Composed i V F listedUsing := by
  refine Composed.start.bind fun start => (Composed.atWord _).bind fun found => ?_
  split
  · refine Composed.peekNext.bind fun next => ?_
    split
    · split
      · refine (Composed.advanceBy hV 2).bind fun _ => .start_place_bind fun q hq =>
          (Composed.advanceBy hV _).bind fun _ => ?_
        split
        · exact .unexpected hV _
        · rename_i hne
          exact (Composed.slice (usingTarget_slice hbounded (hV' q hq) hne)).bind fun _ =>
            (Composed.add _ _).bind fun _ => (Composed.skipTerminators hV).bind fun _ => .pure _
      · exact .pure none
    · exact .pure none
  · exact .pure none

end Excerpts

/-- A path that can be divided behind its scope is read without a cut. -/
theorem variableRef_composed {path : String} (hpath : IsDivisible path) (start : Nat) :
    Composed i V F (variableRef path start) := by
  unfold variableRef
  dsimp only
  split
  · rename_i hlong
    split
    · rename_i hnone
      have hsome := hpath hlong
      rw [hnone] at hsome
      cases hsome
    · split
      · exact (Composed.add _ _).bind fun _ => .add _ _
      · exact .add _ _
  · exact .add _ _

/-- Along the tokens of a text, whose paths can be divided, every excerpt is one. -/
theorem excerpting_along (hbounded : Bounded i.text ls)
    (hpaths : ∀ l ∈ ls, ∀ path, l.token = .variableName path → IsDivisible path) :
    Excerpting i (fun q => q.Along i.text ls) (· ≠ .cut) := by
  have hpass : Passable (fun q => q.Along i.text ls) (· ≠ .cut) :=
    ⟨fun _ hq => hq.advance, fun _ => Failure.noConfusion, Failure.noConfusion⟩
  refine ⟨hpass, bareWordText_composed hbounded hpass fun _ => id,
    errorStatement_composed hbounded hpass fun _ => id,
    listedUsing_composed hbounded hpass fun _ => id, fun q path start hq hcurrent => ?_⟩
  obtain ⟨l, hl, hpath⟩ : ∃ l ∈ q.rest, l.token = .variableName path := by
    rw [Place.current?] at hcurrent
    cases hr : q.rest with
    | nil =>
      rw [hr] at hcurrent
      cases hcurrent
    | cons l ms =>
      rw [hr] at hcurrent
      exact ⟨l, List.mem_cons_self, Option.some.inj hcurrent⟩
  exact variableRef_composed (hpaths l (hq.rest_subset l hl) path hpath) start

/-- A path without braces can be divided anywhere. -/
theorem isDivisible_of_bytes {path : String} (h : ∀ c ∈ path.toList, c.utf8Size = 1) :
    IsDivisible path := by
  intro hlong
  rw [Text.size_eq_length h] at hlong
  have hscope : Text.size (path.toList.take 6) = 6 := by
    rw [Text.size_eq_length fun c hc => h c (List.mem_of_mem_take hc), List.length_take]
    omega
  exact Text.slice?_isSome (Text.isBoundary_zero _)
    ⟨_, _, (List.take_append_drop 6 path.toList).symm, hscope.symm⟩ (Nat.zero_le 6)

/-- Where the paths in braces can be divided, the paths of all tokens can. -/
theorem isDivisible_of_mem {cs : List Char} {l : Lexeme} {path : String}
    (hpaths : ∀ cut ∈ Token.cuts cs, ∀ path ∈ cut.bracedPath?, IsDivisible path)
    (hl : l ∈ (ofBrokenText cs).1) (hpath : l.token = .variableName path) : IsDivisible path := by
  obtain ⟨cut, hcut, hpiece, -⟩ := cut_of_mem hl
  rw [hpath] at hpiece
  obtain ⟨-, c, rest, n, -, hp, htext, -⟩ := Token.cut_stands hcut
  rw [hpiece] at hp
  obtain ⟨m, rfl⟩ := Token.exists_succ_of_piece hp
  obtain ⟨rfl, hscan⟩ := Token.found_piece hp
  rcases Token.path_stands hscan with hbraced | ⟨-, hchars⟩
  · refine hpaths cut hcut path ?_
    rw [Token.Cut.bracedPath?, hpiece, htext, List.take_succ_cons, hbraced]
    rfl
  · exact isDivisible_of_bytes fun c hc => (hchars c hc).1

/-- A reading of a whole text stays along its tokens and makes no cut that is none. -/
theorem script_along (hlined : Lined i.text ls) (hbounded : Bounded i.text ls)
    (hpaths : ∀ l ∈ ls, ∀ path, l.token = .variableName path → IsDivisible path)
    (recovering : Bool) :
    Outcome script i { place := { rest := ls }, recovering }
      (fun f t => f ≠ .cut ∧ t.place.Along i.text ls) fun _ t => t.place.Along i.text ls := by
  have halong : ({ rest := ls } : Place).Along i.text ls := ⟨hlined, [], rfl, rfl⟩
  have hrun := script_outcome (s := { place := { rest := ls }, recovering })
    (excerpting_along hbounded hpaths) halong
  unfold Outcome at hrun ⊢
  unfold script
  exact hrun

end Grammar

namespace Script
open Grammar Token

section Bounds

variable {source : String}
  (hpaths : ∀ cut ∈ cuts source.toList, ∀ path ∈ cut.bracedPath?, IsDivisible path)
include hpaths

theorem reads_along (maxDepth : Nat) (recovering : Bool) :
    Outcome script ⟨source.toList, maxDepth⟩
      { place := { rest := (Lexeme.ofBrokenText source.toList).1 }, recovering }
      (fun f t => f ≠ .cut ∧ t.place.Along source.toList (Lexeme.ofBrokenText source.toList).1)
      fun _ t => t.place.Along source.toList (Lexeme.ofBrokenText source.toList).1 :=
  script_along (i := ⟨source.toList, maxDepth⟩) (Lexeme.lined_ofBrokenText source.toList)
    (Lexeme.bounded_ofBrokenText source.toList) (fun _ hl _ => isDivisible_of_mem hpaths hl)
    recovering

/-- A strict reading returns an arena or refuses the text. -/
theorem parseWithin_ends (maxDepth : Nat) : (∃ a, parseWithin maxDepth source = .ok a) ∨
    ∃ e, parseWithin maxDepth source = .error (.refused e) := by
  cases h : parseWithin maxDepth source with
  | ok a => exact .inl ⟨a, rfl⟩
  | error f =>
    cases f with
    | refused e => exact .inr ⟨e, rfl⟩
    | stalled => exact absurd h parseWithin_ne_stalled
    | cut =>
      obtain ⟨lexemes, t, hlexemes, hs⟩ := script_of_parseWithin h fun _ => Failure.noConfusion
      have hlexemes := congrArg Prod.fst (Lexeme.ofText?_eq_ok_iff.mp hlexemes)
      have hrun := reads_along hpaths maxDepth false
      unfold Outcome at hrun
      rw [hlexemes, hs] at hrun
      exact absurd rfl hrun.1

/-- A recovering reading returns an arena and errors. -/
theorem parseRecovering_ends : ∃ r, parseRecovering source = .ok r := by
  cases h : parseRecovering source with
  | ok r => exact ⟨r, rfl⟩
  | error f =>
    obtain ⟨hrefused, t, hs⟩ := script_of_parseRecovering h
    cases f with
    | refused e => exact absurd rfl (hrefused e)
    | stalled => exact absurd h (parseRecovering_ne_stalled source)
    | cut =>
      have hrun := reads_along hpaths defaultMaxDepth true
      unfold Outcome at hrun
      rw [hs] at hrun
      exact absurd rfl hrun.1

end Bounds

/-- Nothing is cut out of a text beyond its bounds or inside a character, if the paths that stand in
braces can be divided behind their scopes: no token and nothing of a token, no comment and no
here-string, and no excerpt that a strict or a recovering reading makes. The place of a reading is
always one of the tokens or their end, and both readings come to a result. -/
theorem reads_in_bounds {source : String}
    (hpaths : ∀ cut ∈ cuts source.toList, ∀ path ∈ cut.bracedPath?, IsDivisible path) :
    (∀ cut ∈ cuts source.toList, cut.IsCutOut source.toList) ∧
    (∀ quote rest, hereStringBytes quote rest =
      .ok ((hereString quote rest).map fun r => (r.1, Text.size (rest.take (r.2 - 2))))) ∧
    (∀ body, commentBytes body = .ok ((scanAngle ('#' :: body)).1,
      Text.size (body.take ((scanAngle ('#' :: body)).2 - 2)))) ∧
    (∀ maxDepth recovering, Outcome script ⟨source.toList, maxDepth⟩
      { place := { rest := (Lexeme.ofBrokenText source.toList).1 }, recovering }
      (fun f t => f ≠ .cut ∧ t.place.Along source.toList (Lexeme.ofBrokenText source.toList).1)
      fun _ t => t.place.Along source.toList (Lexeme.ofBrokenText source.toList).1) ∧
    (∀ maxDepth, (∃ a, parseWithin maxDepth source = .ok a) ∨
      ∃ e, parseWithin maxDepth source = .error (.refused e)) ∧
    ∃ r, parseRecovering source = .ok r :=
  ⟨fun _ => cut_isCutOut, hereStringBytes_eq, commentBytes_eq, reads_along hpaths,
    parseWithin_ends hpaths, parseRecovering_ends hpaths⟩

/-- A recovering reading of characters of several bytes: a path that can be divided, a comment, a
here-string and a broken statement. A path that cannot be divided brings it down. -/
theorem reads_in_bounds_recovering :
    (∀ cut ∈ cuts "$\x7busing:é\x7d<#ü#>+@'\nµ\n'@\n)é".toList,
      ∀ path ∈ cut.bracedPath?, IsDivisible path) ∧
    (∃ r, parseRecovering "$\x7busing:é\x7d<#ü#>+@'\nµ\n'@\n)é" = .ok r) ∧
    (parseRecovering "$\x7busingé\x7d").isOk = false := by
  have hpaths : ∀ cut ∈ cuts "$\x7busing:é\x7d<#ü#>+@'\nµ\n'@\n)é".toList,
      ∀ path ∈ cut.bracedPath?, IsDivisible path := by decide +kernel
  exact ⟨hpaths, (reads_in_bounds hpaths).2.2.2.2.2, by decide +kernel⟩

end Script

end ScriptInject
