import ScriptInject.Proofs.Tokens
import ScriptInject.Proofs.Wording
/-! What a reading that stands in a text can tell of the text around it. -/
namespace ScriptInject.Grammar
open Chunk Token

namespace Place

variable {text : List Char} {p : Place} {done us vs ws : List Chunk} {w : Chunk} {t : Token}
  {l : Lexeme} {ls : List Lexeme}

theorem At.advanceBy_tokens (h : p.At text done (vs ++ ws))
    (hvs : ∀ v ∈ vs, ∃ t, v.piece = .token t) :
    (p.advanceBy vs.length).At text (done ++ vs) ws := by
  induction vs generalizing p done with
  | nil => simpa [Place.advanceBy] using h
  | cons v vs ih =>
    obtain ⟨t, ht⟩ := hvs v (by simp)
    have hv := @At.advance _ _ _ [] _ _ _ h (List.forall_mem_nil _) ht
    have := ih hv fun u hu => hvs u (by simp [hu])
    simpa [Place.advanceBy] using this

theorem At.advanceBy_chunks (h : p.At text done (vs ++ ws)) (hc : Clean vs [])
    (hlast : ∀ v ∈ vs.getLast?, v.token?.isSome = true) :
    (p.advanceBy (vs.filter (·.token?.isSome)).length).At text (done ++ vs) ws := by
  induction hn : vs.length using Nat.strongRecOn generalizing p done vs with
  | ind n ih =>
    rcases clean_cases hc with hg | ⟨gs, v, t, us, rfl, hg, hv⟩
    · cases hl : vs.getLast? with
      | none =>
        obtain rfl := List.getLast?_eq_none_iff.mp hl
        simpa [Place.advanceBy] using h
      | some v =>
        have hsome := hlast v hl
        rw [token?_of_isGap (hg v (List.mem_of_getLast? hl))] at hsome
        cases hsome
    · have hgs : gs.filter (·.token?.isSome) = [] := by
        simp only [List.filter_eq_nil_iff]
        intro g hgm
        simp [token?_of_isGap (hg g hgm)]
      have hvs : v.token?.isSome = true := by simp [token?, hv]
      rw [List.append_assoc] at h
      have hadv := At.advance h hg hv
      have hus : Clean us [] := (clean_append.mp hc).2.2.2
      have hlast' : ∀ x ∈ us.getLast?, x.token?.isSome = true := by
        intro x hx
        apply hlast x
        cases us with
        | nil => cases hx
        | cons u us => simpa using hx
      have := ih us.length (by simp at hn; omega) hadv hus hlast' rfl
      simpa [hgs, hvs, Place.advanceBy] using this

/-- The chunks around the current token. -/
theorem Scanned.cases (h : p.Scanned text) (hr : p.rest = l :: ls) :
    ∃ done gs w ws, p.At text done (gs ++ w :: ws) ∧ Clean (done ++ (gs ++ w :: ws)) [] ∧
      (∀ g ∈ gs, g.isGap = true) ∧ w.piece = .token l.token ∧
      l.span = ⟨Text.size (textOf (done ++ gs)), Text.size (textOf (done ++ gs ++ [w]))⟩ ∧
      ls = lexemes (Text.size (textOf (done ++ gs ++ [w]))) ws := by
  obtain ⟨done, ws, hp, hc⟩ := h
  rcases clean_cases (clean_append.mp hc).2 with hg | ⟨gs, w, t, vs, rfl, hg, hw⟩
  · rw [hp.rest_gaps hg] at hr
    exact absurd hr nofun
  · have hrest := hp.rest_token hg hw
    rw [hr, List.cons.injEq] at hrest
    obtain ⟨rfl, rfl⟩ := hrest
    exact ⟨done, gs, w, vs, hp, hc, hg, hw, rfl, rfl⟩

theorem clean_word {word : String} (h : (Token.word word).Occurs) :
    Clean [⟨.token (.word word), word.toList⟩] [] := by
  obtain ⟨s, hs⟩ := occurs_iff.mp h
  have : s = word.toList := hs.1.word_text rfl
  rwa [← this]

/-- A token and what is glued to it make a bare word. A bare word that reads as one word is one
token. -/
theorem Scanned.bareWord (h : p.Scanned text) (hr : p.rest = l :: ls) :
    ∃ value, Text.slice? text l.span.start (glued l.span.stop ls).2 = some value ∧
      IsBareWord l.token (String.ofList value) ∧
      (p.advanceBy ((glued l.span.stop ls).1 + 1)).Scanned text ∧
      ∀ word, (Token.word word).Occurs → String.ofList value = word →
        l.token = .word word ∧ (glued l.span.stop ls).1 = 0 := by
  obtain ⟨done, gs, w, ws, hp, hc, hg, hw, hspan, rfl⟩ := h.cases hr
  have hws : Clean (w :: ws) [] := (clean_append.mp (clean_append.mp hc).2).2
  obtain ⟨vs, rest, rfl, hvs, hglued⟩ :=
    @glued_lexemes _ (Text.size (textOf (done ++ gs ++ [w]))) _ hws.2.2
  rw [hspan, hglued]
  have hclean : Clean (w :: vs) [] := by
    rw [← List.cons_append] at hws
    exact (clean_append.mp hws).1.cut
  refine ⟨textOf (w :: vs), ?_, ⟨w, vs, hclean, rfl, hw, hvs⟩, ?_, ?_⟩
  · have htext := hp.text_eq
    have hsize : Text.size (textOf (done ++ gs ++ [w])) + Text.size (textOf vs) =
        Text.size (textOf (done ++ gs)) + Text.size (textOf (w :: vs)) := by
      simp [Nat.add_assoc]
    simp only [hsize]
    have hsplit : text = textOf (done ++ gs) ++ textOf (w :: vs) ++ textOf rest := by
      rw [htext]
      simp
    rw [hsplit]
    exact Text.slice?_append _ _ _
  · have hadv := (hp.advance hg hw).advanceBy_tokens fun v hv =>
      (hvs v hv).imp fun _ hu => hu.1
    exact ⟨_, _, hadv, by simpa using hc⟩
  · intro word hword hvalue
    have := clean_unique hclean (clean_word hword) (by rw [← hvalue]; simp)
    obtain ⟨rfl, rfl⟩ := List.cons.inj this
    exact ⟨(Piece.token.inj hw).symm, rfl⟩

/-- What stands up to the end of the line is the target of a `using` line, if there is anything. -/
theorem Scanned.usingName (h : p.Scanned text)
    (hne : (usingTarget (p.start text) p.rest).2 ≠ p.start text) :
    ∃ value, Text.slice? text (p.start text) (usingTarget (p.start text) p.rest).2 = some value ∧
      IsUsingName (String.ofList value) ∧
      (p.advanceBy (usingTarget (p.start text) p.rest).1).Scanned text := by
  cases hr : p.rest with
  | nil =>
    rw [hr] at hne
    exact absurd rfl hne
  | cons l ls =>
    obtain ⟨done, gs, w, ws, hp, hc, hg, hw, hspan, hls⟩ := h.cases hr
    have hstart : p.start text = Text.size (textOf (done ++ gs)) := by
      simp [Place.start, hr, hspan]
    have hlexemes : lexemes (p.start text) (w :: ws) = l :: ls := by
      rw [← hr, hp.rest_eq, lexemes_append, lexemes_gaps hg, hstart]
      simp
    obtain ⟨vs, us, hsplit, hlast, hvs, htarget⟩ := @usingTarget_lexemes (w :: ws)
      (p.start text) (p.start text)
    rw [hlexemes] at htarget
    rw [hr, htarget] at hne
    rw [htarget]
    cases vs with
    | nil => exact absurd rfl hne
    | cons v vs =>
      obtain ⟨rfl, rfl⟩ := List.cons.inj hsplit
      have hws : Clean (w :: (vs ++ us)) [] := (clean_append.mp (clean_append.mp hc).2).2
      have hclean : Clean (w :: vs) [] := by
        rw [← List.cons_append] at hws
        exact (clean_append.mp hws).1.cut
      have hgap {x : Chunk} (hx : x.token?.isSome = true) : x.isGap = false := by
        cases hpiece : x.piece <;> simp_all [token?, isGap]
      refine ⟨textOf (w :: vs), ?_, ⟨w :: vs, hclean, rfl, by simp, ?_, fun x hx =>
        hgap (hlast x hx), hvs⟩, ?_⟩
      · have htext : text = textOf (done ++ gs) ++ textOf (w :: vs) ++ textOf us := by
          rw [hp.text_eq]
          simp
        rw [hstart, htext]
        simp only [reduceCtorEq, if_false]
        exact Text.slice?_append _ _ _
      · intro x hx
        obtain rfl := Option.some.inj hx
        simp [isGap, hw]
      · have hpos : p.At text done (gs ++ (w :: vs) ++ us) := by simpa using hp
        have hcgs : Clean (gs ++ w :: vs) [] := by
          have : Clean (done ++ ((gs ++ w :: vs) ++ us)) [] := by simpa using hc
          exact (clean_append.mp (clean_append.mp this).2).1.cut
        have hadv := hpos.advanceBy_chunks hcgs (by
          intro x hx
          apply hlast x
          simpa using hx)
        have hgs : gs.filter (·.token?.isSome) = [] := by
          simp only [List.filter_eq_nil_iff]
          intro g hgm
          simp [token?_of_isGap (hg g hgm)]
        rw [List.filter_append, hgs, List.nil_append] at hadv
        exact ⟨_, _, hadv, by simpa using hc⟩

theorem run_append_length {q : Char → Bool} {xs ys : List Char} {d : Char}
    (h : run q (xs ++ d :: ys) = xs.length) : q d = false := by
  induction xs with
  | nil =>
    simp only [List.nil_append, run_cons, List.length_nil] at h
    cases hd : q d with
    | false => rfl
    | true => simp [hd] at h
  | cons x xs ih =>
    simp only [List.cons_append, run_cons, List.length_cons] at h
    apply ih
    split at h <;> omega

/-- Two dashes right behind a word belong to the word. -/
theorem Scanned.not_minusMinus {word : String} (h : p.Scanned text)
    (hlast : p.last?.map (·.token) = some (.word word)) (hadj : p.isAdjacent = true) :
    p.current? ≠ some (.mark .minusMinus) := by
  intro hcur
  cases hr : p.rest with
  | nil => simp [Place.current?, hr] at hcur
  | cons l ls =>
    obtain ⟨done, gs, w, ws, hp, hc, hg, hw, hspan, -⟩ := h.cases hr
    have hl : l.token = .mark .minusMinus := by simpa [Place.current?, hr] using hcur
    have hgs : gs = [] := by
      cases gs with
      | nil => rfl
      | cons g gs =>
        have hpos := ((clean_append.mp hc).2).1.size_pos
        have hstop := hp.stop_eq
        cases hl : p.last? with
        | none => simp [hl] at hlast
        | some k =>
          simp only [Place.isAdjacent, hl, hr, hspan, beq_iff_eq] at hadj
          simp only [Place.stop, hl] at hstop
          simp only [textOf_append, textOf_cons, Text.size_append] at hadj
          omega
    subst hgs
    rcases hp.ended with rfl | ⟨us, u, t, rfl, hu⟩
    · simp [hp.last_eq] at hlast
    · have ht : t = .word word := by
        simpa [hp.last_eq, lexemes_append, lexemes_cons, token?, hu] using hlast
      subst ht
      have hcu : Clean (u :: w :: ws) [] := by
        have := hc
        rw [List.append_assoc] at this
        exact (clean_append.mp this).2
      obtain ⟨d, ds, hd, hfound⟩ := hcu.2.2.1.found hw
      rw [hl] at hfound
      have hdash : d = '-' := by
        have : "--".toList = (d :: (ds ++ (textOf ws ++ []))).take (ds.length + 1) := hfound
        rw [List.take_succ_cons] at this
        exact (List.cons.inj this).1.symm
      obtain ⟨c, cs, hcs, hpiece⟩ := hcu.1
      rw [hu, hcs] at hpiece
      obtain ⟨hstart, -⟩ := found_piece hpiece
      have hspace : isSpace c = false := by
        cases hs : isSpace c with
        | false => rfl
        | true => simp [Token.piece, hs] at hpiece
      simp only [Token.piece, hspace, hstart, Bool.false_eq_true, if_false, if_true, ofPrefix,
        Prod.mk.injEq, textOf_cons, hd, List.cons_append] at hpiece
      have := @run_append_length _ (c :: cs) _ _ (by simpa using hpiece.2)
      rw [hdash] at this
      exact absurd this (by decide)

end Place

end ScriptInject.Grammar
