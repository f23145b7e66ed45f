import ScriptInject.Proofs.Lockstep.Block
import ScriptInject.Proofs.Preparing.Arenas
import ScriptInject.Proofs.Preparing.Lines
import ScriptInject.Proofs.Reading.Command
/-! Reading the lines in front of a text: one `using` statement for each, and then the text. -/
namespace ScriptInject

namespace Grammar
open Chunk Grammar.Parser

variable {name : String} {ws : List Chunk} {i : Input} {s : State} {start stop : Nat}
  {l : Lexeme} {ls ms : List Lexeme} {last? : Option Lexeme}

/-- Every chunk is a token that does not end a line. -/
def Inline (ws : List Chunk) : Prop := ∀ w ∈ ws, ∃ t, w.piece = .token t ∧ endsLine t = false

namespace Inline

variable {w : Chunk}

theorem tail (h : Inline (w :: ws)) : Inline ws := fun v hv => h v (List.mem_cons_of_mem _ hv)

theorem lexemes_cons (start : Nat) (h : Inline (w :: ws)) : ∃ t, endsLine t = false ∧ lexemes start (w :: ws) =
    ⟨t, ⟨start, start + Text.size w.text⟩⟩ :: lexemes (start + Text.size w.text) ws := by
  obtain ⟨t, ht, hline⟩ := h w (by simp)
  exact ⟨t, hline, by simp [Chunk.lexemes_cons, token?, ht]⟩

theorem usingTarget_eq (start stop : Nat) (ls : List Lexeme) (h : Inline ws)
    (hl : endsLine l.token = true) :
    usingTarget stop (lexemes start ws ++ l :: ls) =
      ((lexemes start ws).length, if ws = [] then stop else start + Text.size (textOf ws)) := by
  induction ws generalizing start stop with
  | nil =>
    rw [endsLine] at hl
    simp [usingTarget, hl]
  | cons w ws ih =>
    obtain ⟨t, ht, hcons⟩ := h.lexemes_cons start
    rw [endsLine] at ht
    simp only [hcons, List.cons_append, usingTarget, ht, Bool.false_eq_true, if_false, ih _ _ h.tail,
      List.length_cons, reduceCtorEq, textOf_cons, Text.size_append]
    by_cases hws : ws = []
    · simp [hws]
    · simp [hws, Nat.add_assoc]

theorem advanceBy_stop (start : Nat) (last? : Option Lexeme) (ls : List Lexeme) (h : Inline ws)
    (hne : ws ≠ []) :
    ∃ l, (Place.mk last? (lexemes start ws ++ ls)).advanceBy (lexemes start ws).length =
      ⟨some l, ls⟩ ∧ l.span.stop = start + Text.size (textOf ws) := by
  induction ws generalizing start last? with
  | nil => exact absurd rfl hne
  | cons w ws ih =>
    obtain ⟨t, -, hcons⟩ := h.lexemes_cons start
    by_cases hws : ws = []
    · subst hws
      refine ⟨⟨t, ⟨start, start + Text.size w.text⟩⟩, ?_, by simp⟩
      rw [hcons]
      rfl
    · obtain ⟨l, hl, hstop⟩ := ih (start + Text.size w.text)
        (some ⟨t, ⟨start, start + Text.size w.text⟩⟩) h.tail hws
      refine ⟨l, ?_, by rw [hstop, textOf_cons, Text.size_append, Nat.add_assoc]⟩
      rw [hcons]
      exact hl

end Inline

theorem Place.past_cons {q : Token → Bool} (h : q l.token = true) :
    (Place.mk last? (l :: ls)).past q = (Place.mk (some l) ls).past q := by
  simp only [past, List.takeWhile_cons, h, if_true, List.length_cons, advanceBy]
  rfl

theorem Place.past_cons_of_neg {q : Token → Bool} (h : q l.token = false) :
    (Place.mk last? (l :: ls)).past q = ⟨last?, l :: ls⟩ := by
  simp only [past, List.takeWhile_cons, h, Bool.false_eq_true, if_false, List.length_nil, advanceBy]

theorem lexemes_usingLine : lexemes start (usingLine ws) =
    ⟨.word "using", ⟨start, start + 5⟩⟩ :: ⟨.word "namespace", ⟨start + 6, start + 15⟩⟩ ::
      (lexemes (start + 16) ws ++
        [⟨.mark .semicolon, ⟨start + (16 + Text.size (textOf ws)),
            start + (16 + Text.size (textOf ws)) + 1⟩⟩,
          ⟨.newline, ⟨start + (16 + Text.size (textOf ws)) + 1,
            start + (16 + Text.size (textOf ws)) + 1 + 1⟩⟩]) := by
  rw [usingLine, lexemes_append, lexemes_append, textOf_append, Text.size_append]
  rfl

theorem Outcome.addAt {n : Node NodeId} {span : Span} {E : Failure → State → Prop}
    {Q : NodeId → State → Prop} {id : NodeId} {a : Arena}
    (h : s.arena.add n (some span) = .ok (id, a)) (hQ : Q id { s with arena := a }) :
    Outcome (Parser.addAt n span) i s E Q := by
  rw [Outcome, Lockstep.addAt_run, h]
  exact hQ

/-- A line that uses a name is read as a statement, with the terminators after it. -/
theorem listedUsing_eq {u v semicolon newline : Lexeme} {id : NodeId} {a : Arena}
    (h : Names name ws)
    (hrest : s.place.rest = u :: v :: (lexemes start ws ++ semicolon :: newline :: ls))
    (hu : u.token = .word "using") (hv : v.token = .word "namespace")
    (hsemicolon : semicolon.token = .mark .semicolon) (hnewline : newline.token = .newline)
    (hslice : Text.slice? i.text start (start + Text.size name.toList) = some name.toList)
    (hadd : s.arena.add (.usingStatement .namespaceName name)
      (some ⟨u.span.start, max (start + Text.size name.toList) u.span.start⟩) = .ok (id, a)) :
    listedUsing i s = .ok (some id)
      { s with place := (Place.mk (some newline) ls).past isTerminator, arena := a } := by
  obtain ⟨⟨last?, rest⟩, arena, depth, recovering, errors⟩ := s
  obtain ⟨u, uspan⟩ := u
  obtain ⟨v, vspan⟩ := v
  subst hrest hu hv
  have hinline : Inline ws := h.tokens
  obtain ⟨l, hl, hstop⟩ := hinline.advanceBy_stop start (some ⟨.word "namespace", vspan⟩)
    (semicolon :: newline :: ls) h.ne_nil
  have hstart : (Place.mk (some ⟨.word "namespace", vspan⟩)
      (lexemes start ws ++ semicolon :: newline :: ls)).start i.text = start := by
    obtain ⟨w, us, rfl⟩ := List.exists_cons_of_ne_nil h.ne_nil
    obtain ⟨t, -, ht⟩ := hinline.lexemes_cons start
    rw [ht]
    rfl
  have hends : endsLine semicolon.token = true := by
    rw [hsemicolon]
    rfl
  have htarget := hinline.usingTarget_eq start start (newline :: ls) hends
  rw [if_neg h.ne_nil, h.text] at htarget
  have hpos : start + Text.size name.toList ≠ start := by
    obtain ⟨c, cs, hc, -⟩ := h.start
    have := c.utf8Size_pos
    rw [← h.text, hc, Text.size_cons]
    omega
  apply Outcome.eq_ok
  rw [listedUsing, Outcome.start_bind, Outcome.atWord_bind]
  -- The two keywords stand there, so the reading goes on behind them.
  change Outcome (do
    let nameStart ← Parser.start
    let target := usingTarget nameStart (← place).rest
    advanceBy target.1
    if target.2 = nameStart then
      unexpected "using target name"
    else
      let name ← slice nameStart target.2
      let id ← add (.usingStatement .namespaceName name) uspan.start
      skipTerminators
      return some id) i ⟨⟨some ⟨.word "namespace", vspan⟩,
        lexemes start ws ++ semicolon :: newline :: ls⟩, arena, depth, recovering, errors⟩ _ _
  rw [Outcome.start_bind, Outcome.place_bind]
  simp only [hstart, htarget]
  rw [Outcome.advanceBy_bind, if_neg hpos]
  simp only [hl]
  refine Outcome.bind (P := fun n u => n = name ∧ u = _)
    (.slice hslice ⟨String.ofList_toList, rfl⟩) ?_
  rintro _ _ ⟨rfl, rfl⟩
  refine Outcome.bind (P := fun j u => j = id ∧ u = _) (.addAt (a := a) ?_ ⟨rfl, rfl⟩) ?_
  · change arena.add _ (some ⟨uspan.start, max l.span.stop uspan.start⟩) = _
    rw [hstop, h.text]
    exact hadd
  · rintro _ _ ⟨rfl, rfl⟩
    rw [Outcome.skipTerminators_bind]
    refine ⟨rfl, ?_⟩
    rw [Place.past_cons (by rw [hsemicolon]; rfl), Place.past_cons (by rw [hnewline]; rfl)]

/-- What `item` yields comes first. -/
theorem manyUpTo_succ {α : Type} {item : Parser (Option α)} {x : α} {t : State} {n : Nat}
    (h : item i s = .ok (some x) t) : manyUpTo item (n + 1) i s = match manyUpTo item n i t with
      | .ok xs u => .ok (x :: xs) u
      | .error e u => .error e u := by
  rw [manyUpTo, Lockstep.bind_run, h]
  dsimp only
  rw [Lockstep.bind_run]
  cases manyUpTo item n i t <;> rfl

/-- The lines in front are read one by one, and then what follows them. -/
theorem manyUpTo_lines {names : List String} {vs : List Chunk} {done after : List Char}
    {a : Arena} (h : Lines names vs) (htext : i.text = done ++ textOf vs ++ after)
    (hroom : a.nextId + names.length ≤ Arena.idLimit) (hpos : 0 < a.nextId) :
    ∃ newline? b, (names = [] → newline? = last?) ∧
      (names ≠ [] → ∃ l, newline? = some l ∧ l.token = .newline ∧
        l.span.stop = Text.size (done ++ textOf vs)) ∧
      a.Appends b (names.map (.usingStatement .namespaceName)) ∧
      ∀ n, manyUpTo listedUsing (n + names.length) i { s with
          place := (Place.mk last? (lexemes (Text.size done) vs ++ ls)).past isTerminator
          arena := a } =
        match manyUpTo listedUsing n i { s with
            place := (Place.mk newline? ls).past isTerminator
            arena := b } with
        | .ok us t => .ok (List.range' a.nextId names.length ++ us) t
        | .error e t => .error e t := by
  induction h generalizing done last? a with
  | nil =>
    refine ⟨last?, a, fun _ => rfl, fun hne => absurd rfl hne, .refl a, fun n => ?_⟩
    simp only [lexemes_nil, List.nil_append, List.length_nil, Nat.add_zero, List.range'_zero]
    cases manyUpTo listedUsing n i _ <;> rfl
  | @cons name names ws vs hws hvs ih =>
    simp only [List.length_cons] at hroom
    have hfree : a.nextId ≠ Arena.idLimit := by omega
    let line : List Char := done ++ textOf (usingLine ws)
    let lineEnd : Lexeme := ⟨.newline, ⟨Text.size done + (16 + Text.size (textOf ws)) + 1,
      Text.size done + (16 + Text.size (textOf ws)) + 1 + 1⟩⟩
    have hline : Text.size line = Text.size done + (16 + Text.size (textOf ws)) + 1 + 1 := by
      rw [Text.size_append, size_usingLine hws, hws.text]
      omega
    have hadd := Arena.exists_add hpos hfree (.usingStatement .namespaceName name)
      (some ⟨Text.size done, max (Text.size done + 16 + Text.size name.toList) (Text.size done)⟩)
    obtain ⟨newline?, b, hnil, hcons, happends, hrun⟩ := @ih (some lineEnd) line _
      (by simp [htext, line])
      (by rw [Arena.add_nextId hadd]; omega) (by rw [Arena.add_nextId hadd]; omega)
    refine ⟨newline?, b, fun hne => absurd hne (List.cons_ne_nil _ _), fun _ => ?_,
      .cons hadd happends, fun n => ?_⟩
    · rcases names with _ | ⟨second, names⟩
      · cases hvs
        refine ⟨lineEnd, hnil rfl, rfl, ?_⟩
        rw [List.append_nil, hline]
      · obtain ⟨l, hl, htoken, hstop⟩ := hcons (List.cons_ne_nil _ _)
        refine ⟨l, hl, htoken, ?_⟩
        rw [hstop, textOf_append, List.append_assoc]
    · have hrest : lexemes (Text.size done) (usingLine ws ++ vs) ++ ls =
          ⟨.word "using", ⟨Text.size done, Text.size done + 5⟩⟩ ::
          ⟨.word "namespace", ⟨Text.size done + 6, Text.size done + 15⟩⟩ ::
          (lexemes (Text.size done + 16) ws ++
            ⟨.mark .semicolon, ⟨Text.size done + (16 + Text.size (textOf ws)),
              Text.size done + (16 + Text.size (textOf ws)) + 1⟩⟩ ::
            lineEnd ::
            (lexemes (Text.size line) vs ++ ls)) := by
        rw [lexemes_append, lexemes_usingLine, ← Text.size_append]
        simp [line, lineEnd]
      have hslice : Text.slice? i.text (Text.size done + 16)
          (Text.size done + 16 + Text.size name.toList) = some name.toList := by
        have hsplit : i.text = (done ++ "using namespace ".toList) ++ name.toList ++
            (";\n".toList ++ textOf vs ++ after) := by
          rw [htext, ← hws.text]
          simp [usingLine, word, mark, blank, newline, Mark.text]
        have hslice := Text.slice?_append (done ++ "using namespace ".toList) name.toList
          (";\n".toList ++ textOf vs ++ after)
        rw [Text.size_append, ← hsplit] at hslice
        exact hslice
      rw [hrest, Place.past_cons_of_neg rfl, List.length_cons, ← Nat.add_assoc]
      rw [manyUpTo_succ (listedUsing_eq hws rfl rfl rfl rfl rfl hslice hadd)]
      dsimp only
      rw [hrun n, Arena.add_nextId hadd]
      cases manyUpTo listedUsing n i _ <;> rfl

end Grammar

end ScriptInject
