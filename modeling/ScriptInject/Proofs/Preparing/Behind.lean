import ScriptInject.Proofs.Preparing.Sections
/-! Reading a script behind lines of their own, step by step with reading it alone. -/
namespace ScriptInject

/-- The second arena has a script with the nodes `ns` for its first lines. What is below the script
of the first arena follows, `o` bytes further on. -/
structure Arena.Behind (o : Nat) (ns : List (Node NodeId)) (a b : Arena) (root root' : Nat) :
    Prop where
  script : ∃ usings params blocks, a.get? root = some (.scriptBlock usings params blocks) ∧
    b.get? root' = some (.scriptBlock
      (List.range' 1 ns.length ++ usings.map (NodeId.shift ns.length))
      (params.map (NodeId.shift ns.length)) (blocks.map (NodeId.shift ns.length)))
  first : ∀ j < ns.length, b.get? (j + 1) = ns[j]?
  get?_shift : ∀ i < root, b.get? (NodeId.shift ns.length i) =
    (a.get? i).map (Node.map (NodeId.shift ns.length))
  span?_shift : ∀ i < root, b.span? (NodeId.shift ns.length i) = (a.span? i).map (Span.shift o)

namespace Grammar
open Chunk Grammar.Parser

variable {i : Input} {s t : State} {names : List String} {vs : List Chunk} {ls : List Lexeme}

/-- The same text behind lines of their own, for which the arena has the nodes `ns`. -/
def Alignment.behind (i : Input) (before : List Char) (last? : Option Lexeme)
    (ns : List (Node NodeId)) (hstop : Place.stop ⟨last?, []⟩ = Text.size before)
    (hline : ∀ l ∈ last?, l.token = .newline) : Alignment where
  input := i
  before := before
  last? := last?
  ids := ns.length
  Arenas := Arena.Prepends (Text.size before) ns
  stop_eq := hstop
  newline := hline
  get?_eq h := h.get?_shift
  span?_eq h := h.span?_shift
  add_ok h := h.add
  add_error h := h.add_error

theorem add_run (n : Node NodeId) (start : Nat) (i : Input) (s : State) :
    Parser.add n start i s = match s.arena.add n (some ⟨start, max s.place.stop start⟩) with
      | .ok (id, a) => .ok id { s with arena := a }
      | .error e => .error (.refused (.arena e)) s := Lockstep.addAt_run _ _ _ _

/-- The lines in front are part of the sections. -/
theorem sections_lines {g : Nested} {after : List Char} (h : Lines names vs)
    (htext : i.text = textOf vs ++ after) (hroom : 1 + names.length ≤ Arena.idLimit) :
    ∃ newline? b, Place.stop ⟨newline?, []⟩ = Text.size (textOf vs) ∧
      (∀ l ∈ newline?, l.token = .newline) ∧
      Arena.Appends {} b (names.map (.usingStatement .namespaceName)) ∧
      ∀ n, sections g (n + names.length) i
          { place := (Place.mk none (lexemes 0 vs ++ ls)).past isTerminator } =
        match sections g n i
            { place := (Place.mk newline? ls).past isTerminator, arena := b } with
        | .ok (usings, params, blocks) t =>
          .ok (List.range' 1 names.length ++ usings, params, blocks) t
        | .error e t => .error e t := by
  obtain ⟨newline?, b, hnil, hcons, happends, hrun⟩ := @manyUpTo_lines i
    { place := (Place.mk none (lexemes 0 vs ++ ls)).past isTerminator } ls none names vs [] after
    {} h htext hroom Nat.one_pos
  refine ⟨newline?, b, ?_, ?_, happends, fun n => ?_⟩
  · cases names with
    | nil =>
      cases h
      rw [hnil rfl]
      rfl
    | cons name names =>
      obtain ⟨l, rfl, -, hstop⟩ := hcons (List.cons_ne_nil _ _)
      exact hstop
  · cases names with
    | nil =>
      rw [hnil rfl]
      nofun
    | cons name names =>
      obtain ⟨l, rfl, htoken, -⟩ := hcons (List.cons_ne_nil _ _)
      rintro _ ⟨⟩
      exact htoken
  · rw [sections, Lockstep.bind_run, sections, Lockstep.bind_run]
    have hrun := hrun n
    simp only [Text.size_nil] at hrun
    rw [hrun]
    cases manyUpTo listedUsing n i _ with
    | error e t => rfl
    | ok us t =>
      simp only [Lockstep.bind_run]
      cases paramBlock? g i t with
      | error e t => rfl
      | ok params t =>
        dsimp only
        cases skipTerminators i t with
        | error e t => rfl
        | ok _ t =>
          dsimp only
          cases blocks g .endOfText i t <;> rfl

theorem onward_script (i : Input) (s : State) : Onward s (final (script i s)) :=
  (Lockstep.scriptBlock (P := Any ())
    (paired_nested (σ := .behind i [] none [] rfl nofun) i.maxDepth)).onward s

/-- Behind the lines, a script is read like the text after them, and the lines are held with it. -/
theorem script_lines {after : List Char} (h : Lines names vs) (htext : i.text = textOf vs ++ after)
    (hroom : 1 + names.length ≤ Arena.idLimit) :
    ∃ newline? b, Place.stop ⟨newline?, []⟩ = Text.size (textOf vs) ∧
      (∀ l ∈ newline?, l.token = .newline) ∧
      Arena.Appends {} b (names.map (.usingStatement .namespaceName)) ∧
      ∀ n, (lexemes 0 vs ++ ls).length < n →
        script i { place := { rest := lexemes 0 vs ++ ls } } =
          held (List.range' 1 names.length) (Place.start ⟨none, lexemes 0 vs ++ ls⟩ i.text) i
            (sections (nested i.maxDepth) n i
              { place := (Place.mk newline? ls).past isTerminator, arena := b }) := by
  obtain ⟨newline?, b, hstop, hnewline, happends, hlines⟩ :=
    @sections_lines i names vs ls (nested i.maxDepth) after h htext hroom
  refine ⟨newline?, b, hstop, hnewline, happends, fun n hn => ?_⟩
  rw [script_eq (Nat.lt_add_right names.length hn), hlines n]
  cases sections (nested i.maxDepth) n i _ <;> rfl

/-- The sections of a text are read alike alone and behind the lines. -/
theorem sections_behind {σ : Alignment} {n maxDepth : Nat} {place : Place} {b : Arena}
    (harenas : σ.Arenas {} b)
    (hroom : (final (sections (nested maxDepth) n σ.input
      { place := place.past isTerminator })).arena.nextId + σ.ids ≤ Arena.idLimit) :
    Matches σ (fun r => (r.1.map σ.id, r.2.1.map σ.id, r.2.2.map σ.id)) Any
      (sections (nested maxDepth) n σ.input { place := place.past isTerminator })
      (sections (nested maxDepth) n σ.shifted
        { place := (σ.place place).past isTerminator, arena := b }) := by
  have halike : σ.Alike { place := place.past isTerminator }
      { place := (σ.place place).past isTerminator, arena := b } :=
    { place := Place.past_place _ _
      arena := harenas
      depth := rfl
      strict := rfl
      spanned := Arena.spanned_empty }
  have hsections := Lockstep.sections (P := Any ()) (paired_nested (σ := σ) maxDepth) n
  have honward := hsections.onward { place := place.past isTerminator }
  exact (hsections.follows halike trivial (.inl hroom)).same (honward.strict rfl)

/-- The node that holds the sections together is added in both arenas, or in neither. -/
theorem add_behind {o start start' : Nat} {ns : List (Node NodeId)} {i' : Input} {u : State}
    {usings blocks : List NodeId} {params : Option NodeId}
    (h : Arena.Prepends o ns t.arena u.arena)
    (hroom : (final (add (.scriptBlock usings params blocks) start i t)).arena.nextId + ns.length ≤
      Arena.idLimit) :
    let n := .scriptBlock (List.range' 1 ns.length ++ usings.map (NodeId.shift ns.length))
      (params.map (NodeId.shift ns.length)) (blocks.map (NodeId.shift ns.length))
    match add (.scriptBlock usings params blocks) start i t with
    | .error e _ => add n start' i' u = .error (e.shift o) u
    | .ok root v => ∃ root' w, add n start' i' u = .ok root' w ∧
        Arena.Behind o ns v.arena w.arena root root' := by
  intro n
  rw [add_run] at hroom ⊢
  rw [add_run]
  cases hadd : t.arena.add (.scriptBlock usings params blocks)
      (some ⟨start, max t.place.stop start⟩) with
  | error e =>
    rw [hadd] at hroom
    have hadd' := @Arena.Prepends.add_error _ _ _ _ _ _ n
      (some ⟨start', max u.place.stop start'⟩) _ h (.inl hroom) hadd
    dsimp only
    rw [hadd']
    rfl
  | ok r =>
    obtain ⟨root, c⟩ := r
    rw [hadd] at hroom
    change c.nextId + ns.length ≤ Arena.idLimit at hroom
    have hnext := h.nextId
    have hpos := h.positive
    have hid := Arena.add_id hadd
    have hc := Arena.add_nextId hadd
    have hadd' := @Arena.exists_add u.arena (by omega) (by omega) n
      (some ⟨start', max u.place.stop start'⟩)
    have hne {i : Nat} (hi : i < root) : NodeId.shift ns.length i ≠ u.arena.nextId := by
      rw [hnext, ← hid]
      exact Arena.shift_ne (by omega) (Nat.ne_of_lt hi)
    dsimp only
    rw [hadd']
    refine ⟨_, _, rfl, ⟨usings, params, blocks, Arena.add_get? hadd, Arena.add_get? hadd'⟩, ?_, ?_,
      ?_⟩
    · intro j hj
      exact (Arena.add_get?_of_ne hadd' (by omega)).trans (h.first j hj)
    · intro i hi
      refine (Arena.add_get?_of_ne hadd' (hne hi)).trans ?_
      rw [Arena.add_get?_of_ne hadd (Nat.ne_of_lt hi)]
      exact h.get?_shift i
    · intro i hi
      refine (Arena.add_span?_of_ne hadd' (hne hi)).trans ?_
      rw [Arena.add_span?_of_ne hadd (Nat.ne_of_lt hi)]
      exact h.span?_shift i

/-- Sections that are alike are held together alike, the lines before those of the text. -/
theorem held_behind {o start start' : Nat} {before : List Char} {newline? : Option Lexeme}
    {ns : List (Node NodeId)} {hstop : Place.stop ⟨newline?, []⟩ = Text.size before}
    {hnewline : ∀ l ∈ newline?, l.token = .newline} {i' : Input}
    {r r' : EStateM.Result Failure State (List NodeId × Option NodeId × List NodeId)}
    (ho : o = Text.size before)
    (h : Matches (.behind i before newline? ns hstop hnewline) (fun r =>
      (r.1.map (NodeId.shift ns.length), r.2.1.map (NodeId.shift ns.length),
        r.2.2.map (NodeId.shift ns.length))) Any r r')
    (hroom : (final (held [] start i r)).arena.nextId + ns.length ≤ Arena.idLimit) :
    match held [] start i r with
    | .error e _ => ∃ u, held (List.range' 1 ns.length) start' i' r' = .error (e.shift o) u
    | .ok root t => ∃ root' u, held (List.range' 1 ns.length) start' i' r' = .ok root' u ∧
        Arena.Behind o ns t.arena u.arena root root' := by
  subst ho
  cases h with
  | error _ => exact ⟨_, rfl⟩
  | @ok r _ t u hr ht _ =>
    obtain ⟨usings, params, blocks⟩ := r
    subst hr
    have hbehind := @add_behind i t _ start start' _ i' u _ _ _ ht.arena hroom
    dsimp only [held, List.nil_append] at hbehind ⊢
    cases hadd : add (.scriptBlock usings params blocks) start i t with
    | error e v =>
      rw [hadd] at hbehind
      exact ⟨u, hbehind⟩
    | ok root v =>
      rw [hadd] at hbehind
      exact hbehind

/-- Alone or behind the lines, a script is read with the same steps. -/
theorem script_behind {text : List Char} {maxDepth : Nat} (h : Lines names vs)
    (hroom : (final (script ⟨text, maxDepth⟩ { place := { rest := ls } })).arena.nextId +
      names.length ≤ Arena.idLimit) :
    match script ⟨text, maxDepth⟩ { place := { rest := ls } } with
    | .error e _ => ∃ u, script ⟨textOf vs ++ text, maxDepth⟩
        { place := { rest := lexemes 0 vs ++ ls.map (Lexeme.shift (Text.size (textOf vs))) } } =
          .error (e.shift (Text.size (textOf vs))) u
    | .ok root t => ∃ root' u, script ⟨textOf vs ++ text, maxDepth⟩
        { place := { rest := lexemes 0 vs ++ ls.map (Lexeme.shift (Text.size (textOf vs))) } } =
          .ok root' u ∧
        Arena.Behind (Text.size (textOf vs)) (names.map (.usingStatement .namespaceName))
          t.arena u.arena root root' := by
  let i' : Input := ⟨textOf vs ++ text, maxDepth⟩
  let place' : Place :=
    { rest := lexemes 0 vs ++ ls.map (Lexeme.shift (Text.size (textOf vs))) }
  let ns : List (Node NodeId) := names.map (.usingStatement .namespaceName)
  let n := place'.rest.length + ls.length + 1
  have hns : ns.length = names.length := List.length_map _
  have hfirst := (onward_script ⟨text, maxDepth⟩ { place := { rest := ls } }).nextId_le
  obtain ⟨newline?, b, hstop, hnewline, happends, hlines⟩ := @script_lines i' names vs
    (ls.map (Lexeme.shift (Text.size (textOf vs)))) text h rfl
    (Nat.le_trans (Nat.add_le_add_right hfirst _) hroom)
  have hscript := @script_eq ⟨text, maxDepth⟩ { place := { rest := ls } } n
    (by simp only [n]; omega)
  have hscript' := hlines n (by simp only [n, place']; omega)
  rw [← hns] at hroom hscript'
  rw [hscript] at hroom ⊢
  rw [hscript']
  let σ := Alignment.behind ⟨text, maxDepth⟩ (textOf vs) newline? ns hstop hnewline
  have hsections := @sections_behind σ n maxDepth { rest := ls } b (happends.prepends _)
    (Nat.le_trans (Nat.add_le_add_right (nextId_le_held _ _ _ _) _) hroom)
  exact held_behind rfl hsections hroom

end Grammar

end ScriptInject
