import ScriptInject.Proofs.Preparing.Behind
import ScriptInject.Proofs.Reading.Script
import ScriptInject.Proofs.Telling
/-! Preparing a text for compiling. The lines that it gets in front change nothing about it but where
it stands. -/
namespace ScriptInject

namespace Arena

variable {a b : Arena} {o root root' : Nat} {ns : List (Node NodeId)} {x : Tree NodeId}

/-- The tree below the lines' script, with its spans. -/
theorem Behind.holds (h : Behind o ns a b root root') (ha : a.Tidy) (hx : a.Holds x)
    (hlt : x.label < root) : b.Holds (x.map (NodeId.shift ns.length)) ∧
      (x.map (NodeId.shift ns.length)).map b.span? =
        (x.map a.span?).map (Option.map (Span.shift o)) := by
  induction x using Tree.induct with
  | h label n ih =>
    have hget := h.get?_shift label hlt
    rw [show a.get? label = some (n.map Tree.label) from hx.get?] at hget
    have hbelow (c : Tree NodeId) (hc : c ∈ n.children) :=
      ih c hc (hx.child hc) (Nat.lt_trans (hx.child_lt ha hc) hlt)
    simp only [Tree.map_mk]
    constructor
    · refine .mk ?_ fun c hc => ?_
      · rw [hget, Option.map_some, Node.map_map, Node.map_map]
        congr 2
        funext c
        exact (Tree.label_map _ c).symm
      · rw [Node.children_map] at hc
        obtain ⟨d, hd, rfl⟩ := List.mem_map.mp hc
        exact (hbelow d hd).1
    · rw [h.span?_shift label hlt, Node.map_map, Node.map_map]
      congr 1
      exact Node.map_congr fun c hc => (hbelow c hc).2

theorem scriptBlock_of_map {n : Node (Tree NodeId)} {usings blocks : List NodeId}
    {params : Option NodeId} (h : n.map Tree.label = .scriptBlock usings params blocks) :
    ∃ us p bs, n = .scriptBlock us p bs := by
  cases n with
  | scriptBlock us p bs => exact ⟨us, p, bs, rfl⟩
  | _ => exact absurd h nofun

/-- The trees of the lines in front. -/
def lineTrees (names : List String) : List (Tree NodeId) :=
  names.mapIdx fun j name => .mk (j + 1) (.usingStatement .namespaceName name)

theorem label_lineTrees (names : List String) :
    (lineTrees names).map Tree.label = List.range' 1 names.length := by
  apply List.ext_getElem <;> simp [lineTrees, Nat.add_comm]

theorem node_lineTrees (names : List String) (f : NodeId → Option Span) :
    ((lineTrees names).map (Tree.map f)).map Tree.node =
      names.map (.usingStatement .namespaceName) := by
  apply List.ext_getElem <;> simp [lineTrees, Node.map]

theorem holds_lineTrees {names : List String} (h : ∀ j < names.length, b.get? (j + 1) =
    (names.map (Node.usingStatement UsingKind.namespaceName))[j]?) :
    ∀ t ∈ lineTrees names, b.Holds t := by
  intro t ht
  obtain ⟨j, hj, rfl⟩ := List.mem_mapIdx.mp ht
  refine .mk ?_ nofun
  rw [h j hj, List.getElem?_map, List.getElem?_eq_getElem hj]
  rfl

/-- Both scripts as trees. -/
theorem Behind.unfolds {names : List String}
    (h : Behind o (names.map (.usingStatement .namespaceName)) a b root root') (ha : a.Tidy)
    (hx : a.Holds x) (hxr : x.label = root) (hroot : a.root? = some root)
    (hroot' : b.root? = some root') :
    ∃ span span' lines usings params blocks,
      a.Unfolds (.mk span (.scriptBlock usings params blocks)) ∧
      b.Unfolds (.mk span' (.scriptBlock (lines ++ usings.map (Tree.map (Option.map (Span.shift o))))
        (params.map (Tree.map (Option.map (Span.shift o))))
        (blocks.map (Tree.map (Option.map (Span.shift o)))))) ∧
      lines.map Tree.node = names.map (.usingStatement .namespaceName) := by
  obtain ⟨us, p, bs, ha', hb'⟩ := h.script
  obtain ⟨_, n⟩ := x
  obtain rfl := hxr
  have hn := Option.some.inj (hx.get?.symm.trans ha')
  obtain ⟨usings, params, blocks, rfl⟩ := scriptBlock_of_map hn
  injection hn with hus hp hbs
  have hbelow (c : Tree NodeId)
      (hc : c ∈ (Node.scriptBlock usings params blocks).children) :=
    h.holds ha (hx.child hc) (hx.child_lt ha hc)
  have hk : (names.map (Node.usingStatement (α := NodeId) .namespaceName)).length =
      names.length := List.length_map _
  have hfirst := h.first
  rw [hk] at hbelow hb' hfirst
  refine ⟨a.span? _, b.span? root', (lineTrees names).map (Tree.map b.span?),
    usings.map (Tree.map a.span?), params.map (Tree.map a.span?), blocks.map (Tree.map a.span?),
    ⟨_, hroot, hx, by rw [Tree.map_mk]; rfl⟩, ⟨.mk root' (.scriptBlock
      (lineTrees names ++ usings.map (Tree.map (NodeId.shift names.length)))
      (params.map (Tree.map (NodeId.shift names.length)))
      (blocks.map (Tree.map (NodeId.shift names.length)))), hroot', .mk ?_ fun t ht => ?_, ?_⟩,
    node_lineTrees _ _⟩
  · rw [hb', ← hus, ← hp, ← hbs]
    simp [Node.map, label_lineTrees, Function.comp_def]
  · have hchildren : t ∈ lineTrees names ++
        ((Node.scriptBlock usings params blocks).map (Tree.map (NodeId.shift names.length))).children := by
      simpa [Node.children, Node.map] using ht
    rcases List.mem_append.mp hchildren with hline | hlater
    · exact holds_lineTrees hfirst t hline
    · rw [Node.children_map] at hlater
      obtain ⟨c, hc, rfl⟩ := List.mem_map.mp hlater
      exact (hbelow c hc).1
  · have hspans := Node.map_congr fun c hc => (hbelow c hc).2
    injection hspans with husings hparams hblocks
    simp only [Tree.map_mk, Node.map, List.map_append, List.map_map, Option.map_map,
      Function.comp_def] at husings hparams hblocks ⊢
    rw [husings, hparams, hblocks]

end Arena

namespace Script
open Grammar

variable {source : String} {namespaces : List String} {a : Arena}

/-- The id that a reading of the text would give out next, whether it succeeds or not. -/
def nextIdAfter (source : String) : Nat :=
  match Lexeme.ofText? source.toList with
  | .error _ => 1
  | .ok lexemes => (final (script ⟨source.toList, defaultMaxDepth⟩
      { place := { rest := lexemes } })).arena.nextId

theorem exists_preparedLines (h : ∀ name ∈ namespaces, IsDottedName name) (source : String) :
    ∃ vs, Chunk.Lines namespaces vs ∧
      (prepare source namespaces).toList = Chunk.textOf vs ++ source.toList ∧
      preparedSize source namespaces = Text.size (Chunk.textOf vs) := by
  obtain ⟨vs, hvs⟩ := Chunk.exists_lines h
  have htext : (prepare source namespaces).toList = Chunk.textOf vs ++ source.toList := by
    rw [prepare, String.toList_append, hvs.textOf_eq]
  refine ⟨vs, hvs, htext, ?_⟩
  rw [preparedSize, htext, Text.size_append, Nat.add_sub_cancel]

/-- The lines in front do not change what the text is read as, or why it is refused. -/
theorem parse_prepare_arenas (hnames : ∀ name ∈ namespaces, IsDottedName name)
    (hroom : nextIdAfter source + namespaces.length ≤ Arena.idLimit) :
    match parse source with
    | .error f => parse (prepare source namespaces) =
        .error (f.shift (preparedSize source namespaces))
    | .ok a => ∃ b root root', parse (prepare source namespaces) = .ok b ∧ a.root? = some root ∧
        b.root? = some root' ∧ Arena.Behind (preparedSize source namespaces)
          (namespaces.map (.usingStatement .namespaceName)) a b root root' := by
  obtain ⟨vs, hvs, htext, hsize⟩ := exists_preparedLines hnames source
  have hlexemes := Lexeme.ofText?_append (hvs.clean source.toList)
  rw [hsize]
  simp only [parse, parseWithin, htext, hlexemes, nextIdAfter] at hroom ⊢
  cases hl : Lexeme.ofText? source.toList with
  | error e => rfl
  | ok lexemes =>
    rw [hl] at hroom
    have hscript := script_behind hvs hroom
    simp only [Lexeme.shiftRead, Except.map]
    generalize script _ { place := { rest := lexemes } } = r at hscript ⊢
    cases r with
    | error e t =>
      obtain ⟨u, hu⟩ := hscript
      simp only [hu]
    | ok root t =>
      obtain ⟨root', u, hu, hbehind⟩ := hscript
      simp only [hu]
      exact ⟨_, root, root', rfl, rfl, rfl, hbehind.script, hbehind.first, hbehind.get?_shift,
        hbehind.span?_shift⟩

/-- Where the lines in front do not change why a text is refused, compiling tells what reading the
text alone does. -/
theorem compile_eq_parse_iff_of_prepare {c : Compiler}
    (h : match parse source with
      | .error f => parse (prepare source c.config.namespaces) =
          .error (f.shift (preparedSize source c.config.namespaces))
      | .ok _ => ∃ b, parse (prepare source c.config.namespaces) = .ok b) (e : ParseError) :
    (c.compile source).1 = .error (.errors [.parse e]) ↔ parse source = .error (.refused e) := by
  rw [Compiler.compile_eq_parse_iff]
  cases hp : parse source with
  | ok a =>
    rw [hp] at h
    obtain ⟨b, hb⟩ := h
    rw [hb]
    exact ⟨fun ⟨_, hd, _⟩ => absurd hd nofun, nofun⟩
  | error f =>
    rw [hp] at h
    rw [h]
    cases f with
    | refused d =>
      simp only [Failure.shift, Except.error.injEq, Failure.refused.injEq, exists_eq_left',
        ParseError.shiftBack_shift]
    | cut => exact ⟨fun ⟨_, hd, _⟩ => absurd hd nofun, nofun⟩
    | stalled => exact ⟨fun ⟨_, hd, _⟩ => absurd hd nofun, nofun⟩

/-- The lines in front of a text change nothing about how it is read. A text that is no script is
refused for the same reason, further on by the size of the lines, so that compiling tells just what
reading the text alone would tell. A script has the same tree, except that the lines come before its
own `using` lines, and everything below the root stands further on. -/
theorem parse_prepare (hnames : ∀ name ∈ namespaces, IsDottedName name)
    (hroom : nextIdAfter source + namespaces.length ≤ Arena.idLimit) :
    let n := preparedSize source namespaces
    let later : Tree (Option Span) → Tree (Option Span) := Tree.map (Option.map (Span.shift n))
    (∀ f, parse source = .error f → parse (prepare source namespaces) = .error (f.shift n)) ∧
    (∀ a, parse source = .ok a → ∃ b span span' lines usings params blocks,
      parse (prepare source namespaces) = .ok b ∧
      a.Unfolds (.mk span (.scriptBlock usings params blocks)) ∧
      b.Unfolds (.mk span' (.scriptBlock (lines ++ usings.map later) (params.map later)
        (blocks.map later))) ∧
      lines.map Tree.node = namespaces.map (.usingStatement .namespaceName)) ∧
    ∀ c : Compiler, c.config.namespaces = namespaces → ∀ e,
      (c.compile source).1 = .error (.errors [.parse e]) ↔ parse source = .error (.refused e) := by
  intro n later
  have harenas := parse_prepare_arenas hnames hroom
  refine ⟨fun f hf => ?_, fun a ha => ?_, ?_⟩
  · rw [hf] at harenas
    exact harenas
  · rw [ha] at harenas
    obtain ⟨b, root, root', hb, hroot, hroot', hbehind⟩ := harenas
    obtain ⟨t, ht⟩ := reads_of_parseWithin ha
    obtain ⟨span, span', lines, usings, params, blocks, hunfolds⟩ :=
      hbehind.unfolds ht.tidy ht.holds (Option.some.inj (ht.root.symm.trans hroot)) hroot hroot'
    exact ⟨b, span, span', lines, usings, params, blocks, hb, hunfolds⟩
  · rintro c rfl e
    refine compile_eq_parse_iff_of_prepare ?_ e
    cases hp : parse source with
    | error f =>
      rw [hp] at harenas
      exact harenas
    | ok a =>
      rw [hp] at harenas
      obtain ⟨b, -, -, hb, -⟩ := harenas
      exact ⟨b, hb⟩

theorem isDottedName_example : ∀ name ∈ ["System.Text", "Tools"], IsDottedName name := by
  intro name hname
  rcases List.mem_cons.mp hname with rfl | hname
  · refine ⟨["System", "Text"], List.cons_ne_nil _ _, rfl, ?_⟩
    intro w hw
    rcases List.mem_cons.mp hw with rfl | hw
    · exact Token.occurs_word rfl rfl (List.all_eq_true.mp (by decide))
    · rw [List.mem_singleton.mp hw]
      exact Token.occurs_word rfl rfl (List.all_eq_true.mp (by decide))
  · rw [List.mem_singleton.mp hname]
    exact ⟨["Tools"], List.cons_ne_nil _ _, rfl, fun w hw => List.mem_singleton.mp hw ▸
      Token.occurs_word rfl rfl (List.all_eq_true.mp (by decide))⟩

/-- A script behind two lines. -/
theorem parse_prepare_twoLines :
    nextIdAfter "$a = 1" + ["System.Text", "Tools"].length ≤ Arena.idLimit ∧
      ∃ a b span span' lines usings params blocks, parse "$a = 1" = .ok a ∧
        parse (prepare "$a = 1" ["System.Text", "Tools"]) = .ok b ∧
        a.Unfolds (.mk span (.scriptBlock usings params blocks)) ∧
        b.Unfolds (.mk span' (.scriptBlock
          (lines ++ usings.map (Tree.map (Option.map (Span.shift 52))))
          (params.map (Tree.map (Option.map (Span.shift 52))))
          (blocks.map (Tree.map (Option.map (Span.shift 52)))))) ∧
        lines.map Tree.node = ["System.Text", "Tools"].map (.usingStatement .namespaceName) := by
  have hroom : nextIdAfter "$a = 1" + ["System.Text", "Tools"].length ≤ Arena.idLimit := by
    decide +kernel
  have hok : (parse "$a = 1").isOk = true := by decide +kernel
  have hsize : preparedSize "$a = 1" ["System.Text", "Tools"] = 52 := by decide +kernel
  refine ⟨hroom, ?_⟩
  cases ha : parse "$a = 1" with
  | error f =>
    rw [ha] at hok
    exact absurd hok nofun
  | ok a =>
    have h := (@parse_prepare "$a = 1" ["System.Text", "Tools"] isDottedName_example hroom).2.1 a ha
    rw [hsize] at h
    obtain ⟨b, span, span', lines, usings, params, blocks, h⟩ := h
    exact ⟨a, b, span, span', lines, usings, params, blocks, rfl, h⟩

end Script

end ScriptInject
