import ScriptInject.Proofs.Reading.Command
/-! The lists of statements and the blocks that are read. -/
namespace ScriptInject.Grammar
open Grammar.Parser ScriptInject.Tree

variable {i : Input} {s t u : State} {ts us : List (Tree NodeId)} {x : Tree NodeId}
  {token : Token} {p q : Place} {g : Nested} {closer : Closer} {start : Nat}

theorem Made.orElseKeep {α : Type} {r other : Parser α} {P : α → State → Prop}
    (hr : Outcome r i t (Lost s) P) : Outcome (Grammar.orElseKeep r other) i t (Lost s) P := by
  rw [Outcome] at hr
  rw [Outcome, Grammar.orElseKeep]
  cases hrun : r i t with
  | ok a u =>
    rw [hrun] at hr
    exact hr
  | error f u =>
    rw [hrun] at hr
    cases f with
    | refused e =>
      have hstrict : u.recovering = false := hr.strict
      simpa [hstrict] using hr
    | cut => exact hr
    | stalled => exact hr

/-- No terminator stands at the place. -/
def Settled (p : Place) : Prop := ∀ token, p.current? = some token → isTerminator token = false

theorem settled_past (p : Place) : Settled (p.past isTerminator) := by
  have hall (n : Nat) (ls : List Lexeme) (l? : Option Lexeme)
      (hn : n = (ls.takeWhile fun l => isTerminator l.token).length) :
      ((Place.mk l? ls).advanceBy n).rest = ls.dropWhile fun l => isTerminator l.token := by
    induction ls generalizing n l? with
    | nil => simp [hn, Place.advanceBy]
    | cons l ls ih =>
      cases hl : isTerminator l.token with
      | true =>
        obtain ⟨m, rfl⟩ : ∃ m, n = m + 1 := ⟨_, by simpa [hl] using hn⟩
        simp only [Place.advanceBy, Place.advance, List.dropWhile_cons, hl, if_true]
        exact ih m _ (by simpa [hl] using hn)
      | false =>
        have hzero : n = 0 := by simpa [hl] using hn
        simp [hzero, Place.advanceBy, hl]
  intro token ht
  have hrest : (p.past isTerminator).rest = p.rest.dropWhile fun l => isTerminator l.token :=
    hall _ p.rest p.last? rfl
  rw [Place.current?, hrest] at ht
  obtain ⟨l, hl, rfl⟩ := Option.map_eq_some_iff.mp ht
  have := List.head?_dropWhile_not (fun l : Lexeme => isTerminator l.token) p.rest
  rw [hl] at this
  simpa using this

theorem Settled.past_eq (h : Settled p) : p.past isTerminator = p := Place.past_eq h

theorem isTrap_label {a : Arena} (h : a.Holds x) : Grammar.isTrap a x.label = x.isTrap := by
  rw [Grammar.isTrap, h.get?, Tree.isTrap]
  cases x.node <;> rfl

theorem isBareWord_word {word : String} (h : (Token.word word).Occurs) :
    IsBareWord (.word word) word :=
  ⟨_, [], Place.clean_word h, by simp, rfl, nofun⟩

/-- A call of a keyword stands at the keyword, and what stands next begins its argument. -/
theorem Opens.keyword {name y : Tree NodeId} {others : List (Tree NodeId)} {keyword : String}
    (h : Opens p x) (hcall : x.call? = some (name, y :: others))
    (hk : name.isKeyword keyword = true) (hne : keyword ≠ "")
    (hlow : keyword.toList.all Char.isLower = true) :
    ∃ v next, p.current? = some (.word v) ∧ Text.caselessEq v keyword = true ∧
      p.next? = some next ∧ (y.lead = .paren → next.lead = .paren ∨ y.isArray = true) ∧
      (y.lead = .brace → next.lead = .brace) ∧
      ∀ v, y.node = .stringConstant v .bareWord → IsBareWord next v := by
  obtain ⟨token, v, ht, hnode, hword, hnext⟩ := h name _ hcall
  have hv : Text.caselessEq v keyword = true := by simpa [isKeyword, hnode] using hk
  have hocc := Token.occurs_keyword hv hne hlow
  obtain ⟨next, hn, hrest⟩ := hnext y rfl hocc
  obtain rfl := bareWord_first hword (isBareWord_word hocc)
  exact ⟨v, next, ht, hv, hn, hrest⟩

theorem lead_eq_paren (h : token.lead = .paren) : token = .mark .lparen := by
  cases token with
  | mark m => cases m <;> first | rfl | exact absurd h (by decide)
  | _ => exact absurd h nofun

theorem lead_eq_brace (h : token.lead = .brace) : token = .mark .lbrace := by
  cases token with
  | mark m => cases m <;> first | rfl | exact absurd h (by decide)
  | _ => exact absurd h nofun

theorem Place.nextSignificant?_eq (h : p.next? = some token) (hne : token ≠ .newline) :
    p.nextSignificant? = some token := by
  rw [Place.next?, ← List.head?_map] at h
  rw [Place.nextSignificant?]
  cases hl : p.rest.tail.map (·.token) with
  | nil => simp [hl] at h
  | cons a as =>
    rw [hl] at h
    obtain rfl := Option.some.inj h
    rw [List.find?_cons_of_pos (by simpa using hne)]

/-- The section that starts at the place. -/
def Place.section? (p : Place) : Option BlockKind :=
  match p.current?, p.nextSignificant? with
  | some (.word w), some (.mark .lbrace) => BlockKind.ofKeyword? w
  | _, _ => none

theorem Outcome.atNamedBlock?_bind {β : Type} {f : Option BlockKind → Parser β}
    {E : Failure → State → Prop} {Q : β → State → Prop} :
    Outcome (atNamedBlock? >>= f) i s E Q ↔ Outcome (f s.place.section?) i s E Q := by
  simp only [atNamedBlock?, Outcome.assoc, Outcome.place_bind, Place.section?]
  cases s.place.current? with
  | none => rfl
  | some t =>
    cases t with
    | word w =>
      cases s.place.nextSignificant? with
      | none => rfl
      | some u =>
        cases u with
        | mark m => cases m <;> rfl
        | _ => rfl
    | _ => rfl

/-- A `using` line starts at the place. -/
def AtUsing (p : Place) : Prop :=
  p.wordAt "using" = true ∧ ∃ w, p.next? = some (.word w) ∧ UsingKind.ofKeyword? w ≠ none

theorem listedUsing_adds (h : Made i s t ts) :
    Outcome listedUsing i t (Lost s) (Adds i s ts fun o xs q =>
      (o = none → xs = [] ∧ q = t.place ∧ ¬ AtUsing t.place) ∧
      ∀ id, o = some id → Settled q ∧ ∃ x, xs = [x] ∧ x.label = id ∧ Parsed .usingLine x) := by
  have hnone (hno : ¬ AtUsing t.place) : Outcome (pure none) i t (Lost s)
      (Adds i s ts fun o xs q => (o = none → xs = [] ∧ q = t.place ∧ ¬ AtUsing t.place) ∧
        ∀ id, o = some id → Settled q ∧ ∃ x, xs = [x] ∧ x.label = id ∧ Parsed .usingLine x) :=
    ⟨[], by simpa using h, fun _ => ⟨rfl, rfl, hno⟩, nofun⟩
  rw [listedUsing, Outcome.start_bind, Outcome.atWord_bind]
  split
  · rename_i husing
    rw [Outcome.peekNext_bind]
    split
    · rename_i w hw
      split
      · rename_i kind hkind
        rw [Outcome.advanceBy_bind, Outcome.start_bind, Outcome.place_bind]
        dsimp only
        rw [Outcome.advanceBy_bind]
        split
        · exact ((h.advanceBy 2).advanceBy _).unexpected
        · rename_i hne
          obtain ⟨value, hslice, hname, -⟩ := (h.advanceBy 2).scanned.usingName hne
          refine Outcome.bind (P := fun name u => name = String.ofList value ∧ Made i s u ts)
            (.slice hslice ⟨rfl, (h.advanceBy 2).advanceBy _⟩) ?_
          rintro _ u ⟨rfl, hu⟩
          refine (hu.addLeaf (n := .usingStatement kind (String.ofList value))
            (R := fun x _ => Parsed .usingLine x) rfl rfl
            fun id => .mk' (.usingStatement hname) trivial nofun).bind ?_
          rintro _ v ⟨x, hx, rfl, hp⟩
          rw [Outcome.skipTerminators_bind]
          exact ⟨[x], hx.past _, nofun, fun id hid =>
            ⟨settled_past _, x, rfl, Option.some.inj hid, hp⟩⟩
      · rename_i hkind
        refine hnone ?_
        rintro ⟨-, w', hw', hsome⟩
        rw [hw'] at hw
        obtain rfl := Token.word.inj (Option.some.inj hw)
        cases hk : UsingKind.ofKeyword? w' with
        | none => exact hsome hk
        | some kind => exact hkind kind hk
    · rename_i hw
      exact hnone fun ⟨_, w, hw', _⟩ => hw w hw'
  · rename_i husing
    exact hnone fun hat => husing hat.1

theorem usings_add (h : Made i s t ts) (hset : Settled t.place) :
    Outcome (many listedUsing) i t (Lost s) (Adds i s ts fun ids xs q =>
      ids = xs.map label ∧ (∀ x ∈ xs, Parsed .usingLine x) ∧ Settled q ∧ ¬ AtUsing q) := by
  refine Outcome.many (I := fun ids u => ∃ xs, Made i s u (ts ++ xs) ∧ ids = xs.map label ∧
    (∀ x ∈ xs, Parsed .usingLine x) ∧ Settled u.place) ⟨[], by simpa using h, rfl, nofun, hset⟩
    ?_ ?_
  · rintro ids u ⟨xs, hu, -⟩
    exact hu.toKept
  · rintro ids u ⟨xs, hu, rfl, hxs, hset⟩
    refine (listedUsing_adds hu).imp fun o v ⟨ys, hv, hnone, hsome⟩ => ⟨fun ho => ?_, ?_⟩
    · obtain ⟨rfl, hplace, hno⟩ := hnone ho
      rw [List.append_nil] at hv
      exact ⟨xs, hv, rfl, hxs, hplace ▸ hset, hplace ▸ hno⟩
    · intro id ho
      obtain ⟨hset', y, rfl, rfl, hy⟩ := hsome id ho
      refine ⟨xs ++ [y], by simpa using hv, by simp, ?_, hset'⟩
      intro x hx
      rcases List.mem_append.mp hx with hx | hx
      · exact hxs x hx
      · obtain rfl := List.mem_singleton.mp hx
        exact hy

variable (hg : Sound g)
include hg

theorem terminatedStatement_yields (h : Made i s t ts) :
    Outcome (terminatedStatement g closer) i t (Lost s)
      (Yields i s ts fun x _ => StatementAt t.place x) := by
  rw [terminatedStatement]
  refine (hg.statement h).bind ?_
  rintro _ u ⟨x, hu, rfl, hx⟩
  rw [Outcome.place_bind]
  have hdone : Outcome (pure x.label) i u (Lost s)
      (Yields i s ts fun x _ => StatementAt t.place x) := ⟨x, hu, rfl, hx⟩
  split
  · exact hdone
  · exact hdone
  · exact hdone
  · dsimp only
    split
    · exact hdone
    · exact hu.unexpected

/-- Statements, the first one from the place behind the terminators on. -/
theorem statementList_adds (h : Made i s t ts) :
    Outcome (statementList g closer) i t (Lost s) (Adds i s ts fun ids xs _ =>
      ids = xs.map label ∧ (∀ x ∈ xs, Parsed .statement x ∧ x.Begins isArray) ∧
        ∀ x, xs.head? = some x → Opens (t.place.past isTerminator) x) := by
  let I (ids : List NodeId) (u : State) : Prop := ∃ xs, Made i s u (ts ++ xs) ∧
    (ids = xs.map label ∧ (∀ x ∈ xs, Parsed .statement x ∧ x.Begins isArray) ∧
      ∀ x, xs.head? = some x → Opens (t.place.past isTerminator) x)
  refine Outcome.many (I := fun ids u => I ids u ∧ (ids = [] → u.place = t.place))
    ⟨⟨[], by simpa using h, rfl, nofun, nofun⟩, fun _ => rfl⟩ ?_ ?_
  · rintro ids u ⟨⟨xs, hu, -⟩, -⟩
    exact hu.toKept
  · rintro ids u ⟨⟨xs, hu, rfl, hxs, hhead⟩, hplace⟩
    rw [listedStatement, Outcome.skipTerminators_bind, Outcome.peek_bind]
    split
    · exact ⟨fun _ => ⟨xs, hu.past _, rfl, hxs, hhead⟩, nofun⟩
    · refine (Made.orElseKeep (terminatedStatement_yields hg (hu.past _))).bind ?_
      rintro _ v ⟨x, hv, rfl, hx⟩
      refine ⟨nofun, fun id hid => ?_⟩
      obtain rfl := Option.some.inj hid
      refine ⟨⟨xs ++ [x], by simpa using hv, by simp, ?_, ?_⟩, by simp⟩
      · intro y hy
        rcases List.mem_append.mp hy with hy | hy
        · exact hxs y hy
        · obtain rfl := List.mem_singleton.mp hy
          exact ⟨hx.parsed, hx.begins⟩
      · intro y hy
        cases xs with
        | nil =>
          obtain rfl := Option.some.inj hy
          have := hx.opens
          rwa [show u.place = t.place from hplace rfl] at this
        | cons z zs => exact hhead y hy

theorem statementBlock_yields (h : Made i s t ts) :
    Outcome (statementBlock g) i t (Lost s) (Yields i s ts fun x _ => Parsed .body x) := by
  rw [statementBlock, Outcome.skipNewlines_bind, Outcome.start_bind]
  refine (h.past _).expect fun _ => ?_
  refine (statementList_adds hg (h.past _).advance).bind ?_
  rintro _ u ⟨xs, hu, rfl, hxs, -⟩
  refine hu.expect fun _ => ?_
  exact hu.advance.add (n := .statementBlock xs) (.refl _) rfl fun id =>
    .mk' (.statementBlock fun x hx => (hxs x hx).1.fits) (fun x hx => (hxs x hx).2)
      fun x hx => (hxs x hx).1.placed

omit hg in
theorem addNamedBlock_yields {kind : BlockKind} {unnamed : Bool} {xs : List (Tree NodeId)}
    (h : Made i s t (ts ++ xs)) (hxs : ∀ x ∈ xs, Parsed .statement x ∧ x.Begins isArray)
    (hu : unnamed = true → kind = .endBlock ∧ xs ≠ []) :
    Outcome (addNamedBlock kind unnamed (xs.map label) start) i t (Lost s)
      (Yields i s ts fun x _ => Parsed (.part unnamed) x ∧
        x.node = .namedBlock kind unnamed (xs.filter (!·.isTrap)) (xs.filter (·.isTrap))) := by
  have hlabel {x : Tree NodeId} (hx : x ∈ xs) : Grammar.isTrap t.arena x.label = x.isTrap :=
    isTrap_label (h.held x (List.mem_append_right _ hx))
  have hperm : (xs.filter (!·.isTrap) ++ xs.filter (·.isTrap)).Perm xs :=
    List.perm_append_comm.trans (List.filter_append_perm _ xs)
  rw [addNamedBlock, Outcome.get_bind]
  refine h.add (n := .namedBlock kind unnamed (xs.filter (!·.isTrap)) (xs.filter (·.isTrap))) hperm
    ?_ fun id => ⟨.mk' (.namedBlock ?_ ?_ ?_ ?_ ?_) ?_ ?_, rfl⟩
  · simp only [Node.map, List.filter_map, Node.namedBlock.injEq, true_and]
    constructor
    · congr 1
      refine List.filter_congr fun x hx => ?_
      simp [hlabel hx]
    · congr 1
      exact List.filter_congr fun x hx => hlabel hx
  · exact fun x hx => (hxs x (List.mem_filter.mp hx).1).1.fits
  · exact fun x hx => (hxs x (List.mem_filter.mp hx).1).1.fits
  · exact fun x hx => by simpa using (List.mem_filter.mp hx).2
  · exact fun x hx => (List.mem_filter.mp hx).2
  · intro hun
    refine ⟨(hu hun).1, fun hnil => (hu hun).2 ?_⟩
    rw [hnil] at hperm
    exact hperm.nil_eq.symm
  · exact fun x hx => (hxs x (List.mem_filter.mp hx).1).2
  · exact fun x hx => (hxs x (hperm.subset hx)).1.placed

theorem namedBlock_yields {kind : BlockKind} (h : Made i s t ts) :
    Outcome (namedBlock g kind) i t (Lost s) (Yields i s ts fun x _ =>
      Parsed (.part false) x ∧ ∃ ss rs, x.node = .namedBlock kind false ss rs) := by
  rw [namedBlock, Outcome.start_bind, Outcome.advance_bind, Outcome.skipNewlines_bind]
  refine (h.advance.past _).expect fun _ => ?_
  refine (statementList_adds hg (h.advance.past _).advance).bind ?_
  rintro _ u ⟨xs, hu, rfl, hxs, -⟩
  refine hu.expect fun _ => ?_
  refine Outcome.imp (addNamedBlock_yields hu.advance hxs (by nofun)) fun id v hv => ?_
  exact hv.imp fun x hx => ⟨hx.1, _, _, hx.2⟩

theorem listedNamedBlock_adds (h : Made i s t ts) :
    Outcome (listedNamedBlock g) i t (Lost s) (Adds i s ts fun o xs _ => (o = none → xs = []) ∧
      ∀ id, o = some id → ∃ x, xs = [x] ∧ x.label = id ∧
        Parsed (.part false) x ∧ ∃ kind ss rs, x.node = .namedBlock kind false ss rs) := by
  rw [listedNamedBlock, Outcome.atNamedBlock?_bind]
  split
  · rename_i kind _
    refine (namedBlock_yields hg h).bind ?_
    rintro _ u ⟨x, hu, rfl, hx, ss, rs, hnode⟩
    rw [Outcome.skipTerminators_bind]
    exact ⟨[x], hu.past _, nofun, fun id hid =>
      ⟨x, rfl, Option.some.inj hid, hx, kind, ss, rs, hnode⟩⟩
  · exact ⟨[], by simpa using h, fun _ => rfl, nofun⟩

/-- The sections of a script block. Only what no section starts with is a section without a
name. -/
structure BlocksAt (p : Place) (xs : List (Tree NodeId)) : Prop where
  parsed : ∃ unnamed, (∀ x ∈ xs, Parsed (.part unnamed) x) ∧ (unnamed = true → xs.length ≤ 1)
  opening : ∀ x, opening? xs = some x → Opens p x ∧ p.section? = none

theorem blocks_adds (h : Made i s t ts) (hset : Settled t.place) :
    Outcome (blocks g closer) i t (Lost s) (Adds i s ts fun ids xs _ =>
      ids = xs.map label ∧ BlocksAt t.place xs) := by
  rw [blocks, Outcome.atNamedBlock?_bind]
  split
  · refine (h.many (listedNamedBlock_adds hg)).bind ?_
    rintro ids u ⟨xs, hu, hxs⟩
    obtain ⟨rfl, hall⟩ := hxs.labels
    rw [Outcome.peek_bind]
    split
    · refine ⟨xs, hu, rfl, ⟨false, fun x hx => (hall x hx).1, nofun⟩, fun x hx => ?_⟩
      cases xs with
      | nil => exact absurd hx nofun
      | cons y ys =>
        obtain ⟨-, kind, ss, rs, hnode⟩ := hall y (by simp)
        simp [opening?, hnode] at hx
    · exact hu.unexpected
  · rename_i hsection
    rw [Outcome.start_bind]
    refine (statementList_adds hg h).bind ?_
    rintro _ u ⟨xs, hu, rfl, hxs, hhead⟩
    rw [hset.past_eq] at hhead
    by_cases hnil : xs = []
    · subst hnil
      exact ⟨[], hu, rfl, ⟨false, nofun, nofun⟩, nofun⟩
    · have hempty : (xs.map label).isEmpty = false := by
        cases xs with
        | nil => exact absurd rfl hnil
        | cons y ys => rfl
      simp only [hempty, Bool.false_eq_true, if_false]
      refine (addNamedBlock_yields hu hxs fun _ => ⟨rfl, hnil⟩).bind ?_
      rintro _ v ⟨b, hv, rfl, hb, hnode⟩
      refine ⟨[b], hv, rfl, ⟨true, by simpa using hb, fun _ => Nat.le_refl 1⟩, fun x hx => ?_⟩
      refine ⟨hhead x ?_, hsection⟩
      simp only [opening?, hnode] at hx
      split at hx
      · rename_i y ys hnamed
        obtain ⟨-, -, hstatements, htraps⟩ := Node.namedBlock.inj hnamed
        obtain rfl := Option.some.inj hx
        have hsame : xs.filter (!·.isTrap) = xs := by
          refine List.filter_eq_self.mpr fun z hz => ?_
          have := List.filter_eq_nil_iff.mp htraps z hz
          simpa using this
        rw [← hsame, hstatements]
        rfl
      · exact absurd hx nofun

theorem scriptBlock_yields (h : Made i s t ts) :
    Outcome (scriptBlock g closer) i t (Lost s) (Yields i s ts fun x _ =>
      Parsed (.script (decide (closer = .endOfText))) x) := by
  have hrest {u : State} {usings : List (Tree NodeId)} {start : Nat}
      (hu : Made i s u (ts ++ usings)) (husings : ∀ x ∈ usings, Parsed .usingLine x)
      (hset : Settled u.place) (hpart : closer ≠ .endOfText → usings = [])
      (hno : closer = .endOfText → ¬ AtUsing u.place) :
      Outcome (do
        let params ← paramBlock? g
        skipTerminators
        let blocks ← blocks g closer
        add (.scriptBlock (usings.map label) params blocks) start) i u (Lost s)
        (Yields i s ts fun x _ => Parsed (.script (decide (closer = .endOfText))) x) := by
    refine (paramBlock?_adds hg hu).bind ?_
    rintro o v ⟨ps, hv, hnone, hsome⟩
    rw [Outcome.skipTerminators_bind]
    refine (blocks_adds hg (hv.past _) (settled_past _)).bind ?_
    rintro _ w ⟨bs, hw, rfl, hbs⟩
    obtain ⟨params, rfl, rfl, hparams⟩ : ∃ params : Option (Tree NodeId), o = params.map label ∧
        ps = params.toList ∧ ∀ x, params = some x → Parsed .params x := by
      cases o with
      | none => exact ⟨none, rfl, (hnone rfl).1, by simp⟩
      | some id =>
        obtain ⟨x, rfl, rfl, hx⟩ := hsome id rfl
        exact ⟨some x, rfl, rfl, fun y hy => by rwa [← Option.some.inj hy]⟩
    -- Without a `param` block, the first statement starts where such a block could have started.
    have hopen (hp : params = none) {x : Tree NodeId} (hx : opening? bs = some x) :
        Opens u.place x := by
      subst hp
      have := (hbs.opening x hx).1
      rwa [show (v.place.past isTerminator) = u.place by
        rw [(hnone rfl).2.1]
        exact hset.past_eq] at this
    obtain ⟨unnamed, hparts, hlength⟩ := hbs.parsed
    have hmade : Made i s w (ts ++ (usings ++ params.toList ++ bs)) := by simpa using hw
    refine hmade.add (n := .scriptBlock usings params bs) (.refl _) rfl fun id => .mk'
      (.scriptBlock ?_ (fun x hx => (husings x hx).fits) (fun x hx => (hparams x hx).fits)
        (fun x hx => (hparts x hx).fits) hlength ?_) ?_ ?_
    · exact fun hw => hpart (of_decide_eq_false hw)
    · rintro hwhole hp x hx ⟨name, y, others, value, kind, hcall, hname, hnode, hkind, hword⟩
      obtain ⟨v', next, hcur, hv', hnext, -, -, hbare⟩ :=
        (hopen hp hx).keyword hcall hname (by decide) (by decide)
      obtain rfl := bareWord_first (hbare value hnode) hword
      exact hno (of_decide_eq_true hwhole) ⟨by simpa [Place.wordAt, hcur] using hv', kind, hnext,
        hkind⟩
    · intro x hx
      constructor
      · intro hp name y others hcall hname hlead
        obtain ⟨v', next, hcur, hv', hnext, hparen, -⟩ :=
          (hopen hp hx).keyword hcall hname (by decide) (by decide)
        rcases hparen hlead with hl | harray
        · obtain rfl := lead_eq_paren hl
          subst hp
          refine absurd ⟨?_, Place.nextSignificant?_eq hnext (by simp)⟩ (hnone rfl).2.2
          simpa [Place.wordAt, hcur] using hv'
        · exact harray
      · intro kind hkind name y others hcall hname hlead
        obtain ⟨hopens, hsection⟩ := hbs.opening x hx
        have hletters : kind.keyword ≠ "" ∧ kind.keyword.toList.all Char.isLower = true := by
          cases kind <;> decide
        obtain ⟨v', next, hcur, hv', hnext, -, hbrace, -⟩ :=
          hopens.keyword hcall hname hletters.1 hletters.2
        obtain rfl := lead_eq_brace (hbrace hlead)
        rw [Place.section?, hcur, Place.nextSignificant?_eq hnext (by simp)] at hsection
        have := List.find?_eq_none.mp hsection kind hkind
        rw [Text.caselessEq_comm] at this
        exact absurd hv' this
    · intro x hx
      simp only [Node.children, List.mem_append, Option.mem_toList] at hx
      rcases hx with (hx | hx) | hx
      · exact (husings x hx).placed
      · exact (hparams x hx).placed
      · exact (hparts x hx).placed
  rw [scriptBlock, Outcome.start_bind, Outcome.skipTerminators_bind]
  by_cases hwhole : closer = .endOfText
  · simp only [if_pos hwhole]
    refine (usings_add (h.past _) (settled_past _)).bind ?_
    rintro _ u ⟨xs, hu, rfl, hxs, hset, hno⟩
    exact hrest hu hxs hset (fun hne => absurd hwhole hne) fun _ => hno
  · simp only [if_neg hwhole, Outcome.pure_bind]
    exact @hrest _ [] _ (by simpa using h.past _) (by simp) (settled_past _) (fun _ => rfl)
      fun he => absurd he hwhole

end ScriptInject.Grammar
