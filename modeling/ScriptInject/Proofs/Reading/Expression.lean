import ScriptInject.Proofs.Reading.Block
/-! The expressions that are read. -/
namespace ScriptInject.Grammar
open Grammar.Parser ScriptInject.Tree

variable {i : Input} {s t u : State} {ts us : List (Tree NodeId)} {x y : Tree NodeId}
  {token : Token} {p q : Place} {g : Nested} {start : Nat} {lead₀ : Lead}

/-- An operand without what is glued to it, from its first token to the place behind it. -/
structure PrimaryAt (p : Place) (x : Tree NodeId) (q : Place) : Prop where
  leads : LeadsAt p x.lead
  met : Met x.ending q
  word : x.isWord = true → q = p.advance
  kind : (x.isSimple = true ∧ Parsed .simple x) ∨
    (x.lead = .bracket ∧ Parsed (.level 7) x ∧ ¬ q.AccessAhead)

/-- What begins with a type or an annotation, up to the place behind it. -/
structure BracketAt (x : Tree NodeId) (q : Place) : Prop where
  parsed : Parsed (.level 7) x
  lead : x.lead = .bracket
  met : Met x.ending q
  closed : ¬ q.AccessAhead
  word : x.isWord = false

/-- An operand with what has been glued to it so far. -/
structure TargetAt (p : Place) (lead₀ : Lead) (x : Tree NodeId) (q : Place) : Prop where
  parsed : Parsed .target x
  lead : x.lead = lead₀
  met : Met x.ending q
  closed : x.isClosed = true ∨ ¬ q.AccessAhead
  word : x.isWord = true → q = p.advance

theorem Place.last?_advance (h : p.current? = some token) :
    p.advance.last?.map (·.token) = some token := by
  cases hr : p.rest with
  | nil => simp [current?, hr] at h
  | cons l ls => simpa [current?, Place.advance, hr] using h

theorem met_of_ending (h : x.ending = {}) : Met x.ending q := by
  rw [h]
  exact met_none

/-- A node of one token. -/
theorem leaf_yields {n : Node (Tree NodeId)} {node : Node NodeId} (h : Made i s t ts)
    (ht : t.place.current? = some token) (hc : n.children = []) (hn : node = n.map Tree.label)
    (hf : ∀ id, Tree.Fits .simple (.mk id n)) (hplaced : Placed isArray n)
    (hlead : leadOf (n.map lead) = token.lead) (hsimple : ∀ id : NodeId, (mk id n).isSimple = true)
    (hend : endingOf (n.map fun x => (x, x.ending)) = {} ∨
      endingOf (n.map fun x => (x, x.ending)) = { word := true } ∧ ∃ w, token = .word w) :
    Outcome (add node start) i { t with place := t.place.advance } (Lost s)
      (Yields i s ts (PrimaryAt t.place)) := by
  refine h.advance.addLeaf hc hn fun id => ⟨⟨token, ht, by rw [lead_mk, hlead]⟩, ?_, fun _ => rfl,
    .inl ⟨hsimple id, .mk' (hf id) hplaced fun c hcn => by rw [hc] at hcn; exact absurd hcn nofun⟩⟩
  rw [ending_mk]
  rcases hend with hend | ⟨hend, w, rfl⟩
  · rw [hend]
    exact met_none
  · rw [hend]
    exact ⟨nofun, nofun, fun _ => ⟨w, Place.last?_advance ht⟩⟩

theorem doubleQuoted_yields {body : String} {kind : StringKind} (h : Made i s t ts)
    (ht : t.place.current? = some (constantToken body kind)) (hk : kind.isDouble = true) :
    Outcome (doubleQuoted body kind start) i { t with place := t.place.advance } (Lost s)
      (Yields i s ts (PrimaryAt t.place)) := by
  have hocc := h.occurs ht
  rw [doubleQuoted]
  by_cases he : isExpandable body = true
  · rw [if_pos he]
    refine leaf_yields h ht rfl rfl (n := .expandableString body kind)
      (fun id => .expandable hocc hk he) trivial ?_ (fun _ => rfl) (.inl rfl)
    cases kind <;> first | rfl | exact absurd hk nofun
  · rw [if_neg he]
    refine leaf_yields h ht rfl rfl (n := .stringConstant body kind)
      (fun id => .constant hocc fun _ => by simpa using he) trivial ?_ (fun _ => rfl) (.inl ?_)
    · cases kind <;> rfl
    · cases kind <;> first | rfl | exact absurd hk nofun

theorem eq_of_isArray (h : x.isArray = true) : ∃ l elements, x = .mk l (.arrayLiteral elements) := by
  obtain ⟨l, n⟩ := x
  rw [isArray, node_mk] at h
  split at h
  · exact ⟨l, _, rfl⟩
  · cases h

/-- What stands in the place of a statement in parentheses. -/
theorem loneArray?_label {a : Arena} (h : a.Holds x) (hx : Parsed .pipeline x) :
    (∃ y ∈ x.subtrees, loneArray? a x.label = some y.label ∧ Parsed .simple y ∧
      y.isArray = true) ∨ (loneArray? a x.label = none ∧ x.isLoneArray = false) := by
  obtain ⟨l, n⟩ := x
  rw [loneArray?, h.get?, isLoneArray, node_mk]
  cases n with
  | pipeline elements =>
    match elements with
    | [] => exact .inr ⟨rfl, rfl⟩
    | [⟨m, k⟩] =>
      have he := h.child (s := mk m k) (by simp [Node.children])
      simp only [Node.map, List.map_cons, List.map_nil, he.get?, node_mk]
      cases k with
      | commandExpression y =>
        obtain ⟨m', k'⟩ := y
        have hy := he.child (s := mk m' k') (by simp [Node.children])
        simp only [Node.map, hy.get?, node_mk, isArray]
        cases k' with
        | arrayLiteral elements =>
          have hmem : mk m' (.arrayLiteral elements) ∈
              (mk l (.pipeline [mk m (.commandExpression (mk m' (.arrayLiteral elements)))])).subtrees :=
            mem_subtrees_mk.mpr (.inr ⟨_, List.mem_singleton_self _, mem_subtrees_mk.mpr
              (.inr ⟨_, List.mem_singleton_self _, self_mem_subtrees _⟩)⟩)
          refine .inl ⟨_, hmem, rfl, ⟨?_, fun z hz => hx.placed z (subtrees_trans hz hmem)⟩, rfl⟩
          cases hx.fits with
          | pipeline hfirst _ =>
            cases hfirst with
            | commandExpression hfits => exact hfits.array_inv
        | _ => exact .inr ⟨rfl, rfl⟩
      | _ => exact .inr ⟨rfl, rfl⟩
    | _ :: _ :: _ => exact .inr ⟨rfl, rfl⟩
  | _ => exact .inr ⟨rfl, rfl⟩

theorem primary_of_simple (hlead : LeadsAt p x.lead) (hx : Parsed .simple x)
    (hs : x.isSimple = true) (hend : x.ending = {}) (hw : x.isWord = false) : PrimaryAt p x q :=
  ⟨hlead, met_of_ending hend, fun h => by rw [hw] at h; exact absurd h nofun, .inl ⟨hs, hx⟩⟩

variable (hg : Sound g)
include hg

theorem paren_yields (h : Made i s t ts) (ht : t.place.current? = some (.mark .lparen)) :
    Outcome (paren g start) i t (Lost s) (Yields i s ts (PrimaryAt t.place)) := by
  rw [paren, Outcome.advance_bind, Outcome.skipNewlines_bind]
  refine (pipeline_yields hg (h.advance.past _)).bind ?_
  rintro _ u ⟨x, hu, rfl, hx⟩
  rw [Outcome.skipNewlines_bind]
  refine (hu.past _).expect fun _ => ?_
  rw [Outcome.get_bind]
  rcases loneArray?_label (hu.held x (by simp)) hx.parsed with ⟨y, hy, hlone, hp, harray⟩ |
    ⟨hlone, hno⟩
  · have hlead := lead_of_isArray harray
    obtain ⟨l, elements, rfl⟩ := eq_of_isArray harray
    simp only [hlone]
    exact ⟨_, (hu.past _).advance.subtree hy, rfl, primary_of_simple ⟨_, ht, hlead⟩ hp rfl
      (by rw [ending_mk]; rfl) rfl⟩
  · simp only [hlone]
    refine (hu.past _).advance.add (n := .paren x) (.refl _) rfl fun id => primary_of_simple
      ⟨_, ht, by rw [lead_mk]; rfl⟩ (.mk' (.paren hx.parsed.fits) hno ?_) rfl
      (by rw [ending_mk]; rfl) rfl
    intro c hc
    obtain rfl := List.mem_singleton.mp hc
    exact hx.parsed.placed

theorem statementsInParens_add (h : Made i s t ts) :
    Outcome (statementsInParens g) i t (Lost s) (Adds i s ts fun ids xs _ =>
      ids = xs.map label ∧ ∀ x ∈ xs, Parsed .statement x ∧ x.Begins isArray) := by
  rw [statementsInParens, Outcome.advance_bind]
  refine (statementList_adds hg h.advance).bind ?_
  rintro _ u ⟨xs, hu, rfl, hxs, -⟩
  exact hu.expect fun _ => ⟨xs, hu.advance, rfl, hxs⟩

theorem hashtablePair_adds (h : Made i s t ts) :
    Outcome (hashtablePair g) i t (Lost s) (Adds i s ts fun o xs _ => (o = none → xs = []) ∧
      ∀ id, o = some id → ∃ x y, xs = [x, y] ∧ id = (x.label, y.label) ∧
        (Parsed .key x ∧ x.wordAlone = true) ∧ Parsed .statement y ∧ y.Begins isArray) := by
  have hrest {u : State} {key : Tree NodeId}
      {behind : NodeId → Option Token → Parser (Option (NodeId × NodeId))}
      (hu : Made i s u (ts ++ [key])) (hkey : Parsed .key key ∧ key.wordAlone = true)
      (hbehind : ∀ value token, behind value token = pure (some (key.label, value)) ∨
        behind value token = unexpected "';' or '\x7d'") :
      Outcome (do
        skipNewlines
        expect .assign
        skipNewlines
        let value ← g.statement
        behind value (← peek)) i u (Lost s)
        (Adds i s ts fun o xs _ => (o = none → xs = []) ∧
          ∀ id, o = some id → ∃ x y, xs = [x, y] ∧ id = (x.label, y.label) ∧
            (Parsed .key x ∧ x.wordAlone = true) ∧ Parsed .statement y ∧ y.Begins isArray) := by
    rw [Outcome.skipNewlines_bind]
    refine (hu.past _).expect fun _ => ?_
    rw [Outcome.skipNewlines_bind]
    refine (hg.statement ((hu.past _).advance.past _)).bind ?_
    rintro _ v ⟨value, hv, rfl, hvalue⟩
    have hdone : Outcome (pure (some (key.label, value.label))) i v (Lost s)
        (Adds i s ts fun o xs _ => (o = none → xs = []) ∧
          ∀ id, o = some id → ∃ x y, xs = [x, y] ∧ id = (x.label, y.label) ∧
            (Parsed .key x ∧ x.wordAlone = true) ∧ Parsed .statement y ∧ y.Begins isArray) :=
      ⟨[key, value], by simpa using hv, by simp, fun id hid =>
        ⟨key, value, rfl, (Option.some.inj hid).symm, hkey, hvalue.parsed, hvalue.begins⟩⟩
    rw [Outcome.peek_bind]
    rcases hbehind value.label v.place.current? with hb | hb
    · rw [hb]
      exact hdone
    · rw [hb]
      exact hv.unexpected
  rw [hashtablePair, Outcome.skipTerminators_bind, Outcome.eat_ite]
  constructor
  · intro _
    exact ⟨[], by simpa using (h.past _).advance, fun _ => rfl, by simp⟩
  · intro _
    rw [Outcome.peek_bind]
    split
    · rename_i w hw
      refine (bareWord_yields (h.past _) hw).bind ?_
      rintro _ u ⟨key, hu, rfl, hplaced, value, hnode, hword⟩
      obtain ⟨token, htoken, hvalue⟩ := hword.first
      obtain rfl := Option.some.inj (hw.symm.trans htoken)
      refine hrest hu ⟨⟨?_, hplaced⟩, by simp [wordAlone, isWord, hnode]⟩
        fun value token => by split <;> simp
      obtain ⟨l, n⟩ := key
      rw [node_mk] at hnode
      subst hnode
      exact .bareKey hvalue
    · rename_i hno
      refine (hg.unary (h.past _)).bind ?_
      rintro _ u ⟨key, hu, rfl, hkey⟩
      refine hrest hu ⟨hkey.parsed.lift .keyOperand, ?_⟩
        fun value token => by split <;> simp
      have hne : key.lead ≠ .word := by
        intro hlead
        obtain ⟨token, ht, hl⟩ := hkey.leads
        obtain ⟨w, rfl⟩ := word_of_lead (hl.symm.trans hlead)
        exact hno w ht
      simp [wordAlone, hne]

theorem hashtable_yields (h : Made i s t ts) (ht : t.place.current? = some (.mark .atBrace)) :
    Outcome (hashtable g start) i t (Lost s) (Yields i s ts (PrimaryAt t.place)) := by
  rw [hashtable, Outcome.advance_bind]
  refine (h.advance.many (hashtablePair_adds hg)).bind ?_
  rintro ids u ⟨xs, hu, hxs⟩
  obtain ⟨ps, rfl, rfl, hps⟩ := hxs.pairs (T := fun p => (Parsed .key p.1 ∧ p.1.wordAlone = true) ∧
    Parsed .statement p.2 ∧ p.2.Begins isArray)
  refine hu.add (n := .hashtable ps) (.refl _) rfl fun id => primary_of_simple
    ⟨_, ht, by rw [lead_mk]; rfl⟩ (.mk' (.hashtable (fun p hp => (hps p hp).1.1.fits)
      fun p hp => (hps p hp).2.1.fits) (fun p hp => ⟨(hps p hp).1.2, (hps p hp).2.2⟩) ?_) rfl
    (by rw [ending_mk]; rfl) rfl
  intro c hc
  obtain ⟨p, hp, hc⟩ := List.mem_flatMap.mp hc
  simp only [List.mem_cons, List.not_mem_nil, or_false] at hc
  rcases hc with rfl | rfl
  · exact (hps p hp).1.1.placed
  · exact (hps p hp).2.1.placed

theorem scriptBlockExpression_yields (h : Made i s t ts)
    (ht : t.place.current? = some (.mark .lbrace)) :
    Outcome (scriptBlockExpression g start) i t (Lost s) (Yields i s ts (PrimaryAt t.place)) := by
  rw [scriptBlockExpression, Outcome.advance_bind]
  refine (scriptBlock_yields hg h.advance).bind ?_
  rintro _ u ⟨body, hu, rfl, hbody⟩
  refine hu.expect fun _ => ?_
  refine hu.advance.add (n := .scriptBlockExpression body) (.refl _) rfl fun id =>
    primary_of_simple ⟨_, ht, by rw [lead_mk]; rfl⟩
      (.mk' (.scriptBlockExpression hbody.fits) trivial ?_) rfl (by rw [ending_mk]; rfl) rfl
  intro c hc
  obtain rfl := List.mem_singleton.mp hc
  exact hbody.placed

omit hg in
theorem lead_eq_bracket (h : token.lead = .bracket) : token = .mark .lbracket := by
  cases token with
  | mark m => cases m <;> first | rfl | exact absurd h (by decide)
  | _ => exact absurd h nofun

omit hg in
theorem TargetAt.operand (h : TargetAt p lead₀ x q) (hp : LeadsAt p lead₀)
    (hq : ¬ q.AccessAhead) : OperandAt p x q :=
  ⟨h.parsed.lift .levelTarget, by rw [h.lead]; exact hp, h.met, hq, h.word⟩

/-- What follows a target that an access applies to. -/
theorem memberAccess_yields {primary : Parser NodeId} {target : Tree NodeId}
    {isStatic nullConditional : Bool} (h : Made i s t (ts ++ [target]))
    (hprimary : ∀ {u us}, Made i s u us →
      Outcome primary i u (Lost s) (Yields i s us (PrimaryAt u.place)))
    (ht : TargetAt p lead₀ target t.place) (hclosed : target.isClosed = true) :
    Outcome (memberAccess g primary start target.label isStatic nullConditional) i t (Lost s)
      (Yields i s ts (TargetAt p lead₀)) := by
  have hrest {u : State} {name : Tree NodeId} {p' : Place}
      (hu : Made i s u (ts ++ [target] ++ [name])) (hname : PrimaryAt p' name u.place) :
      Outcome (do
        let p ← place
        if p.current? = some (.mark .lparen) ∧ p.isAdjacent then
          advance
          let arguments ← untilParen (g.expression false)
          add (.invokeMember target.label name.label arguments isStatic nullConditional) start
        else add (.member target.label name.label isStatic nullConditional) start) i u (Lost s)
        (Yields i s ts (TargetAt p lead₀)) := by
    have hisName : name.isName = true := by
      rcases hname.kind with ⟨hs, -⟩ | ⟨hl, -⟩ <;> simp [isName, *]
    have hfits : Parsed (.level 7) name := by
      rcases hname.kind with ⟨-, hp⟩ | ⟨-, hp, -⟩
      · exact hp.lift fun hf => .levelTarget (.targetSimple hf)
      · exact hp
    have hlead (n : Node (Tree NodeId)) (l : NodeId)
        (hn : leadOf (n.map lead) = target.lead) : (mk l n).lead = lead₀ := by
      rw [lead_mk, hn, ht.lead]
    have hchildren (c : Tree NodeId) (hc : c = target ∨ c = name) : c.All (Placed isArray) := by
      rcases hc with rfl | rfl
      · exact ht.parsed.placed
      · exact hfits.placed
    rw [Outcome.place_bind]
    split
    · rename_i hcall
      rw [Outcome.advance_bind]
      refine (hu.advance.untilParen (fun hv => Yields.adds (hg.expression false hv)
        fun x q hx => hx.parsed) fun ha _ => ha).bind ?_
      rintro _ v ⟨xs, hv, hxs⟩
      obtain ⟨rfl, hall⟩ := hxs.labels
      have htype : name.ending.type = false := by
        cases he : name.ending.type with
        | false => rfl
        | true => exact absurd (hname.met.type he _ hcall.1) (by decide)
      have hmember : name.ending.member = false := by
        cases he : name.ending.member with
        | false => rfl
        | true => exact absurd hcall (hname.met.member he)
      have hmade : Made i s v (ts ++ ([target, name] ++ xs)) := by simpa using hv
      refine hmade.add (n := .invokeMember target name xs isStatic nullConditional) (.refl _) rfl
        fun id => ⟨.mk' (.invokeMember ht.parsed.fits hclosed hfits.fits htype hmember
          fun x hx => (hall x hx).fits) hisName ?_, hlead _ _ rfl, ?_, .inl rfl, fun hx => by cases hx⟩
      · intro c hc
        simp only [Node.children, List.mem_append, List.mem_cons, List.not_mem_nil, or_false] at hc
        rcases hc with hc | hc
        · exact hchildren c hc
        · exact (hall c hc).placed
      · rw [ending_mk]
        exact met_none
    · rename_i hno
      have hmade : Made i s u (ts ++ [target, name]) := by simpa using hu
      refine hmade.add (n := .member target name isStatic nullConditional) (.refl _) rfl fun id =>
        ⟨.mk' (.member ht.parsed.fits hclosed hfits.fits) hisName ?_, hlead _ _ rfl, ?_, ?_,
          fun hx => by cases hx⟩
      · intro c hc
        simp only [Node.children, List.mem_cons, List.not_mem_nil, or_false] at hc
        exact hchildren c hc
      · rw [ending_mk]
        exact ⟨hname.met.type, fun _ => hno, hname.met.word⟩
      · rcases hname.kind with ⟨hs, -⟩ | ⟨-, -, hq⟩
        · exact .inl hs
        · exact .inr hq
  rw [memberAccess, Outcome.advance_bind, Outcome.start_bind, Outcome.peek_bind]
  split
  · rename_i w hw
    rw [Outcome.advance_bind]
    refine (leaf_yields h.advance hw rfl rfl (n := .stringConstant w .bareWord)
      (fun id => .constant (h.advance.occurs hw) fun hx => by cases hx) trivial rfl (fun _ => rfl)
      (.inr ⟨rfl, w, rfl⟩)).bind ?_
    rintro _ u ⟨name, hu, rfl, hname⟩
    exact hrest hu hname
  · refine (hprimary h.advance).bind ?_
    rintro _ u ⟨name, hu, rfl, hname⟩
    exact hrest hu hname

theorem indexAccess_yields {target : Tree NodeId} {nullConditional : Bool}
    (h : Made i s t (ts ++ [target])) (ht : TargetAt p lead₀ target t.place)
    (hclosed : target.isClosed = true)
    (htype : nullConditional = false → target.isType = false) :
    Outcome (indexAccess g start target.label nullConditional) i t (Lost s)
      (Yields i s ts (TargetAt p lead₀)) := by
  rw [indexAccess, Outcome.advance_bind, Outcome.skipNewlines_bind]
  refine (hg.expression true (h.advance.past _)).bind ?_
  rintro _ u ⟨key, hu, rfl, hkey⟩
  rw [Outcome.skipNewlines_bind]
  refine (hu.past _).expect fun _ => ?_
  have hmade : Made i s { u with place := (u.place.past (· == .newline)).advance }
      (ts ++ [target, key]) := by simpa using (hu.past _).advance
  refine hmade.add (n := .index target key nullConditional) (.refl _) rfl fun id =>
    ⟨.mk' (.index ht.parsed.fits hclosed htype hkey.parsed.fits) trivial ?_, ?_, ?_, .inl rfl, nofun⟩
  · simp only [Node.children, List.mem_cons, List.not_mem_nil, or_false]
    rintro c (rfl | rfl)
    · exact ht.parsed.placed
    · exact hkey.parsed.placed
  · rw [lead_mk]
    exact ht.lead
  · rw [ending_mk]
    exact met_none

omit hg in
theorem trailingUnary_yields {target : Tree NodeId} {operator : UnaryOperator}
    (h : Made i s t (ts ++ [target])) (ht : TargetAt p lead₀ target t.place)
    (hclosed : target.isClosed = true) (htrailing : operator.isTrailing = true)
    (hword : operator = .postDecrement → target.ending.word = false) :
    Outcome (trailingUnary start operator target.label) i t (Lost s)
      (Yields i s ts (TargetAt p lead₀)) := by
  rw [trailingUnary, Outcome.advance_bind]
  refine h.advance.add (n := .unary operator target) (.refl _) rfl fun id =>
    ⟨.mk' (.trailingUnary htrailing ht.parsed.fits hclosed hword) trivial ?_, ?_, ?_, .inl rfl,
      nofun⟩
  · intro c hc
    obtain rfl := List.mem_singleton.mp hc
    exact ht.parsed.placed
  · rw [lead_mk, ← ht.lead]
    simp [Node.map, leadOf, htrailing]
  · rw [ending_mk]
    simpa [Node.map, endingOf, htrailing] using met_none

theorem access_adds {primary : Parser NodeId} {target : Tree NodeId}
    (h : Made i s t (ts ++ [target]))
    (hprimary : ∀ {u us}, Made i s u us →
      Outcome primary i u (Lost s) (Yields i s us (PrimaryAt u.place)))
    (ht : TargetAt p lead₀ target t.place) :
    Outcome (access g primary start target.label) i t (Lost s) fun o u =>
      (o = none → u = t ∧ ¬ t.place.AccessAhead) ∧
      ∀ id, o = some id → Yields i s ts (TargetAt p lead₀) id u := by
  have hsome {r : Parser NodeId}
      (hr : Outcome r i t (Lost s) (Yields i s ts (TargetAt p lead₀))) :
      Outcome (do return some (← r)) i t (Lost s) fun o u =>
        (o = none → u = t ∧ ¬ t.place.AccessAhead) ∧
        ∀ id, o = some id → Yields i s ts (TargetAt p lead₀) id u := by
    refine hr.bind fun id u hu => ⟨nofun, fun id' hid => ?_⟩
    obtain rfl := Option.some.inj hid
    exact hu
  rw [access, Outcome.place_bind]
  cases hadj : t.place.isAdjacent with
  | false =>
    refine ⟨fun _ => ⟨rfl, ?_⟩, nofun⟩
    rintro ⟨hadj', -⟩
    rw [hadj] at hadj'
    exact absurd hadj' nofun
  | true =>
    simp only [Bool.not_true, Bool.false_eq_true, if_false]
    have hclosed {token : Token} (hc : t.place.current? = some token)
        (ha : isAccess token = true) : target.isClosed = true :=
      ht.closed.resolve_right fun hno => hno ⟨hadj, token, hc, ha⟩
    split
    · exact hsome (memberAccess_yields hg h hprimary ht (hclosed ‹_› rfl))
    · exact hsome (memberAccess_yields hg h hprimary ht (hclosed ‹_› rfl))
    · exact hsome (memberAccess_yields hg h hprimary ht (hclosed ‹_› rfl))
    · rename_i hbracket
      refine hsome (indexAccess_yields hg h ht (hclosed hbracket rfl) fun _ => ?_)
      cases hty : target.isType with
      | false => rfl
      | true =>
        obtain ⟨l, n⟩ := target
        have hend : (mk l n).ending.type = true := by
          rw [ending_mk]
          cases n <;> first | rfl | cases hty
        exact absurd (ht.met.type hend _ hbracket) nofun
    · exact hsome (indexAccess_yields hg h ht (hclosed ‹_› rfl) nofun)
    · exact hsome (trailingUnary_yields h ht (hclosed ‹_› rfl) rfl nofun)
    · rename_i hminus
      refine hsome (trailingUnary_yields h ht (hclosed hminus rfl) rfl fun _ => ?_)
      cases hw : target.ending.word with
      | false => rfl
      | true =>
        obtain ⟨w, hlast⟩ := ht.met.word hw
        exact absurd hminus (h.scanned.not_minusMinus hlast hadj)
    · rename_i hdot hcolon hquestion hbracket hindex hplus hminus
      refine ⟨fun _ => ⟨rfl, ?_⟩, nofun⟩
      rintro ⟨-, token, hc, ha⟩
      cases token with
      | mark m =>
        cases m with
        | dot => exact hdot hc
        | colonColon => exact hcolon hc
        | questionDot => exact hquestion hc
        | lbracket => exact hbracket hc
        | questionBracket => exact hindex hc
        | plusPlus => exact hplus hc
        | minusMinus => exact hminus hc
        | _ => exact absurd ha nofun
      | _ => exact absurd ha nofun

theorem accesses_yields {primary : Parser NodeId} {target : Tree NodeId}
    (h : Made i s t (ts ++ [target]))
    (hprimary : ∀ {u us}, Made i s u us →
      Outcome primary i u (Lost s) (Yields i s us (PrimaryAt u.place)))
    (ht : TargetAt p lead₀ target t.place) :
    Outcome (accesses g primary start target.label) i t (Lost s)
      (Yields i s ts fun x q => TargetAt p lead₀ x q ∧ ¬ q.AccessAhead) := by
  refine Outcome.iterate (I := fun id u => Yields i s ts (TargetAt p lead₀) id u)
    ⟨target, h, rfl, ht⟩ ?_ ?_
  · rintro id u ⟨x, hu, -⟩
    exact hu.toKept
  · rintro _ u ⟨x, hu, rfl, hx⟩
    refine (access_adds hg hu hprimary hx).imp fun o v ⟨hnone, hsome⟩ => ⟨fun ho => ?_, hsome⟩
    obtain ⟨rfl, hno⟩ := hnone ho
    exact ⟨x, hu, rfl, hx, hno⟩

theorem bracketExpression_yields {primary : Parser NodeId} (h : Made i s t ts)
    (hprimary : ∀ {u us}, Made i s u us →
      Outcome primary i u (Lost s) (Yields i s us (PrimaryAt u.place))) :
    Outcome (bracketExpression g primary) i t (Lost s) (Yields i s ts BracketAt) := by
  rw [bracketExpression, Outcome.start_bind]
  refine (bracketHead_adds hg h).bind ?_
  rintro head u ⟨xs, hu, hhead⟩
  cases head with
  | attributeSpec id =>
    obtain ⟨mark, rfl, rfl, hmark⟩ := hhead
    refine (hg.unary hu).bind ?_
    rintro _ v ⟨child, hv, rfl, hchild⟩
    have hmade : Made i s v (ts ++ [mark, child]) := by simpa using hv
    refine hmade.add (n := .annotated mark child) (.refl _) rfl fun id =>
      ⟨.mk' (.annotated hmark.fits hchild.parsed.fits) trivial ?_, by rw [lead_mk]; rfl, ?_,
        hchild.closed, rfl⟩
    · simp only [Node.children, List.mem_cons, List.not_mem_nil, or_false]
      rintro c (rfl | rfl)
      · exact hmark.placed
      · exact hchild.parsed.placed
    · rw [ending_mk]
      exact hchild.met
  | type ty =>
    obtain ⟨rfl, hty⟩ := hhead
    rw [List.append_nil] at hu
    dsimp only
    rw [Outcome.peek_bind]
    split
    · rename_i hstart
      refine (hu.addLeaf (n := .typeConstraint ty) (R := fun x q => Parsed .constraint x ∧
        q = u.place) rfl rfl
        fun id => ⟨.mk' (.typeConstraint hty) trivial (by simp [Node.children]), rfl⟩).bind ?_
      rintro _ v ⟨type, hv, rfl, htype, hplace⟩
      refine (hg.unary hv).bind ?_
      rintro _ w ⟨child, hw, rfl, hchild⟩
      have hmade : Made i s w (ts ++ [type, child]) := by simpa using hw
      have hlead : child.lead.isOperand = true := by
        obtain ⟨token, ht, hl⟩ := hchild.leads
        rw [hplace] at ht
        rw [ht] at hstart
        rw [hl, Token.lead_isOperand]
        exact hstart
      refine hmade.add (n := .convert type child) (.refl _) rfl fun id =>
        ⟨.mk' (.convert htype.fits hchild.parsed.fits) hlead ?_, by rw [lead_mk]; rfl, ?_,
          hchild.closed, rfl⟩
      · simp only [Node.children, List.mem_cons, List.not_mem_nil, or_false]
        rintro c (rfl | rfl)
        · exact htype.placed
        · exact hchild.parsed.placed
      · rw [ending_mk]
        exact hchild.met
    · rename_i hstart
      refine (hu.addLeaf (n := .typeExpression ty) (R := fun x q =>
        TargetAt { rest := [] } .bracket x q) rfl rfl fun id => ?_).bind ?_
      · refine ⟨.mk' (.typeExpression hty) trivial (by simp [Node.children]), by rw [lead_mk]; rfl, ?_,
          .inl rfl, fun hx => by cases hx⟩
        rw [ending_mk]
        refine ⟨fun _ token ht => ?_, fun hx => (by cases hx), fun hx => (by cases hx)⟩
        rw [ht] at hstart
        simpa using hstart
      · rintro _ v ⟨x, hv, rfl, hx⟩
        refine (accesses_yields hg hv hprimary hx).imp fun id w hw => hw.imp ?_
        rintro y ⟨hy, hno⟩
        refine ⟨hy.parsed.lift .levelTarget, hy.lead, hy.met, hno, ?_⟩
        cases hword : y.isWord with
        | false => rfl
        | true =>
          have := lead_of_isWord hword
          rw [hy.lead] at this
          cases this

theorem primaryUpTo_yields {n : Nat} (h : Made i s t ts) :
    Outcome (primaryUpTo g n) i t (Lost s) (Yields i s ts (PrimaryAt t.place)) := by
  induction n generalizing t ts with
  | zero => exact h.toKept
  | succ n ih =>
    rw [primaryUpTo, Outcome.start_bind, Outcome.peek_bind]
    split
    · rename_i path hpath
      rw [Outcome.advance_bind]
      refine (variableRef_yields h.advance (h.occurs hpath)).imp fun id u hu => hu.imp ?_
      rintro x ⟨hx, hlead, hword, hsimple, hend, -⟩
      exact primary_of_simple ⟨_, hpath, hlead⟩ (hx.lift .simpleReference) hsimple hend hword
    · rename_i name hname
      rw [Outcome.advance_bind]
      exact leaf_yields h hname rfl rfl (n := .variableRef name true)
        (fun id => .splat (h.occurs hname)) trivial rfl (fun _ => rfl) (.inl rfl)
    · rename_i text htext
      rw [Outcome.advance_bind]
      exact leaf_yields h htext rfl rfl (n := .number text)
        (fun id => .number (h.occurs htext)) trivial rfl (fun _ => rfl) (.inl rfl)
    · rename_i value hvalue
      rw [Outcome.advance_bind]
      exact leaf_yields h hvalue rfl rfl (n := .stringConstant value .singleQuoted)
        (fun id => .constant (h.occurs hvalue) nofun) trivial rfl (fun _ => rfl) (.inl rfl)
    · rename_i value hvalue
      rw [Outcome.advance_bind]
      exact leaf_yields h hvalue rfl rfl (n := .stringConstant value .singleQuotedHereString)
        (fun id => .constant (h.occurs hvalue) nofun) trivial rfl (fun _ => rfl) (.inl rfl)
    · rename_i body hbody
      rw [Outcome.advance_bind]
      exact doubleQuoted_yields h hbody rfl
    · rename_i body hbody
      rw [Outcome.advance_bind]
      exact doubleQuoted_yields h hbody rfl
    · rename_i w hw
      rw [Outcome.advance_bind]
      exact leaf_yields h hw rfl rfl (n := .stringConstant w .bareWord)
        (fun id => .constant (h.occurs hw) nofun) trivial rfl (fun _ => rfl) (.inr ⟨rfl, w, rfl⟩)
    · exact paren_yields hg h ‹_›
    · rename_i hparen
      refine (statementsInParens_add hg h).bind ?_
      rintro _ u ⟨xs, hu, rfl, hxs⟩
      exact hu.add (n := .subExpression xs) (.refl _) rfl fun id => primary_of_simple
        ⟨_, hparen, by rw [lead_mk]; rfl⟩ (.mk' (.subExpression fun x hx => (hxs x hx).1.fits)
          (fun x hx => (hxs x hx).2) fun x hx => (hxs x hx).1.placed) rfl (by rw [ending_mk]; rfl) rfl
    · rename_i hparen
      refine (statementsInParens_add hg h).bind ?_
      rintro _ u ⟨xs, hu, rfl, hxs⟩
      exact hu.add (n := .arrayExpression xs) (.refl _) rfl fun id => primary_of_simple
        ⟨_, hparen, by rw [lead_mk]; rfl⟩ (.mk' (.arrayExpression fun x hx => (hxs x hx).1.fits)
          (fun x hx => (hxs x hx).2) fun x hx => (hxs x hx).1.placed) rfl (by rw [ending_mk]; rfl) rfl
    · exact hashtable_yields hg h ‹_›
    · exact scriptBlockExpression_yields hg h ‹_›
    · rename_i hbracket
      refine (bracketExpression_yields hg h ih).imp fun id u hu => hu.imp fun x hx => ?_
      refine ⟨⟨_, hbracket, hx.lead⟩, hx.met, fun hw => ?_, .inr ⟨hx.lead, hx.parsed, hx.closed⟩⟩
      rw [hx.word] at hw
      exact absurd hw nofun
    · exact h.unexpected

theorem primary_yields (h : Made i s t ts) :
    Outcome (primary g) i t (Lost s) (Yields i s ts (PrimaryAt t.place)) := by
  rw [primary, Outcome.place_bind]
  exact primaryUpTo_yields hg h

theorem unary_yields (h : Made i s t ts) :
    Outcome (unary g) i t (Lost s) (Yields i s ts (OperandAt t.place)) := by
  rw [unary, Outcome.start_bind, Outcome.peek_bind]
  split
  · rename_i hbracket
    refine (bracketExpression_yields hg h (primary_yields hg)).imp fun id u hu => hu.imp ?_
    intro x hx
    refine ⟨hx.parsed, ⟨_, hbracket, hx.lead⟩, hx.met, hx.closed, fun hw => ?_⟩
    rw [hx.word] at hw
    exact absurd hw nofun
  · rename_i hno
    split
    · rename_i operator hoperator
      obtain ⟨token, ht, hop⟩ := Option.bind_eq_some_iff.mp hoperator
      rw [Outcome.advance_bind]
      refine (hg.unary h.advance).bind ?_
      rintro _ u ⟨child, hu, rfl, hchild⟩
      have hkind : operator.isTrailing = false ∧
          (if operator.isWord then Lead.dash else .sign) = token.lead := by
        cases token with
        | mark m =>
          cases m with
          | bang | minus | plus | plusPlus | minusMinus =>
            obtain rfl := Option.some.inj hop
            exact ⟨rfl, rfl⟩
          | _ => exact absurd hop nofun
        | dashWord w =>
          have hw := List.find?_some hop
          rw [Bool.and_eq_true] at hw
          refine ⟨?_, by rw [hw.1]; rfl⟩
          cases operator <;> first | rfl | exact absurd hw.1 nofun
        | _ => exact absurd hop nofun
      refine hu.add (n := .unary operator child) (.refl _) rfl fun id =>
        ⟨.mk' (.leadingUnary hkind.1 hchild.parsed.fits) trivial ?_, ⟨token, ht, ?_⟩, ?_,
          hchild.closed, nofun⟩
      · intro c hc
        obtain rfl := List.mem_singleton.mp hc
        exact hchild.parsed.placed
      · rw [lead_mk, ← hkind.2]
        simp [Node.map, leadOf, hkind.1]
      · rw [ending_mk]
        simpa [Node.map, endingOf, hkind.1] using hchild.met
    · refine (primary_yields hg h).bind ?_
      rintro _ u ⟨x, hu, rfl, hx⟩
      rcases hx.kind with ⟨hsimple, hp⟩ | ⟨hlead, -⟩
      · have htarget : TargetAt t.place x.lead x u.place := by
          refine ⟨hp.lift .targetSimple, rfl, hx.met, .inl ?_, hx.word⟩
          obtain ⟨l, n⟩ := x
          cases n <;> first | rfl | cases hsimple
        refine (accesses_yields hg hu (primary_yields hg) htarget).imp fun id v hv => hv.imp ?_
        rintro y ⟨hy, hq⟩
        exact hy.operand hx.leads hq
      · obtain ⟨token, ht, hl⟩ := hx.leads
        obtain rfl := lead_eq_bracket (hl.symm.trans hlead)
        exact absurd ht hno

/-- Operands and operators of one level, from the first token to the place behind them. -/
structure LevelAt (k : Nat) (p : Place) (x : Tree NodeId) (q : Place) : Prop where
  parsed : Parsed (.level k) x
  leads : x.lead = .paren ∨ LeadsAt p x.lead
  word : x.isWord = true → q = p.advance

theorem listOrOperand_yields {commas : Bool} (h : Made i s t ts) :
    Outcome (listOrOperand g commas) i t (Lost s) (Yields i s ts (LevelAt 7 t.place)) := by
  rw [listOrOperand, Outcome.start_bind]
  cases commas with
  | false =>
    simp only [Bool.false_eq_true, if_false]
    exact (hg.unary h).imp fun id u hu => hu.imp fun x hx => ⟨hx.parsed, .inr hx.leads, hx.word⟩
  | true =>
    simp only [if_true]
    rw [Outcome.eat_ite]
    constructor
    · intro _
      rw [Outcome.skipNewlines_bind]
      refine (hg.unary (h.advance.past _)).bind ?_
      rintro _ u ⟨x, hu, rfl, hx⟩
      refine hu.add (n := .arrayLiteral [x]) (.refl _) rfl fun id =>
        ⟨.mk' (.levelTarget (.targetSimple (.array nofun (by simpa using hx.parsed.fits)))) trivial
          (by simpa [Node.children] using hx.parsed.placed), .inl (by rw [lead_mk]; rfl), nofun⟩
    · intro _
      refine (operands_yields hg h).imp fun id u hu => hu.imp fun x hx => ?_
      exact ⟨hx.parsed, hx.leads.imp_left lead_of_isArray, hx.word⟩

theorem binary_yields {commas : Bool} {levels : Nat} (hl : levels ≤ 7) (h : Made i s t ts) :
    Outcome (binary (listOrOperand g commas) levels) i t (Lost s)
      (Yields i s ts (LevelAt (7 - levels) t.place)) := by
  induction levels generalizing t ts with
  | zero => exact listOrOperand_yields hg h
  | succ levels ih =>
    have hk : 7 - (levels + 1) + 1 = 7 - levels := by omega
    have hk' : 6 - levels = 7 - (levels + 1) := by omega
    rw [binary, Outcome.start_bind]
    refine (ih (by omega) h).bind ?_
    rintro _ u ⟨left, hu, rfl, hleft⟩
    have hfirst : LevelAt (7 - (levels + 1)) t.place left u.place := by
      refine ⟨hleft.parsed.lift fun hf => .tighter (by omega) ?_, hleft.leads, hleft.word⟩
      rwa [hk]
    refine Outcome.iterate (I := fun id v => Yields i s ts (LevelAt (7 - (levels + 1)) t.place) id v)
      ⟨left, hu, rfl, hfirst⟩ ?_ ?_
    · rintro id v ⟨x, hv, -⟩
      exact hv.toKept
    · rintro _ v ⟨x, hv, rfl, hx⟩
      have hnone : Outcome (pure none) i v (Lost s) fun o w =>
          (o = none → Yields i s ts (LevelAt (7 - (levels + 1)) t.place) x.label w) ∧
          ∀ id, o = some id → Yields i s ts (LevelAt (7 - (levels + 1)) t.place) id w :=
        ⟨fun _ => ⟨x, hv, rfl, hx⟩, by simp⟩
      rw [binaryStep, Outcome.peek_bind]
      split
      · rename_i operator _
        split
        · rename_i hprec
          rw [Outcome.advance_bind, Outcome.skipNewlines_bind]
          refine (ih (by omega) (hv.advance.past _)).bind ?_
          rintro _ w ⟨right, hw, rfl, hright⟩
          have hmade : Made i s w (ts ++ [x, right]) := by simpa using hw
          refine (hmade.add (n := .binary operator x right)
            (R := LevelAt (7 - (levels + 1)) t.place) (.refl _) rfl fun id => ⟨⟨?_, ?_⟩, ?_,
              fun hx => by cases hx⟩).bind ?_
          · rw [← hk', ← hprec]
            refine .binary ?_ ?_
            · rw [hprec, hk']
              exact hx.parsed.fits
            · rw [hprec, hk', hk]
              exact hright.parsed.fits
          · refine all_mk.mpr ⟨trivial, ?_⟩
            simp only [Node.children, List.mem_cons, List.not_mem_nil, or_false]
            rintro c (rfl | rfl)
            · exact hx.parsed.placed
            · exact hright.parsed.placed
          · rw [lead_mk]
            exact hx.leads
          · rintro id r hr
            exact ⟨by simp, fun id' hid => by rwa [← Option.some.inj hid]⟩
        · exact hnone
      · exact hnone

theorem ternary_yields {commas : Bool} (h : Made i s t ts) :
    Outcome (ternary g commas) i t (Lost s) (Yields i s ts (ExpressionAt t.place)) := by
  rw [ternary, Outcome.start_bind]
  refine (binary_yields hg (Nat.le_refl 7) h).bind ?_
  rintro _ u ⟨x, hu, rfl, hx⟩
  rw [Outcome.eat_ite]
  constructor
  · intro _
    rw [Outcome.skipNewlines_bind]
    refine (hg.expression commas (hu.advance.past _)).bind ?_
    rintro _ v ⟨whenTrue, hv, rfl, htrue⟩
    rw [Outcome.skipNewlines_bind]
    refine (hv.past _).expect fun _ => ?_
    rw [Outcome.skipNewlines_bind]
    refine (hg.expression commas ((hv.past _).advance.past _)).bind ?_
    rintro _ w ⟨whenFalse, hw, rfl, hfalse⟩
    have hmade : Made i s w (ts ++ [x, whenTrue, whenFalse]) := by simpa using hw
    refine hmade.add (n := .ternary x whenTrue whenFalse) (.refl _) rfl fun id =>
      ⟨.mk' (.ternary hx.parsed.fits htrue.parsed.fits hfalse.parsed.fits) trivial ?_, ?_, nofun⟩
    · simp only [Node.children, List.mem_cons, List.not_mem_nil, or_false]
      rintro c (rfl | rfl | rfl)
      · exact hx.parsed.placed
      · exact htrue.parsed.placed
      · exact hfalse.parsed.placed
    · rw [lead_mk]
      exact hx.leads
  · intro _
    exact ⟨x, hu, rfl, hx.parsed.lift .expressionLevel, hx.leads, hx.word⟩

end ScriptInject.Grammar
