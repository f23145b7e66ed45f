import ScriptInject.Proofs.Reading.Expression
/-! The statements that are read. -/
namespace ScriptInject.Grammar
open Grammar.Parser ScriptInject.Tree

variable {i : Input} {s t u : State} {ts us : List (Tree NodeId)} {x : Tree NodeId}
  {token : Token} {p q : Place} {g : Nested} {start : Nat} {label : Option String}

/-- A statement that is no pipeline. -/
def IsClosedStatement (x : Tree NodeId) : Prop := Parsed .statement x ∧ x.call? = none

theorem IsClosedStatement.statementAt (h : IsClosedStatement x) : StatementAt p x := by
  refine ⟨h.1, fun name others hcall => ?_, fun name y others hcall => ?_⟩
  · rw [h.2] at hcall
    exact absurd hcall nofun
  · rw [h.2] at hcall
    exact absurd hcall nofun

/-- The label is a word, if there is one. -/
def IsLabel (label : Option String) : Prop := ∀ w, label = some w → (Token.word w).Occurs

theorem label?_finds (h : Made i s t ts) :
    Outcome label? i t (Lost s) fun label u => Made i s u ts ∧ IsLabel label ∧
      (label = none → u.place = t.place) := by
  have hnone : Outcome (pure none) i t (Lost s) fun label u => Made i s u ts ∧ IsLabel label ∧
      (label = none → u.place = t.place) := ⟨h, nofun, fun _ => rfl⟩
  rw [label?, Outcome.place_bind]
  split
  · rename_i w hcolon hw
    split
    · rw [Outcome.advanceBy_bind]
      refine ⟨h.advanceBy 2, fun v hv => ?_, nofun⟩
      obtain rfl := Option.some.inj hv
      exact h.occurs_next hcolon hw
    · exact hnone
  · exact hnone

theorem jumpLabel?_finds (h : Made i s t ts) :
    Outcome jumpLabel? i t (Lost s) (Finds i s ts IsLabel) := by
  rw [jumpLabel?, Outcome.peek_bind]
  split
  · rename_i w hw
    rw [Outcome.advance_bind]
    refine ⟨h.advance, fun v hv => ?_⟩
    obtain rfl := Option.some.inj hv
    exact h.occurs hw
  · exact ⟨h, nofun⟩

/-- The result is the node of a tree that was added, or nothing. -/
def YieldsOptional (i : Input) (s : State) (ts : List (Tree NodeId)) (T : Tree NodeId → Prop) :
    Option NodeId → State → Prop :=
  fun o u => ∃ y : Option (Tree NodeId), Made i s u (ts ++ y.toList) ∧ y.map Tree.label = o ∧
    ∀ x, y = some x → T x

theorem yieldsOptional_none {T : Tree NodeId → Prop} (h : Made i s t ts) :
    YieldsOptional i s ts T none t := ⟨none, by simpa using h, rfl, nofun⟩

theorem yieldsOptional_some {T : Tree NodeId → Prop} (h : Made i s t (ts ++ [x])) (hx : T x) :
    YieldsOptional i s ts T (some x.label) t :=
  ⟨some x, h, rfl, fun y hy => by rwa [← Option.some.inj hy]⟩

theorem afterWord?_adds {α : Type} {keyword : String} {r : Parser α}
    {R : α → List (Tree NodeId) → Prop} (h : Made i s t ts)
    (hr : ∀ {u us}, Made i s u us → Outcome r i u (Lost s) (Adds i s us fun a xs _ => R a xs)) :
    Outcome (afterWord? keyword r) i t (Lost s) (Adds i s ts fun o xs _ => (o = none → xs = []) ∧
      ∀ a, o = some a → R a xs) := by
  rw [afterWord?, Outcome.place_bind, Outcome.skipNewlines_bind, Outcome.atWord_bind]
  split
  · refine (hr (h.past _)).bind ?_
    rintro a u ⟨xs, hu, ha⟩
    exact ⟨xs, hu, nofun, fun b hb => by rwa [← Option.some.inj hb]⟩
  · rw [Outcome.goto_bind]
    exact ⟨[], by simpa using h.goto h.scanned, fun _ => rfl, nofun⟩

theorem Adds.optional {T : Tree NodeId → Prop} {o : Option NodeId}
    (h : Adds i s ts (fun o xs _ => (o = none → xs = []) ∧
      ∀ id, o = some id → ∃ x, xs = [x] ∧ x.label = id ∧ T x) o t) :
    YieldsOptional i s ts T o t := by
  obtain ⟨xs, ht, hnone, hsome⟩ := h
  cases o with
  | none =>
    obtain rfl := hnone rfl
    exact ⟨none, ht, rfl, nofun⟩
  | some id =>
    obtain ⟨x, rfl, rfl, hx⟩ := hsome id rfl
    exact yieldsOptional_some ht hx

/-- Adds a statement that is no pipeline. -/
theorem Made.addStatement {n : Node (Tree NodeId)} {node : Node NodeId}
    (h : Made i s t (ts ++ us)) (hc : n.children.Perm us) (hn : node = n.map Tree.label)
    (hf : ∀ id, Tree.Fits .statement (.mk id n)) (hplaced : Placed isArray n)
    (hall : ∀ x ∈ us, x.All (Placed isArray))
    (hcall : ∀ id : NodeId, (Tree.mk id n).call? = none) :
    Outcome (Parser.add node start) i t (Lost s) (Yields i s ts fun x _ => IsClosedStatement x) :=
  h.add hc hn fun id => ⟨.mk' (hf id) hplaced fun c hcn => hall c (hc.subset hcn), hcall id⟩

theorem Made.typeConstraint (h : Made i s t ts) :
    Outcome Grammar.typeConstraint i t (Lost s) (Yields i s ts fun x _ => Parsed .constraint x) := by
  rw [Grammar.typeConstraint, Outcome.start_bind]
  refine h.expect fun _ => ?_
  refine (typeName_finds h.advance).bind fun ty u ⟨hu, hty⟩ => ?_
  refine hu.expect fun _ => ?_
  exact hu.advance.addLeaf (n := .typeConstraint ty) rfl rfl
    fun id => .mk' (.typeConstraint hty) trivial nofun

theorem caughtTypesUpTo_add {n : Nat} (h : Made i s t ts) :
    Outcome (caughtTypesUpTo n) i t (Lost s) (Adds i s ts fun ids xs _ =>
      ids = xs.map Tree.label ∧ ∀ x ∈ xs, Parsed .constraint x) := by
  induction n generalizing t ts with
  | zero => exact h.toKept
  | succ n ih =>
    rw [caughtTypesUpTo, Outcome.peek_bind]
    split
    · refine h.typeConstraint.bind ?_
      rintro _ u ⟨x, hu, rfl, hx⟩
      rw [Outcome.skipNewlines_bind, Outcome.eat_ite]
      constructor
      · intro _
        rw [Outcome.skipNewlines_bind]
        refine (ih ((hu.past _).advance.past _)).bind ?_
        rintro _ v ⟨xs, hv, rfl, hxs⟩
        exact ⟨x :: xs, by simpa using hv, rfl, by simpa [hx] using hxs⟩
      · intro _
        exact ⟨[x], hu.past _, rfl, by simpa using hx⟩
    · exact ⟨[], by simpa using h, rfl, nofun⟩

variable (hg : Sound g)
include hg

theorem optionalPipeline_yields (h : Made i s t ts) :
    Outcome (optionalPipeline g) i t (Lost s) (YieldsOptional i s ts (Parsed .pipeline)) := by
  rw [optionalPipeline, Outcome.peek_bind]
  split
  · exact yieldsOptional_none h
  · exact yieldsOptional_none h
  · exact yieldsOptional_none h
  · exact yieldsOptional_none h
  · exact yieldsOptional_none h
  · refine (pipeline_yields hg h).bind ?_
    rintro _ u ⟨x, hu, rfl, hx⟩
    exact yieldsOptional_some hu hx.parsed

theorem condition_yields (h : Made i s t ts) :
    Outcome (condition g) i t (Lost s) (Yields i s ts fun x _ => Parsed .pipeline x) := by
  rw [condition, Outcome.skipNewlines_bind]
  refine (h.past _).expect fun _ => ?_
  rw [Outcome.skipNewlines_bind]
  refine (pipeline_yields hg ((h.past _).advance.past _)).bind ?_
  rintro _ u ⟨x, hu, rfl, hx⟩
  rw [Outcome.skipNewlines_bind]
  exact (hu.past _).expect fun _ => ⟨x, (hu.past _).advance, rfl, hx.parsed⟩

theorem clause_adds (h : Made i s t ts) :
    Outcome (clause g) i t (Lost s) (Adds i s ts fun id xs _ => ∃ x y, xs = [x, y] ∧
      id = (x.label, y.label) ∧ Parsed .pipeline x ∧ Parsed .body y) := by
  rw [clause]
  refine (condition_yields hg h).bind ?_
  rintro _ u ⟨x, hu, rfl, hx⟩
  refine (statementBlock_yields hg hu).bind ?_
  rintro _ v ⟨y, hv, rfl, hy⟩
  exact ⟨[x, y], by simpa using hv, x, y, rfl, rfl, hx, hy⟩

theorem ifStatement_yields (h : Made i s t ts) :
    Outcome (ifStatement g start) i t (Lost s)
      (Yields i s ts fun x _ => IsClosedStatement x) := by
  have hclause {u : State} {us : List (Tree NodeId)} (hu : Made i s u us) :
      Outcome (do advance; clause g) i u (Lost s) (Adds i s us fun id xs _ => ∃ x y, xs = [x, y] ∧
        id = (x.label, y.label) ∧ Parsed .pipeline x ∧ Parsed .body y) := by
    rw [Outcome.advance_bind]
    exact clause_adds hg hu.advance
  have hbody {u : State} {us : List (Tree NodeId)} (hu : Made i s u us) :
      Outcome (do advance; statementBlock g) i u (Lost s) (Adds i s us fun id xs _ =>
        ∃ x, xs = [x] ∧ x.label = id ∧ Parsed .body x) := by
    rw [Outcome.advance_bind]
    exact Yields.adds (statementBlock_yields hg hu.advance) fun _ _ hx => hx
  rw [ifStatement, Outcome.advance_bind]
  refine (clause_adds hg h.advance).bind ?_
  rintro _ u ⟨_, hu, test, body, rfl, rfl, htest, hbody'⟩
  refine (hu.many fun hv => afterWord?_adds hv hclause).bind ?_
  rintro _ v ⟨xs, hv, hxs⟩
  obtain ⟨ps, rfl, rfl, hps⟩ := hxs.pairs (T := fun p => Parsed .pipeline p.1 ∧ Parsed .body p.2)
  refine (afterWord?_adds hv hbody).bind fun o w hadds => ?_
  obtain ⟨elseBody, hw, rfl, helse⟩ := Adds.optional hadds
  have hall : ∀ p ∈ (test, body) :: ps, Parsed .pipeline p.1 ∧ Parsed .body p.2 := by
    simpa [htest, hbody'] using hps
  have hmade : Made i s w (ts ++ ((((test, body) :: ps).flatMap fun p => [p.1, p.2]) ++
      elseBody.toList)) := by simpa using hw
  refine hmade.addStatement (n := .ifStatement ((test, body) :: ps) elseBody) (.refl _) rfl
    (fun id => .ifStatement (by simp) (fun p hp => (hall p hp).1.fits) (fun p hp => (hall p hp).2.fits)
      fun x hx => (helse x hx).fits) trivial ?_ fun _ => rfl
  intro c hc
  rcases List.mem_append.mp hc with hc | hc
  · obtain ⟨p, hp, hc⟩ := List.mem_flatMap.mp hc
    simp only [List.mem_cons, List.not_mem_nil, or_false] at hc
    rcases hc with rfl | rfl
    · exact (hall p hp).1.placed
    · exact (hall p hp).2.placed
  · exact (helse c (Option.mem_toList.mp hc)).placed

theorem whileLoop_yields (h : Made i s t ts) (hlabel : IsLabel label) :
    Outcome (whileLoop g label start) i t (Lost s)
      (Yields i s ts fun x _ => IsClosedStatement x) := by
  rw [whileLoop, Outcome.advance_bind]
  refine (clause_adds hg h.advance).bind ?_
  rintro _ u ⟨_, hu, test, body, rfl, rfl, htest, hbody⟩
  exact hu.addStatement (n := .whileLoop label test body) (.refl _) rfl
    (fun id => .whileLoop hlabel htest.fits hbody.fits) trivial
    (by simp [htest.placed, hbody.placed]) fun _ => rfl

theorem doLoop_yields (h : Made i s t ts) (hlabel : IsLabel label) :
    Outcome (doLoop g label start) i t (Lost s)
      (Yields i s ts fun x _ => IsClosedStatement x) := by
  rw [doLoop, Outcome.advance_bind]
  refine (statementBlock_yields hg h.advance).bind ?_
  rintro _ u ⟨body, hu, rfl, hbody⟩
  rw [Outcome.skipNewlines_bind, Outcome.atWord_bind]
  split
  · rw [Outcome.advance_bind]
    refine (condition_yields hg (hu.past _).advance).bind ?_
    rintro _ v ⟨test, hv, rfl, htest⟩
    have hmade : Made i s v (ts ++ [body, test]) := by simpa using hv
    exact hmade.addStatement (n := .doWhile label body test) (.refl _) rfl
      (fun id => .doWhile hlabel hbody.fits htest.fits) trivial
      (by simp [htest.placed, hbody.placed]) fun _ => rfl
  · rw [Outcome.atWord_bind]
    split
    · rw [Outcome.advance_bind]
      refine (condition_yields hg (hu.past _).advance).bind ?_
      rintro _ v ⟨test, hv, rfl, htest⟩
      have hmade : Made i s v (ts ++ [body, test]) := by simpa using hv
      exact hmade.addStatement (n := .doUntil label body test) (.refl _) rfl
        (fun id => .doUntil hlabel hbody.fits htest.fits) trivial
        (by simp [htest.placed, hbody.placed]) fun _ => rfl
    · exact (hu.past _).unexpected

theorem forPart_yields {stop : Mark} (h : Made i s t ts) :
    Outcome (forPart g stop) i t (Lost s) (YieldsOptional i s ts (Parsed .pipeline)) := by
  have hrest {u : State} {o : Option NodeId}
      (hu : YieldsOptional i s ts (Parsed .pipeline) o u) :
      Outcome (do skipNewlines; expect stop; return o) i u (Lost s)
        (YieldsOptional i s ts (Parsed .pipeline)) := by
    obtain ⟨y, hu, rfl, hy⟩ := hu
    rw [Outcome.skipNewlines_bind]
    exact (hu.past _).expect fun _ => ⟨y, (hu.past _).advance, rfl, hy⟩
  rw [forPart, Outcome.skipNewlines_bind, Outcome.peek_bind]
  split
  · simp only [Outcome.pure_bind]
    exact hrest (yieldsOptional_none (h.past _))
  · refine Outcome.bind (P := YieldsOptional i s ts (Parsed .pipeline)) ?_ fun o u hu => hrest hu
    exact Yields.optional (pipeline_yields hg (h.past _)) fun _ _ hx => hx.parsed

theorem forLoop_yields (h : Made i s t ts) (hlabel : IsLabel label) :
    Outcome (forLoop g label start) i t (Lost s)
      (Yields i s ts fun x _ => IsClosedStatement x) := by
  rw [forLoop, Outcome.advance_bind, Outcome.skipNewlines_bind]
  refine (h.advance.past _).expect fun _ => ?_
  refine (forPart_yields hg (h.advance.past _).advance).bind ?_
  rintro _ u ⟨first, hu, rfl, hfirst⟩
  refine (forPart_yields hg hu).bind ?_
  rintro _ v ⟨test, hv, rfl, htest⟩
  refine (forPart_yields hg hv).bind ?_
  rintro _ w ⟨step, hw, rfl, hstep⟩
  refine (statementBlock_yields hg hw).bind ?_
  rintro _ r ⟨body, hr, rfl, hbody⟩
  have hmade : Made i s r (ts ++ (first.toList ++ test.toList ++ step.toList ++ [body])) := by
    simpa using hr
  refine hmade.addStatement (n := .forLoop label first test step body) (.refl _) rfl
    (fun id => .forLoop hlabel (fun x hx => (hfirst x hx).fits) (fun x hx => (htest x hx).fits)
      (fun x hx => (hstep x hx).fits) hbody.fits) trivial ?_ fun _ => rfl
  simp only [List.mem_append, Option.mem_toList, List.mem_singleton]
  rintro c (((hc | hc) | hc) | rfl)
  · exact (hfirst c hc).placed
  · exact (htest c hc).placed
  · exact (hstep c hc).placed
  · exact hbody.placed

theorem forEach_yields (h : Made i s t ts) (hlabel : IsLabel label) :
    Outcome (forEach g label start) i t (Lost s)
      (Yields i s ts fun x _ => IsClosedStatement x) := by
  rw [forEach, Outcome.advance_bind, Outcome.skipNewlines_bind]
  refine (h.advance.past _).expect fun _ => ?_
  rw [Outcome.skipNewlines_bind]
  refine (bareVariable_yields ((h.advance.past _).advance.past _)).bind ?_
  rintro _ u ⟨item, hu, rfl, hitem⟩
  rw [Outcome.skipNewlines_bind, Outcome.atWord_bind]
  split
  · rw [Outcome.advance_bind, Outcome.skipNewlines_bind]
    refine (pipeline_yields hg ((hu.past _).advance.past _)).bind ?_
    rintro _ v ⟨items, hv, rfl, hitems⟩
    rw [Outcome.skipNewlines_bind]
    refine (hv.past _).expect fun _ => ?_
    refine (statementBlock_yields hg (hv.past _).advance).bind ?_
    rintro _ w ⟨body, hw, rfl, hbody⟩
    have hmade : Made i s w (ts ++ [item, items, body]) := by simpa using hw
    exact hmade.addStatement (n := .forEach label item items body) (.refl _) rfl
      (fun id => .forEach hlabel hitem.fits hitems.parsed.fits hbody.fits) trivial
      (by simp [hitem.placed, hitems.parsed.placed, hbody.placed]) fun _ => rfl
  · exact (hu.past _).unexpected

theorem catchClause_yields (h : Made i s t ts) :
    Outcome (catchClause g) i t (Lost s) (Yields i s ts fun x _ => Parsed .handler x) := by
  rw [catchClause, Outcome.start_bind, Outcome.advance_bind]
  refine Outcome.bind (P := Adds i s ts fun ids xs _ => ids = xs.map Tree.label ∧
    ∀ x ∈ xs, Parsed .constraint x) ?_ ?_
  · rw [caughtTypes, Outcome.place_bind]
    exact caughtTypesUpTo_add h.advance
  · rintro _ u ⟨xs, hu, rfl, hxs⟩
    refine (statementBlock_yields hg hu).bind ?_
    rintro _ v ⟨body, hv, rfl, hbody⟩
    rw [List.append_assoc] at hv
    refine hv.add (n := .catchClause xs body) (.refl _) rfl fun id =>
      .mk' (.catchClause (fun x hx => (hxs x hx).fits) hbody.fits) trivial ?_
    intro c hc
    rcases List.mem_append.mp hc with hc | hc
    · exact (hxs c hc).placed
    · obtain rfl := List.mem_singleton.mp hc
      exact hbody.placed

theorem tryStatement_yields (h : Made i s t ts) :
    Outcome (tryStatement g start) i t (Lost s)
      (Yields i s ts fun x _ => IsClosedStatement x) := by
  have hbody {u : State} {us : List (Tree NodeId)} (hu : Made i s u us) :
      Outcome (do advance; statementBlock g) i u (Lost s) (Adds i s us fun id xs _ =>
        ∃ x, xs = [x] ∧ x.label = id ∧ Parsed .body x) := by
    rw [Outcome.advance_bind]
    exact Yields.adds (statementBlock_yields hg hu.advance) fun _ _ hx => hx
  rw [tryStatement, Outcome.advance_bind]
  refine (statementBlock_yields hg h.advance).bind ?_
  rintro _ u ⟨body, hu, rfl, hbody'⟩
  refine (hu.many fun hv => afterWord?_adds hv fun hw =>
    Yields.adds (catchClause_yields hg hw) fun _ _ hx => hx).bind ?_
  rintro _ v ⟨catches, hv, hcatches⟩
  obtain ⟨rfl, hall⟩ := hcatches.labels
  refine (afterWord?_adds hv hbody).bind fun o w hadds => ?_
  obtain ⟨cleanup, hw, rfl, hcleanup⟩ := Adds.optional hadds
  split
  · exact hw.toKept
  · rename_i hne
    have hmade : Made i s w (ts ++ ([body] ++ catches ++ cleanup.toList)) := by simpa using hw
    refine hmade.addStatement (n := .tryStatement body catches cleanup) (.refl _) rfl
      (fun id => .tryStatement hbody'.fits (fun x hx => (hall x hx).fits)
        (fun x hx => (hcleanup x hx).fits) ?_) trivial ?_ fun _ => rfl
    · rintro rfl rfl
      exact hne rfl
    · simp only [List.mem_append, Option.mem_toList, List.mem_singleton]
      rintro c ((rfl | hc) | hc)
      · exact hbody'.placed
      · exact (hall c hc).placed
      · exact (hcleanup c hc).placed

theorem trap_yields (h : Made i s t ts) :
    Outcome (trap g start) i t (Lost s) (Yields i s ts fun x _ => IsClosedStatement x) := by
  have hrest {u : State} {o : Option NodeId}
      (hu : YieldsOptional i s ts (Parsed .constraint) o u) :
      Outcome (do add (.trap o (← statementBlock g)) start) i u (Lost s)
        (Yields i s ts fun x _ => IsClosedStatement x) := by
    obtain ⟨type, hu, rfl, htype⟩ := hu
    refine (statementBlock_yields hg hu).bind ?_
    rintro _ v ⟨body, hv, rfl, hbody⟩
    rw [List.append_assoc] at hv
    refine hv.addStatement (n := .trap type body) (.refl _) rfl
      (fun id => .trap (fun x hx => (htype x hx).fits) hbody.fits) trivial ?_ fun _ => rfl
    simp only [List.mem_append, Option.mem_toList, List.mem_singleton]
    rintro c (hc | rfl)
    · exact (htype c hc).placed
    · exact hbody.placed
  rw [Grammar.trap, Outcome.advance_bind, Outcome.peek_bind]
  split
  · refine Outcome.bind (P := YieldsOptional i s ts (Parsed .constraint)) ?_ fun o u hu => hrest hu
    exact Yields.optional h.advance.typeConstraint fun _ _ hx => hx
  · simp only [Outcome.pure_bind]
    exact hrest (yieldsOptional_none h.advance)

theorem functionDefinition_yields {isFilter : Bool} (h : Made i s t ts) :
    Outcome (functionDefinition g isFilter start) i t (Lost s)
      (Yields i s ts fun x _ => IsClosedStatement x) := by
  have hrest {name word : String} (hname : IsBareWord (.word word) name) {u : State}
      {parameters : List (Tree NodeId)} (hu : Made i s u (ts ++ parameters))
      (hall : ∀ x ∈ parameters, Parsed .parameter x) :
      Outcome (do
        skipNewlines
        expect .lbrace
        let body ← scriptBlock g .brace
        expect .rbrace
        add (.functionDefinition name isFilter (parameters.map Tree.label) body) start) i u (Lost s)
        (Yields i s ts fun x _ => IsClosedStatement x) := by
    rw [Outcome.skipNewlines_bind]
    refine (hu.past _).expect fun _ => ?_
    refine (scriptBlock_yields hg (hu.past _).advance).bind ?_
    rintro _ v ⟨body, hv, rfl, hbody⟩
    refine hv.expect fun _ => ?_
    have hmade := hv.advance
    rw [List.append_assoc] at hmade
    refine hmade.addStatement (n := .functionDefinition name isFilter parameters body) (.refl _) rfl
      (fun id => .functionDefinition hname (fun x hx => (hall x hx).fits) hbody.fits) trivial ?_
      fun _ => rfl
    simp only [List.mem_append, List.mem_singleton]
    rintro c (hc | rfl)
    · exact (hall c hc).placed
    · exact hbody.placed
  rw [functionDefinition, Outcome.advance_bind, Outcome.peek_bind]
  split
  · rename_i word hword
    refine (bareWordText_finds h.advance hword).bind ?_
    rintro name u ⟨hu, hname⟩
    obtain ⟨token, htoken, hvalue⟩ := hname.first
    obtain rfl := Option.some.inj (hword.symm.trans htoken)
    rw [Outcome.eat_ite]
    constructor
    · intro _
      refine (hu.advance.untilParen (fun hv => Yields.adds (parameter_yields hg hv)
        fun _ _ hx => hx) fun ha _ => ha).bind ?_
      rintro _ v ⟨xs, hv, hxs⟩
      obtain ⟨rfl, hall⟩ := hxs.labels
      exact hrest hvalue hv hall
    · intro _
      simp only [Outcome.pure_bind]
      exact @hrest _ _ hvalue _ [] (by simpa using hu) (by simp)
  · exact h.advance.unexpected

theorem loopRule?_yields {keyword : String} {next : Option Token} {rule : Parser NodeId}
    (hr : loopRule? g keyword next label start = some rule) (h : Made i s t ts)
    (hlabel : IsLabel label) :
    Outcome rule i t (Lost s) (Yields i s ts fun x _ => IsClosedStatement x) := by
  unfold loopRule? at hr
  split at hr
  · obtain rfl := Option.some.inj hr
    exact whileLoop_yields hg h hlabel
  · obtain rfl := Option.some.inj hr
    exact doLoop_yields hg h hlabel
  · obtain rfl := Option.some.inj hr
    exact forLoop_yields hg h hlabel
  · split at hr
    · obtain rfl := Option.some.inj hr
      exact forEach_yields hg h hlabel
    · exact absurd hr nofun
  · exact absurd hr nofun

theorem statementRule?_yields {keyword : String} {rule : Parser NodeId}
    (hr : statementRule? g keyword start = some rule) (h : Made i s t ts) :
    Outcome rule i t (Lost s) (Yields i s ts fun x _ => IsClosedStatement x) := by
  unfold statementRule? at hr
  split at hr
  · obtain rfl := Option.some.inj hr
    exact functionDefinition_yields hg h
  · obtain rfl := Option.some.inj hr
    exact functionDefinition_yields hg h
  · obtain rfl := Option.some.inj hr
    exact ifStatement_yields hg h
  · obtain rfl := Option.some.inj hr
    exact tryStatement_yields hg h
  · obtain rfl := Option.some.inj hr
    exact trap_yields hg h
  · obtain rfl := Option.some.inj hr
    rw [Outcome.advance_bind]
    refine (optionalPipeline_yields hg h.advance).bind ?_
    rintro _ u ⟨value, hu, rfl, hvalue⟩
    exact hu.addStatement (n := .returnStatement value) (.refl _) rfl
      (fun id => .returnStatement fun x hx => (hvalue x hx).fits) trivial
      (fun x hx => (hvalue x (Option.mem_toList.mp hx)).placed) fun _ => rfl
  · obtain rfl := Option.some.inj hr
    rw [Outcome.advance_bind]
    refine (optionalPipeline_yields hg h.advance).bind ?_
    rintro _ u ⟨value, hu, rfl, hvalue⟩
    exact hu.addStatement (n := .throwStatement value) (.refl _) rfl
      (fun id => .throwStatement fun x hx => (hvalue x hx).fits) trivial
      (fun x hx => (hvalue x (Option.mem_toList.mp hx)).placed) fun _ => rfl
  · obtain rfl := Option.some.inj hr
    rw [Outcome.advance_bind]
    refine (jumpLabel?_finds h.advance).bind fun label u ⟨hu, hlabel⟩ => ?_
    exact hu.addLeaf (n := .breakStatement label) rfl rfl
      fun id => ⟨.mk' (.breakStatement hlabel) trivial nofun, rfl⟩
  · obtain rfl := Option.some.inj hr
    rw [Outcome.advance_bind]
    refine (jumpLabel?_finds h.advance).bind fun label u ⟨hu, hlabel⟩ => ?_
    exact hu.addLeaf (n := .continueStatement label) rfl rfl
      fun id => ⟨.mk' (.continueStatement hlabel) trivial nofun, rfl⟩
  · exact absurd hr nofun

omit hg in
/-- A word that starts neither a loop nor another statement of its own is no keyword. -/
theorem rules_eq_none {keyword : String} {next : Option Token}
    (hloop : loopRule? g keyword next label start = none)
    (hrule : statementRule? g keyword start = none) :
    keyword ∉ keywords ∧ (keyword = "foreach" → next ≠ some (.mark .lparen)) := by
  constructor
  · intro hmem
    simp only [keywords, List.mem_cons, List.not_mem_nil, or_false] at hmem
    rcases hmem with rfl | rfl | rfl | rfl | rfl | rfl | rfl | rfl | rfl | rfl | rfl | rfl <;>
      simp [loopRule?, statementRule?] at hloop hrule
  · rintro rfl rfl
    exact absurd hloop nofun

theorem statement_yields (h : Made i s t ts) :
    Outcome (statement g) i t (Lost s) (Yields i s ts fun x _ => StatementAt t.place x) := by
  rw [statement, Outcome.start_bind]
  refine (label?_finds h).bind fun label u ⟨hu, hlabel, hnone⟩ => ?_
  rw [Outcome.place_bind]
  dsimp only
  split
  · rename_i rule hrule
    obtain ⟨keyword, -, hrule⟩ := Option.bind_eq_some_iff.mp hrule
    exact (loopRule?_yields hg hrule hu hlabel).imp fun id v hv => hv.imp fun x hx => hx.statementAt
  · rename_i hloop
    split
    · exact hu.toKept
    · rename_i hlab
      have hplace : u.place = t.place := by
        cases label with
        | none => exact hnone rfl
        | some w => exact absurd rfl hlab
      split
      · rename_i rule hrule
        obtain ⟨keyword, -, hrule⟩ := Option.bind_eq_some_iff.mp hrule
        exact (statementRule?_yields hg hrule hu).imp fun id v hv => hv.imp fun x hx => hx.statementAt
      · rename_i hrule
        have hwords {w : String} (hw : t.place.current? = some (.word w)) :
            Text.lower w ∉ keywords ∧
              (Text.lower w = "foreach" → t.place.next? ≠ some (.mark .lparen)) := by
          rw [hplace] at hloop hrule
          simp only [hw, Option.bind_some] at hloop hrule
          exact rules_eq_none hloop hrule
        refine (pipeline_yields hg hu).imp fun id v hv => hv.imp fun x hx => ?_
        have hopens : Opens t.place x := hplace ▸ hx.opens
        refine ⟨⟨.statementPipeline hx.parsed.fits ?_, hx.parsed.placed⟩, hopens, ?_⟩
        · intro name others value word hcall hnode hword
          obtain ⟨token, value', htoken, hnode', hvalue, -⟩ := hopens name others hcall
          rw [hnode] at hnode'
          obtain ⟨rfl, -⟩ := Node.stringConstant.inj hnode'
          obtain rfl := bareWord_first hvalue hword
          exact (hwords htoken).1
        · intro name y others hcall hname hlead
          obtain ⟨w, next, hw, hkey, hnext, hparen, -⟩ :=
            hopens.keyword hcall hname (by decide) (by decide)
          rcases hparen hlead with hl | harray
          · obtain rfl := lead_eq_paren hl
            refine absurd hnext ((hwords hw).2 ?_)
            rw [Text.caselessEq_iff.mp hkey]
            decide
          · exact harray

end ScriptInject.Grammar
