import ScriptInject.Proofs.Parsing.Expression
/-! What the rules for statements leave behind. -/
namespace ScriptInject.Grammar
open Grammar.Parser ScriptInject.Tree

variable {α : Type} {i : Input} {d : Nat} {s t u : State} {ts us : List (Tree NodeId)}
  {x : Tree NodeId} {p q : Place} {g : Nested} {start : Nat} {label : Option String}

/-- A tree that may be missing. -/
def IsOption (o : Option NodeId) (xs : List (Tree NodeId)) : Prop :=
  ∃ y : Option (Tree NodeId), o = y.map Tree.label ∧ xs = y.toList ∧
    ∀ x ∈ y.toList, x.isMarker = false

theorem isOption_none : IsOption none [] := ⟨none, rfl, rfl, nofun⟩

theorem isOption_some (hx : x.isMarker = false) : IsOption (some x.label) [x] :=
  ⟨some x, rfl, rfl, by simpa using hx⟩

theorem isOption_of {o : Option NodeId} {xs : List (Tree NodeId)} (hnone : o = none → xs = [])
    (hsome : ∀ id, o = some id → IsPlain id xs) : IsOption o xs := by
  cases o with
  | none =>
    rw [hnone rfl]
    exact isOption_none
  | some id =>
    obtain ⟨x, rfl, rfl, hx⟩ := hsome id rfl
    exact isOption_some hx

theorem wordAt_pos {keyword : String} (h : p.wordAt keyword = true) : 0 < p.left := by
  cases hcur : p.current? with
  | none => simp [Place.wordAt, hcur] at h
  | some token => exact Place.left_pos hcur

theorem label?_passes (h : Grown d s t ts) :
    Outcome label? i t (Fails d s) fun _ u => Grown d s u ts ∧ u.place.left ≤ t.place.left := by
  rw [label?, Outcome.place_bind]
  split
  · split
    · rw [Outcome.advanceBy_bind]
      exact ⟨h.goto _, by grind⟩
    · exact ⟨h, Nat.le_refl _⟩
  · exact ⟨h, Nat.le_refl _⟩

theorem jumpLabel?_passes (h : Grown d s t ts) :
    Outcome jumpLabel? i t (Fails d s) fun _ u => Grown d s u ts ∧
      u.place.left ≤ t.place.left := by
  rw [jumpLabel?, Outcome.peek_bind]
  split
  · rw [Outcome.advance_bind]
    exact ⟨h.goto _, by grind⟩
  · exact ⟨h, Nat.le_refl _⟩

theorem afterWord?_gathers {keyword : String} {r : Parser α} {R : α → List (Tree NodeId) → Prop}
    (h : Grown d s t ts)
    (hr : ∀ {u}, Grown d s u ts → 0 < u.place.left → Outcome r i u (Fails d s)
      (Gathers d s ts fun a xs q => q.left < u.place.left ∧ R a xs)) :
    Outcome (afterWord? keyword r) i t (Fails d s) (Gathers d s ts fun o xs q =>
      q.left ≤ t.place.left ∧ (o = none → xs = []) ∧
        ∀ a, o = some a → q.left < t.place.left ∧ R a xs) := by
  rw [afterWord?, Outcome.place_bind, Outcome.skipNewlines_bind, Outcome.atWord_bind]
  split
  · rename_i hword
    refine (hr (h.goto _) (wordAt_pos hword)).bind ?_
    rintro a u ⟨xs, hu, hlt, ha⟩
    refine ⟨xs, hu, by grind, by simp, fun b hb => ⟨by grind, ?_⟩⟩
    rwa [← Option.some.inj hb]
  · rw [Outcome.goto_bind]
    exact ⟨[], by simpa using h, Nat.le_refl _, fun _ => rfl, by simp⟩

theorem caughtTypesUpTo_gathers {n : Nat} (h : Grown d s t ts) (hn : t.place.left < n) :
    Outcome (caughtTypesUpTo n) i t (Fails d s) (Gathers d s ts (Plains t.place)) := by
  induction n generalizing t ts with
  | zero => exact absurd hn (Nat.not_lt_zero _)
  | succ n ih =>
    rw [caughtTypesUpTo, Outcome.peek_bind]
    split
    · refine (typeConstraint_bears h).bind ?_
      rintro _ u ⟨x, hu, rfl, hx, hlt⟩
      rw [Outcome.skipNewlines_bind, Outcome.eat_ite]
      constructor
      · intro _
        rw [Outcome.skipNewlines_bind]
        refine (ih (hu.goto _) (by grind)).bind ?_
        rintro _ v ⟨xs, hv, hle, rfl, hxs⟩
        exact ⟨x :: xs, by simpa using hv, by grind, rfl, by simpa [hx] using hxs⟩
      · intro _
        exact ⟨[x], hu.goto _, by grind, rfl, by simpa using hx⟩
    · exact ⟨[], by simpa using h, Nat.le_refl _, rfl, by simp⟩

variable (hg : Steady i d g)
include hg

theorem optionalPipeline_gathers (h : Grown d s t ts) :
    Outcome (optionalPipeline g) i t (Fails d s) (Gathers d s ts fun o xs q =>
      q.left ≤ t.place.left ∧ IsOption o xs) := by
  have hnone : Outcome (pure none) i t (Fails d s) (Gathers d s ts fun o xs q =>
      q.left ≤ t.place.left ∧ IsOption o xs) :=
    ⟨[], by simpa using h, Nat.le_refl _, isOption_none⟩
  rw [optionalPipeline, Outcome.peek_bind]
  split
  · exact hnone
  · exact hnone
  · exact hnone
  · exact hnone
  · exact hnone
  · refine (pipeline_bears hg h).bind ?_
    rintro _ u ⟨x, hu, rfl, hx, hlt⟩
    exact ⟨[x], hu, Nat.le_of_lt hlt, isOption_some hx⟩

theorem condition_bears (h : Grown d s t ts) :
    Outcome (condition g) i t (Fails d s) (Bears d s ts (Plain t.place)) := by
  rw [condition, Outcome.skipNewlines_bind]
  refine (h.goto _).expect fun _ => ?_
  rw [Outcome.skipNewlines_bind]
  refine (pipeline_bears hg (h.goto _)).bind ?_
  rintro _ u ⟨x, hu, rfl, hx, hlt⟩
  rw [Outcome.skipNewlines_bind]
  exact (hu.goto _).expect fun _ => ⟨x, hu.goto _, rfl, hx, by grind⟩

/-- A condition and a block. -/
def IsClause (r : NodeId × NodeId) (xs : List (Tree NodeId)) : Prop :=
  ∃ x y, xs = [x, y] ∧ r = (x.label, y.label) ∧ x.isMarker = false ∧ y.isMarker = false

theorem clause_gathers (h : Grown d s t ts) :
    Outcome (clause g) i t (Fails d s) (Gathers d s ts fun r xs q =>
      q.left < t.place.left ∧ IsClause r xs) := by
  rw [clause]
  refine (condition_bears hg h).bind ?_
  rintro _ u ⟨x, hu, rfl, hx, hlt⟩
  refine (statementBlock_bears hg hu).bind ?_
  rintro _ v ⟨y, hv, rfl, hy, hlt'⟩
  exact ⟨[x, y], by simpa using hv, by omega, x, y, rfl, rfl, hx, hy⟩

theorem laterClause_gathers {keyword : String} (h : Grown d s t ts) :
    Outcome (afterWord? keyword (do advance; clause g)) i t (Fails d s)
      (Gathers d s ts fun o xs q => q.left ≤ t.place.left ∧ (o = none → xs = []) ∧
        ∀ r, o = some r → q.left < t.place.left ∧ IsClause r xs) := by
  refine afterWord?_gathers h fun {u} hu hpos => ?_
  rw [Outcome.advance_bind]
  refine (clause_gathers hg (hu.goto _)).imp ?_
  rintro r v ⟨xs, hv, hlt, hr⟩
  exact ⟨xs, hv, by grind, hr⟩

theorem finalBlock_gathers {keyword : String} (h : Grown d s t ts) :
    Outcome (afterWord? keyword (do advance; statementBlock g)) i t (Fails d s)
      (Gathers d s ts fun o xs q => q.left ≤ t.place.left ∧ IsOption o xs) := by
  refine (afterWord?_gathers (R := IsPlain) h fun {u} hu hpos => ?_).imp ?_
  · rw [Outcome.advance_bind]
    exact Bears.item (Bears.mono (statementBlock_bears hg (hu.goto _)) (by grind))
  · rintro o u ⟨xs, hu, hle, hnone, hsome⟩
    exact ⟨xs, hu, hle, isOption_of hnone fun id ho => (hsome id ho).2⟩

theorem ifStatement_bears (h : Grown d s t ts) (hpos : 0 < t.place.left) :
    Outcome (ifStatement g start) i t (Fails d s) (Bears d s ts (Plain t.place)) := by
  rw [ifStatement, Outcome.advance_bind]
  refine (clause_gathers hg (h.goto _)).bind ?_
  rintro first u ⟨xs, hu, hlt, hfirst⟩
  refine (hu.many (R := IsClause) fun hv _ => laterClause_gathers hg hv).bind ?_
  rintro others v ⟨ys, hv, hle, hothers⟩
  have hall : Each IsClause (first :: others) (xs ++ ys) := .cons hfirst hothers
  obtain ⟨ps, hps, hys, hmarks⟩ := Each.pairs (T := fun r => r.1.isMarker = false ∧
    r.2.isMarker = false) hall
  refine (finalBlock_gathers hg hv).bind ?_
  rintro _ w ⟨_, hw, hle', z, rfl, rfl, hz⟩
  rw [List.append_assoc, List.append_assoc, ← List.append_assoc xs, hys] at hw
  rw [hps]
  refine hw.add (n := .ifStatement ps z) (.refl _) rfl (.of rfl rfl ?_) fun id => ⟨rfl, by grind⟩
  intro c hc
  rcases List.mem_append.mp hc with hc | hc
  · obtain ⟨⟨x, y⟩, hp, hc⟩ := List.mem_flatMap.mp hc
    have hxy := hmarks _ hp
    simp only [List.mem_cons, List.not_mem_nil, or_false] at hc
    rcases hc with rfl | rfl
    · exact hxy.1
    · exact hxy.2
  · exact hz c hc

theorem whileLoop_bears (h : Grown d s t ts) (hpos : 0 < t.place.left) :
    Outcome (whileLoop g label start) i t (Fails d s) (Bears d s ts (Plain t.place)) := by
  rw [whileLoop, Outcome.advance_bind]
  refine (clause_gathers hg (h.goto _)).bind ?_
  rintro _ u ⟨_, hu, hlt, x, y, rfl, rfl, hx, hy⟩
  exact hu.add (n := .whileLoop label x y) (.refl _) rfl
    (.of rfl rfl (by simp [unattributed, Node.children, hx, hy])) fun id => ⟨rfl, by grind⟩

theorem doLoop_bears (h : Grown d s t ts) (hpos : 0 < t.place.left) :
    Outcome (doLoop g label start) i t (Fails d s) (Bears d s ts (Plain t.place)) := by
  rw [doLoop, Outcome.advance_bind]
  refine (statementBlock_bears hg (h.goto _)).bind ?_
  rintro _ u ⟨body, hu, rfl, hbody, hlt⟩
  rw [Outcome.skipNewlines_bind, Outcome.atWord_bind]
  split
  · rw [Outcome.advance_bind]
    refine (condition_bears hg (hu.goto _)).bind ?_
    rintro _ v ⟨test, hv, rfl, htest, hlt'⟩
    rw [List.append_assoc] at hv
    exact hv.add (n := .doWhile label body test) (.refl _) rfl
      (.of rfl rfl (by simp [unattributed, Node.children, hbody, htest]))
      fun id => ⟨rfl, by grind⟩
  · rw [Outcome.atWord_bind]
    split
    · rw [Outcome.advance_bind]
      refine (condition_bears hg (hu.goto _)).bind ?_
      rintro _ v ⟨test, hv, rfl, htest, hlt'⟩
      rw [List.append_assoc] at hv
      exact hv.add (n := .doUntil label body test) (.refl _) rfl
        (.of rfl rfl (by simp [unattributed, Node.children, hbody, htest]))
        fun id => ⟨rfl, by grind⟩
    · exact (hu.goto _).unexpected

theorem forPart_gathers {stop : Mark} (h : Grown d s t ts) :
    Outcome (forPart g stop) i t (Fails d s) (Gathers d s ts fun o xs q =>
      q.left ≤ t.place.left ∧ IsOption o xs) := by
  have hrest {part : Option NodeId} {u : State}
      (hu : Gathers d s ts (fun o xs q => q.left ≤ t.place.left ∧ IsOption o xs) part u) :
      Outcome (do
        skipNewlines
        expect stop
        return part) i u (Fails d s) (Gathers d s ts fun o xs q =>
          q.left ≤ t.place.left ∧ IsOption o xs) := by
    obtain ⟨xs, hu, hle, hpart⟩ := hu
    rw [Outcome.skipNewlines_bind]
    exact (hu.goto _).expect fun _ => ⟨xs, hu.goto _, by grind, hpart⟩
  rw [forPart, Outcome.skipNewlines_bind, Outcome.peek_bind]
  split
  · rw [Outcome.pure_bind]
    exact hrest ⟨[], by simpa using h.goto _, by grind, isOption_none⟩
  · refine Outcome.bind (P := Gathers d s ts fun o xs q =>
      q.left ≤ t.place.left ∧ IsOption o xs) ?_ fun _ _ hu => hrest hu
    refine (pipeline_bears hg (h.goto _)).map ?_
    rintro _ u ⟨x, hu, rfl, hx, hlt⟩
    exact ⟨[x], hu, by grind, isOption_some hx⟩

theorem forLoop_bears (h : Grown d s t ts) (hpos : 0 < t.place.left) :
    Outcome (forLoop g label start) i t (Fails d s) (Bears d s ts (Plain t.place)) := by
  rw [forLoop, Outcome.advance_bind, Outcome.skipNewlines_bind]
  refine (h.goto _).expect fun _ => (forPart_gathers hg (h.goto _)).bind ?_
  rintro _ u ⟨_, hu, hle, x, rfl, rfl, hx⟩
  refine (forPart_gathers hg hu).bind ?_
  rintro _ v ⟨_, hv, hle', y, rfl, rfl, hy⟩
  refine (forPart_gathers hg hv).bind ?_
  rintro _ w ⟨_, hw, hle'', z, rfl, rfl, hz⟩
  refine (statementBlock_bears hg hw).bind ?_
  rintro _ r ⟨body, hr, rfl, hbody, hlt⟩
  replace hr : Grown d s r (ts ++ (x.toList ++ y.toList ++ z.toList ++ [body])) := by
    simpa using hr
  refine hr.add (n := .forLoop label x y z body) (.refl _) rfl (.of rfl rfl ?_)
    fun id => ⟨rfl, by grind⟩
  simp only [unattributed, Node.children, List.mem_append, List.mem_singleton]
  rintro c (((hc | hc) | hc) | rfl)
  · exact hx c hc
  · exact hy c hc
  · exact hz c hc
  · exact hbody

theorem forEach_bears (h : Grown d s t ts) (hpos : 0 < t.place.left) :
    Outcome (forEach g label start) i t (Fails d s) (Bears d s ts (Plain t.place)) := by
  rw [forEach, Outcome.advance_bind, Outcome.skipNewlines_bind]
  refine (h.goto _).expect fun _ => ?_
  rw [Outcome.skipNewlines_bind]
  refine (bareVariable_bears (h.goto _)).bind ?_
  rintro _ u ⟨item, hu, rfl, hitem, hlt⟩
  rw [Outcome.skipNewlines_bind, Outcome.atWord_bind]
  split
  · rw [Outcome.advance_bind, Outcome.skipNewlines_bind]
    refine (pipeline_bears hg (hu.goto _)).bind ?_
    rintro _ v ⟨items, hv, rfl, hitems, hlt'⟩
    rw [Outcome.skipNewlines_bind]
    refine (hv.goto _).expect fun _ => (statementBlock_bears hg (hv.goto _)).bind ?_
    rintro _ w ⟨body, hw, rfl, hbody, hlt''⟩
    replace hw : Grown d s w (ts ++ [item, items, body]) := by simpa using hw
    exact hw.add (n := .forEach label item items body) (.refl _) rfl
      (.of rfl rfl (by simp [unattributed, Node.children, hitem, hitems, hbody]))
      fun id => ⟨rfl, by grind⟩
  · exact (hu.goto _).unexpected

theorem catchClause_bears (h : Grown d s t ts) (hpos : 0 < t.place.left) :
    Outcome (catchClause g) i t (Fails d s) (Bears d s ts (Plain t.place)) := by
  rw [catchClause, Outcome.start_bind, Outcome.advance_bind, caughtTypes, Outcome.assoc,
    Outcome.place_bind]
  refine (caughtTypesUpTo_gathers (h.goto _) (Nat.lt_succ_self _)).bind ?_
  rintro _ u ⟨xs, hu, hle, rfl, hxs⟩
  refine (statementBlock_bears hg hu).bind ?_
  rintro _ v ⟨body, hv, rfl, hbody, hlt⟩
  rw [List.append_assoc] at hv
  refine hv.add (n := .catchClause xs body) (.refl _) rfl (.of rfl rfl ?_)
    fun id => ⟨rfl, by grind⟩
  simp only [unattributed, Node.children, List.mem_append, List.mem_singleton]
  rintro c (hc | rfl)
  · exact hxs c hc
  · exact hbody

theorem laterCatch_gathers {keyword : String} (h : Grown d s t ts) :
    Outcome (afterWord? keyword (catchClause g)) i t (Fails d s)
      (Gathers d s ts fun o xs q => q.left ≤ t.place.left ∧ (o = none → xs = []) ∧
        ∀ id, o = some id → q.left < t.place.left ∧ IsPlain id xs) :=
  afterWord?_gathers h fun hu hpos => Bears.item (catchClause_bears hg hu hpos)

theorem tryStatement_bears (h : Grown d s t ts) (hpos : 0 < t.place.left) :
    Outcome (tryStatement g start) i t (Fails d s) (Bears d s ts (Plain t.place)) := by
  rw [tryStatement, Outcome.advance_bind]
  refine (statementBlock_bears hg (h.goto _)).bind ?_
  rintro _ u ⟨body, hu, rfl, hbody, hlt⟩
  refine (hu.many (R := IsPlain) fun hv _ => laterCatch_gathers hg hv).bind ?_
  rintro ids v ⟨xs, hv, hle, hxs⟩
  obtain ⟨rfl, hall⟩ := hxs.labels
  refine (finalBlock_gathers hg hv).bind ?_
  rintro _ w ⟨_, hw, hle', y, rfl, rfl, hy⟩
  split
  · exact hw.fails (by simp)
  · replace hw : Grown d s w (ts ++ (body :: xs ++ y.toList)) := by simpa using hw
    refine hw.add (n := .tryStatement body xs y) (.refl _) rfl (.of rfl rfl ?_)
      fun id => ⟨rfl, by grind⟩
    simp only [unattributed, Node.children, List.mem_append, List.mem_singleton]
    rintro c ((rfl | hc) | hc)
    · exact hbody
    · exact hall c hc
    · exact hy c hc

theorem trap_bears (h : Grown d s t ts) (hpos : 0 < t.place.left) :
    Outcome (trap g start) i t (Fails d s) (Bears d s ts (Plain t.place)) := by
  have hrest {type : Option NodeId} {u : State}
      (hu : Gathers d s ts (fun o xs q => q.left < t.place.left ∧ IsOption o xs) type u) :
      Outcome (do
        let body ← statementBlock g
        add (.trap type body) start) i u (Fails d s) (Bears d s ts (Plain t.place)) := by
    obtain ⟨_, hu, hlt, x, rfl, rfl, hx⟩ := hu
    refine (statementBlock_bears hg hu).bind ?_
    rintro _ v ⟨body, hv, rfl, hbody, hlt'⟩
    rw [List.append_assoc] at hv
    refine hv.add (n := .trap x body) (.refl _) rfl (.of rfl rfl ?_) fun id => ⟨rfl, by grind⟩
    simp only [unattributed, Node.children, List.mem_append, List.mem_singleton]
    rintro c (hc | rfl)
    · exact hx c hc
    · exact hbody
  rw [trap, Outcome.advance_bind, Outcome.peek_bind]
  split
  · refine Outcome.bind (P := Gathers d s ts fun o xs q => q.left < t.place.left ∧ IsOption o xs) ?_
      fun _ _ hu => hrest hu
    refine (typeConstraint_bears (h.goto _)).map ?_
    rintro _ u ⟨x, hu, rfl, hx, hlt⟩
    exact ⟨[x], hu, by grind, isOption_some hx⟩
  · rw [Outcome.pure_bind]
    exact hrest ⟨[], by simpa using h.goto _, by grind, isOption_none⟩

theorem functionDefinition_bears {isFilter : Bool} (h : Grown d s t ts)
    (hpos : 0 < t.place.left) :
    Outcome (functionDefinition g isFilter start) i t (Fails d s) (Bears d s ts (Plain t.place)) := by
  have hrest {name : String} {ids : List NodeId} {u : State}
      (hu : Gathers d s ts (Plains t.place) ids u) :
      Outcome (do
        skipNewlines
        expect .lbrace
        let body ← scriptBlock g .brace
        expect .rbrace
        add (.functionDefinition name isFilter ids body) start) i u (Fails d s)
        (Bears d s ts (Plain t.place)) := by
    obtain ⟨xs, hu, hle, rfl, hxs⟩ := hu
    rw [Outcome.skipNewlines_bind]
    refine (hu.goto _).expect fun _ => (scriptBlock_bears hg (hu.goto _)).bind ?_
    rintro _ v ⟨body, hv, rfl, hbody, hle'⟩
    refine hv.expect fun _ => ?_
    rw [List.append_assoc] at hv
    refine (hv.goto _).add (n := .functionDefinition name isFilter xs body) (.refl _) rfl
      (.of rfl rfl ?_) fun id => ⟨rfl, by grind⟩
    simp only [unattributed, Node.children, List.mem_append, List.mem_singleton]
    rintro c (hc | rfl)
    · exact hxs c hc
    · exact hbody
  rw [functionDefinition, Outcome.advance_bind, Outcome.peek_bind]
  split
  · refine (bareWordText_passes (h.goto _) (by grind)).bind ?_
    rintro name u ⟨hu, hlt⟩
    rw [Outcome.eat_ite]
    constructor
    · intro _
      refine ((hu.goto _).untilParen (R := IsPlain) fun hv _ => ?_).bind ?_
      · refine (Bears.item (parameter_bears hg hv)).imp ?_
        rintro id w ⟨xs, hw, hlt, hxs⟩
        exact ⟨xs, hw, Nat.le_of_lt hlt, hxs⟩
      · rintro ids v ⟨xs, hv, hle, hxs⟩
        exact hrest ⟨xs, hv, plains_of_each (by grind) hxs⟩
    · intro _
      simp only [Outcome.pure_bind]
      exact hrest ⟨[], by simpa using hu, by grind, rfl, by simp⟩
  · exact (h.goto _).unexpected

theorem loopRule?_bears {keyword : String} {next : Option Token} {rule : Parser NodeId}
    (hr : loopRule? g keyword next label start = some rule) (h : Grown d s t ts)
    (hpos : 0 < t.place.left) : Outcome rule i t (Fails d s) (Bears d s ts (Plain t.place)) := by
  unfold loopRule? at hr
  split at hr
  · obtain rfl := Option.some.inj hr
    exact whileLoop_bears hg h hpos
  · obtain rfl := Option.some.inj hr
    exact doLoop_bears hg h hpos
  · obtain rfl := Option.some.inj hr
    exact forLoop_bears hg h hpos
  · split at hr
    · obtain rfl := Option.some.inj hr
      exact forEach_bears hg h hpos
    · exact absurd hr nofun
  · exact absurd hr nofun

theorem statementRule?_bears {keyword : String} {rule : Parser NodeId}
    (hr : statementRule? g keyword start = some rule) (h : Grown d s t ts)
    (hpos : 0 < t.place.left) : Outcome rule i t (Fails d s) (Bears d s ts (Plain t.place)) := by
  unfold statementRule? at hr
  split at hr
  · obtain rfl := Option.some.inj hr
    exact functionDefinition_bears hg h hpos
  · obtain rfl := Option.some.inj hr
    exact functionDefinition_bears hg h hpos
  · obtain rfl := Option.some.inj hr
    exact ifStatement_bears hg h hpos
  · obtain rfl := Option.some.inj hr
    exact tryStatement_bears hg h hpos
  · obtain rfl := Option.some.inj hr
    exact trap_bears hg h hpos
  · obtain rfl := Option.some.inj hr
    rw [Outcome.advance_bind]
    refine (optionalPipeline_gathers hg (h.goto _)).bind ?_
    rintro _ u ⟨_, hu, hle, x, rfl, rfl, hx⟩
    exact hu.add (n := .returnStatement x) (.refl _) rfl (.of rfl rfl hx)
      fun id => ⟨rfl, by grind⟩
  · obtain rfl := Option.some.inj hr
    rw [Outcome.advance_bind]
    refine (optionalPipeline_gathers hg (h.goto _)).bind ?_
    rintro _ u ⟨_, hu, hle, x, rfl, rfl, hx⟩
    exact hu.add (n := .throwStatement x) (.refl _) rfl (.of rfl rfl hx) fun id => ⟨rfl, by grind⟩
  · obtain rfl := Option.some.inj hr
    rw [Outcome.advance_bind]
    refine (jumpLabel?_passes (h.goto _)).bind fun label u ⟨hu, hle⟩ => ?_
    exact hu.addLeaf (n := .breakStatement label) rfl rfl rfl fun id => ⟨rfl, by grind⟩
  · obtain rfl := Option.some.inj hr
    rw [Outcome.advance_bind]
    refine (jumpLabel?_passes (h.goto _)).bind fun label u ⟨hu, hle⟩ => ?_
    exact hu.addLeaf (n := .continueStatement label) rfl rfl rfl fun id => ⟨rfl, by grind⟩
  · exact absurd hr nofun

omit hg in
/-- Where a rule is chosen by its keyword, there is a token. -/
theorem left_pos_of_keyword {p : Place} {f : String → Option (Parser NodeId)}
    {rule : Parser NodeId} (hr : (match p.current? with
      | some (.word w) => some (Text.lower w)
      | _ => none).bind f = some rule) : 0 < p.left := by
  cases hcur : p.current? with
  | none => simp [hcur] at hr
  | some token => exact Place.left_pos hcur

theorem statement_bears (h : Grown d s t ts) :
    Outcome (statement g) i t (Fails d s) (Bears d s ts (Plain t.place)) := by
  rw [statement, Outcome.start_bind]
  refine (label?_passes h).bind ?_
  rintro label u ⟨hu, hle⟩
  rw [Outcome.place_bind]
  dsimp only
  split
  · rename_i rule hrule
    have hleft := left_pos_of_keyword hrule
    obtain ⟨keyword, -, hrule⟩ := Option.bind_eq_some_iff.mp hrule
    exact Bears.mono (loopRule?_bears hg hrule hu hleft) hle
  · split
    · exact hu.fails (by simp)
    · split
      · rename_i rule hrule
        have hleft := left_pos_of_keyword hrule
        obtain ⟨keyword, -, hrule⟩ := Option.bind_eq_some_iff.mp hrule
        exact Bears.mono (statementRule?_bears hg hrule hu hleft) hle
      · exact Bears.mono (pipeline_bears hg hu) hle

end ScriptInject.Grammar
