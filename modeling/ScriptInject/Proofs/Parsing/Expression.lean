import ScriptInject.Proofs.Parsing.Block
/-! What the rules for expressions leave behind. -/
namespace ScriptInject.Grammar
open Grammar.Parser ScriptInject.Tree

variable {i : Input} {d b : Nat} {s t u : State} {ts us : List (Tree NodeId)} {x : Tree NodeId}
  {p q : Place} {g : Nested} {start : Nat}

/-- What stands in the place of a statement in parentheses is a part of it. -/
theorem mem_of_loneArray? {a : Arena} {id : NodeId} (h : a.Holds x)
    (hid : loneArray? a x.label = some id) :
    ∃ y ∈ x.subtrees, y.label = id ∧ y.isMarker = false := by
  unfold loneArray? at hid
  split at hid
  · rename_i element hpipeline
    obtain ⟨y, hy, rfl⟩ := h.exists_child hpipeline (List.mem_singleton_self element)
    split at hid
    · rename_i expression helement
      obtain ⟨z, hz, rfl⟩ := (h.child hy).exists_child helement (List.mem_singleton_self expression)
      split at hid
      · rename_i harray
        refine ⟨z, ?_, Option.some.inj hid, ?_⟩
        · exact mem_subtrees_of_child hy (mem_subtrees_of_child hz (self_mem_subtrees z))
        · rw [Tree.isMarker, ← ((h.child hy).child hz).marker?, Arena.marker?, harray]
          rfl
      · cases hid
    · cases hid
  · cases hid

theorem doubleQuoted_bears {body : String} {kind : StringKind} (h : Grown d s t ts)
    (hlt : t.place.left < p.left) :
    Outcome (doubleQuoted body kind start) i t (Fails d s) (Bears d s ts (Plain p)) := by
  rw [doubleQuoted]
  split
  · exact h.addLeaf (n := .expandableString body kind) rfl rfl rfl fun id => ⟨rfl, hlt⟩
  · exact h.addLeaf (n := .stringConstant body kind) rfl rfl rfl fun id => ⟨rfl, hlt⟩

variable (hg : Steady i d g)
include hg

theorem paren_bears (h : Grown d s t ts) (hpos : 0 < t.place.left) :
    Outcome (paren g start) i t (Fails d s) (Bears d s ts (Plain t.place)) := by
  rw [paren, Outcome.advance_bind, Outcome.skipNewlines_bind]
  refine (pipeline_bears hg (h.goto _)).bind ?_
  rintro _ u ⟨x, hu, rfl, hmark, hlt⟩
  rw [Outcome.skipNewlines_bind]
  refine (hu.goto _).expect fun _ => ?_
  rw [Outcome.get_bind]
  split
  · rename_i array harray
    obtain ⟨y, hy, rfl, hmark'⟩ := mem_of_loneArray? (hu.held x (by simp)) harray
    exact ⟨y, (hu.subtree hy).goto _, rfl, hmark', by grind⟩
  · exact (hu.goto _).add (n := .paren x) (.refl _) rfl
      (.of rfl rfl (by simp [unattributed, Node.children, hmark])) fun id => ⟨rfl, by grind⟩

theorem statementsInParens_gathers (h : Grown d s t ts) (hpos : 0 < t.place.left) :
    Outcome (statementsInParens g) i t (Fails d s) (Gathers d s ts fun ids xs q =>
      q.left < t.place.left ∧ ids = xs.map label ∧ ∀ x ∈ xs, x.isMarker = false) := by
  rw [statementsInParens, Outcome.advance_bind]
  refine (statementList_gathers hg (h.goto _)).bind ?_
  rintro _ u ⟨xs, hu, hle, rfl, hxs⟩
  exact hu.expect fun _ => ⟨xs, hu.goto _, by grind, rfl, hxs⟩

theorem hashtablePair_gathers (h : Grown d s t ts) :
    Outcome (hashtablePair g) i t (Fails d s) (Gathers d s ts fun o xs q =>
      q.left ≤ t.place.left ∧ (o = none → xs = []) ∧ ∀ r, o = some r → q.left < t.place.left ∧
        ∃ x y, xs = [x, y] ∧ r = (x.label, y.label) ∧ x.isMarker = false ∧ y.isMarker = false) := by
  rw [hashtablePair, Outcome.skipTerminators_bind, Outcome.eat_ite]
  constructor
  · intro _
    exact ⟨[], by simpa using h.goto _, by grind, fun _ => rfl, by simp⟩
  · intro _
    rw [Outcome.peek_bind]
    split
    case' h_1 => refine (bareWord_bears (h.goto _) (by grind)).bind ?_
    case' h_2 => refine (hg.unary (h.goto _)).bind ?_
    all_goals
      rintro _ u ⟨x, hu, rfl, hx, hlt⟩
      rw [Outcome.skipNewlines_bind]
      refine (hu.goto _).expect fun _ => ?_
      rw [Outcome.skipNewlines_bind]
      refine (hg.statement (hu.goto _)).bind ?_
      rintro _ v ⟨y, hv, rfl, hy, hlt'⟩
      have hdone : Outcome (pure (some (x.label, y.label))) i v (Fails d s)
          (Gathers d s ts fun o xs q => q.left ≤ t.place.left ∧ (o = none → xs = []) ∧
            ∀ r, o = some r → q.left < t.place.left ∧ ∃ x y, xs = [x, y] ∧
              r = (x.label, y.label) ∧ x.isMarker = false ∧ y.isMarker = false) := by
        refine ⟨[x, y], by simpa using hv, by grind, by simp, fun r hr => ⟨by grind, ?_⟩⟩
        exact ⟨x, y, rfl, (Option.some.inj hr).symm, hx, hy⟩
      rw [Outcome.peek_bind]
      split
      iterate 3 exact hdone
      exact hv.unexpected

theorem hashtable_bears (h : Grown d s t ts) (hpos : 0 < t.place.left) :
    Outcome (hashtable g start) i t (Fails d s) (Bears d s ts (Plain t.place)) := by
  rw [hashtable, Outcome.advance_bind]
  refine ((h.goto _).many fun hu _ => hashtablePair_gathers hg hu).bind ?_
  rintro ids u ⟨xs, hu, hle, hxs⟩
  obtain ⟨ps, rfl, rfl, hps⟩ := Each.pairs (T := fun r => r.1.isMarker = false ∧
    r.2.isMarker = false) hxs
  refine hu.add (n := .hashtable ps) (.refl _) rfl (.of rfl rfl ?_) fun id => ⟨rfl, by grind⟩
  intro c hc
  obtain ⟨⟨x, y⟩, hp, hc⟩ := List.mem_flatMap.mp hc
  have hxy := hps _ hp
  simp only [List.mem_cons, List.not_mem_nil, or_false] at hc
  rcases hc with rfl | rfl
  · exact hxy.1
  · exact hxy.2

theorem scriptBlockExpression_bears (h : Grown d s t ts) (hpos : 0 < t.place.left) :
    Outcome (scriptBlockExpression g start) i t (Fails d s) (Bears d s ts (Plain t.place)) := by
  rw [scriptBlockExpression, Outcome.advance_bind]
  refine (scriptBlock_bears hg (h.goto _)).bind ?_
  rintro _ u ⟨x, hu, rfl, hmark, hle⟩
  refine hu.expect fun _ => ?_
  exact (hu.goto _).add (n := .scriptBlockExpression x) (.refl _) rfl
    (.of rfl rfl (by simp [unattributed, Node.children, hmark])) fun id => ⟨rfl, by grind⟩

section Accesses

variable {primary : Parser NodeId}
  (hprimary : ∀ {s u us}, Grown d s u us → u.place.left < b →
    Outcome primary i u (Fails d s) (Bears d s us (Plain u.place)))
include hprimary

theorem memberAccess_bears {isStatic nullConditional : Bool} (h : Grown d s t (ts ++ [x]))
    (hx : x.isMarker = false) (hpos : 0 < t.place.left) (hb : t.place.left ≤ b) :
    Outcome (memberAccess g primary start x.label isStatic nullConditional) i t (Fails d s)
      (Bears d s ts (Plain t.place)) := by
  have hrest {name : NodeId} {u : State}
      (hu : Bears d s (ts ++ [x]) (fun y q => y.isMarker = false ∧ q.left < t.place.left) name u) :
      Outcome (do
        let p ← place
        if p.current? = some (.mark .lparen) ∧ p.isAdjacent then
          advance
          let arguments ← untilParen (g.expression false)
          add (.invokeMember x.label name arguments isStatic nullConditional) start
        else add (.member x.label name isStatic nullConditional) start) i u (Fails d s)
        (Bears d s ts (Plain t.place)) := by
    obtain ⟨y, hu, rfl, hy, hlt⟩ := hu
    rw [Outcome.place_bind]
    split
    · rw [Outcome.advance_bind]
      refine ((hu.goto _).untilParen (R := IsPlain) fun hv _ => ?_).bind ?_
      · refine (Bears.item (hg.expression false hv)).imp ?_
        rintro id w ⟨xs, hw, hlt, hxs⟩
        exact ⟨xs, hw, Nat.le_of_lt hlt, hxs⟩
      · rintro ids v ⟨xs, hv, hle, hxs⟩
        obtain ⟨rfl, hall⟩ := hxs.labels
        replace hv : Grown d s v (ts ++ ([x, y] ++ xs)) := by simpa using hv
        refine hv.add (n := .invokeMember x y xs isStatic nullConditional) (.refl _) rfl
          (.of rfl rfl ?_) fun id => ⟨rfl, by grind⟩
        simpa [unattributed, Node.children, hx, hy] using hall
    · replace hu : Grown d s u (ts ++ [x, y]) := by simpa using hu
      exact hu.add (n := .member x y isStatic nullConditional) (.refl _) rfl
        (.of rfl rfl (by simp [unattributed, Node.children, hx, hy])) fun id => ⟨rfl, by grind⟩
  rw [memberAccess, Outcome.advance_bind, Outcome.start_bind, Outcome.peek_bind]
  split
  · rename_i w _
    rw [Outcome.advance_bind]
    exact ((h.goto _).addLeaf (n := .stringConstant w .bareWord) rfl rfl rfl
      fun id => ⟨rfl, by grind⟩).bind fun _ _ hu => hrest hu
  · refine (hprimary (h.goto _) (by grind)).bind ?_
    rintro _ _ ⟨y, hu, hid, hy, hlt⟩
    exact hrest ⟨y, hu, hid, hy, by grind⟩

omit hprimary in
theorem indexAccess_bears {nullConditional : Bool} (h : Grown d s t (ts ++ [x]))
    (hx : x.isMarker = false) (hpos : 0 < t.place.left) :
    Outcome (indexAccess g start x.label nullConditional) i t (Fails d s)
      (Bears d s ts (Plain t.place)) := by
  rw [indexAccess, Outcome.advance_bind, Outcome.skipNewlines_bind]
  refine (hg.expression true (h.goto _)).bind ?_
  rintro _ u ⟨key, hu, rfl, hkey, hlt⟩
  rw [Outcome.skipNewlines_bind]
  refine (hu.goto _).expect fun _ => ?_
  replace hu : Grown d s u (ts ++ [x, key]) := by simpa using hu
  exact (hu.goto _).add (n := .index x key nullConditional) (.refl _) rfl
    (.of rfl rfl (by simp [unattributed, Node.children, hx, hkey])) fun id => ⟨rfl, by grind⟩

omit hg hprimary in
theorem trailingUnary_bears {operator : UnaryOperator} (h : Grown d s t (ts ++ [x]))
    (hx : x.isMarker = false) (hpos : 0 < t.place.left) :
    Outcome (trailingUnary start operator x.label) i t (Fails d s)
      (Bears d s ts (Plain t.place)) := by
  rw [trailingUnary, Outcome.advance_bind]
  exact (h.goto _).add (n := .unary operator x) (.refl _) rfl
    (.of rfl rfl (by simp [unattributed, Node.children, hx])) fun id => ⟨rfl, by grind⟩

theorem access_bears (h : Grown d s t (ts ++ [x])) (hx : x.isMarker = false)
    (hb : t.place.left ≤ b) :
    Outcome (access g primary start x.label) i t (Fails d s) fun o u => (o = none → u = t) ∧
      ∀ id, o = some id → Bears d s ts (Plain t.place) id u := by
  have hsome {r : Parser NodeId}
      (hr : Outcome r i t (Fails d s) (Bears d s ts (Plain t.place))) :
      Outcome (do return some (← r)) i t (Fails d s) fun o u => (o = none → u = t) ∧
        ∀ id, o = some id → Bears d s ts (Plain t.place) id u :=
    hr.bind fun id u hu => ⟨nofun, fun id' hid => by rwa [← Option.some.inj hid]⟩
  have hnone : Outcome (pure none) i t (Fails d s) fun o u => (o = none → u = t) ∧
      ∀ id, o = some id → Bears d s ts (Plain t.place) id u := ⟨fun _ => rfl, nofun⟩
  rw [access, Outcome.place_bind]
  split
  · exact hnone
  · split
    · exact hsome (memberAccess_bears hg hprimary h hx (by grind) hb)
    · exact hsome (memberAccess_bears hg hprimary h hx (by grind) hb)
    · exact hsome (memberAccess_bears hg hprimary h hx (by grind) hb)
    · exact hsome (indexAccess_bears hg h hx (by grind))
    · exact hsome (indexAccess_bears hg h hx (by grind))
    · exact hsome (trailingUnary_bears h hx (by grind))
    · exact hsome (trailingUnary_bears h hx (by grind))
    · exact hnone

theorem accesses_bears (h : Grown d s t (ts ++ [x])) (hx : Plain p x t.place)
    (hb : t.place.left ≤ b) :
    Outcome (accesses g primary start x.label) i t (Fails d s) (Bears d s ts (Plain p)) := by
  let I (id : NodeId) (u : State) : Prop :=
    Bears d s ts (Plain p) id u ∧ u.place.left ≤ t.place.left
  have hrun : Outcome (accesses g primary start x.label) i t (Fails d s) I := by
    refine Outcome.iterate_of_left (I := I) ⟨⟨x, h, rfl, hx⟩, Nat.le_refl _⟩ ?_
    rintro _ u ⟨⟨y, hu, rfl, hy⟩, hle⟩
    refine (access_bears hg hprimary hu hy.1 (by omega)).imp fun o v ⟨hnone, hsome⟩ => ?_
    refine ⟨fun ho => ?_, fun id ho => ?_⟩
    · rw [hnone ho]
      exact ⟨⟨y, hu, rfl, hy⟩, hle⟩
    · obtain ⟨z, hv, hid, hz, hlt⟩ := hsome id ho
      exact ⟨⟨⟨z, hv, hid, hz, Nat.lt_trans hlt hy.2⟩, by omega⟩, hlt⟩
  exact hrun.imp fun _ _ hu => hu.1

theorem bracketExpression_bears (h : Grown d s t ts) (hb : t.place.left ≤ b) :
    Outcome (bracketExpression g primary) i t (Fails d s) (Bears d s ts (Plain t.place)) := by
  rw [bracketExpression, Outcome.start_bind]
  refine (bracketHead_gathers hg h).bind ?_
  rintro head u ⟨xs, hu, hlt, hhead⟩
  cases head with
  | attributeSpec id =>
    obtain ⟨mark, rfl, rfl⟩ := hhead
    refine (hg.unary hu).bind ?_
    rintro _ v ⟨child, hv, rfl, hchild, hlt'⟩
    rw [List.append_assoc] at hv
    exact hv.add (n := .annotated mark child) (.refl _) rfl
      (.of rfl rfl (by simp [unattributed, hchild])) fun id => ⟨rfl, by grind⟩
  | type ty =>
    obtain rfl : xs = [] := hhead
    rw [List.append_nil] at hu
    dsimp only
    rw [Outcome.peek_bind]
    split
    · refine (hu.addLeaf (R := Plain t.place) (n := .typeConstraint ty) rfl rfl rfl
        fun id => ⟨rfl, hlt⟩).bind ?_
      rintro _ v ⟨type, hv, rfl, htype⟩
      refine (hg.unary hv).bind ?_
      rintro _ w ⟨child, hw, rfl, hchild⟩
      rw [List.append_assoc] at hw
      exact hw.add (n := .convert type child) (.refl _) rfl
        (.of rfl rfl (by simp [unattributed, Node.children, htype.1, hchild.1]))
        fun id => ⟨rfl, by grind [Plain]⟩
    · refine (hu.addLeaf (R := Plain t.place) (n := .typeExpression ty) rfl rfl rfl
        fun id => ⟨rfl, hlt⟩).bind ?_
      rintro _ v ⟨y, hv, rfl, hy⟩
      exact accesses_bears hg hprimary hv hy (by grind [Plain])

end Accesses

theorem primaryUpTo_bears {n : Nat} (h : Grown d s t ts) (hn : t.place.left < n) :
    Outcome (primaryUpTo g n) i t (Fails d s) (Bears d s ts (Plain t.place)) := by
  induction n generalizing s t ts with
  | zero => exact absurd hn (Nat.not_lt_zero _)
  | succ n ih =>
    rw [primaryUpTo, Outcome.start_bind, Outcome.peek_bind]
    split
    · rw [Outcome.advance_bind]
      exact variableRef_bears (h.goto _) (by grind)
    · rename_i name _
      rw [Outcome.advance_bind]
      exact (h.goto _).addLeaf (n := .variableRef name true) rfl rfl rfl fun id => ⟨rfl, by grind⟩
    · rename_i text _
      rw [Outcome.advance_bind]
      exact (h.goto _).addLeaf (n := .number text) rfl rfl rfl fun id => ⟨rfl, by grind⟩
    · rename_i value _
      rw [Outcome.advance_bind]
      exact (h.goto _).addLeaf (n := .stringConstant value .singleQuoted) rfl rfl rfl
        fun id => ⟨rfl, by grind⟩
    · rename_i value _
      rw [Outcome.advance_bind]
      exact (h.goto _).addLeaf (n := .stringConstant value .singleQuotedHereString) rfl rfl rfl
        fun id => ⟨rfl, by grind⟩
    · rw [Outcome.advance_bind]
      exact doubleQuoted_bears (h.goto _) (by grind)
    · rw [Outcome.advance_bind]
      exact doubleQuoted_bears (h.goto _) (by grind)
    · rename_i w _
      rw [Outcome.advance_bind]
      exact (h.goto _).addLeaf (n := .stringConstant w .bareWord) rfl rfl rfl
        fun id => ⟨rfl, by grind⟩
    · exact paren_bears hg h (by grind)
    · refine (statementsInParens_gathers hg h (by grind)).bind ?_
      rintro _ u ⟨xs, hu, hlt, rfl, hxs⟩
      exact hu.add (n := .subExpression xs) (.refl _) rfl (.of rfl rfl hxs) fun id => ⟨rfl, hlt⟩
    · refine (statementsInParens_gathers hg h (by grind)).bind ?_
      rintro _ u ⟨xs, hu, hlt, rfl, hxs⟩
      exact hu.add (n := .arrayExpression xs) (.refl _) rfl (.of rfl rfl hxs) fun id => ⟨rfl, hlt⟩
    · exact hashtable_bears hg h (by grind)
    · exact scriptBlockExpression_bears hg h (by grind)
    · exact bracketExpression_bears hg (fun hu hlt => ih hu hlt) h (by omega)
    · exact h.unexpected

theorem primary_bears (h : Grown d s t ts) :
    Outcome (primary g) i t (Fails d s) (Bears d s ts (Plain t.place)) := by
  rw [primary, Outcome.place_bind]
  exact primaryUpTo_bears hg h (Nat.lt_succ_self _)

theorem unary_bears (h : Grown d s t ts) :
    Outcome (unary g) i t (Fails d s) (Bears d s ts (Plain t.place)) := by
  rw [unary, Outcome.start_bind, Outcome.peek_bind]
  split
  · exact bracketExpression_bears hg (fun hu _ => primary_bears hg hu) h (Nat.le_refl _)
  · split
    · rename_i operator hoperator
      have hpos : 0 < t.place.left := by
        cases hcur : t.place.current? with
        | none => simp [hcur] at hoperator
        | some token => exact Place.left_pos hcur
      rw [Outcome.advance_bind]
      refine (hg.unary (h.goto _)).bind ?_
      rintro _ u ⟨child, hu, rfl, hchild, hlt⟩
      exact hu.add (n := .unary operator child) (.refl _) rfl
        (.of rfl rfl (by simp [unattributed, Node.children, hchild])) fun id => ⟨rfl, by grind⟩
    · refine (primary_bears hg h).bind ?_
      rintro _ u ⟨x, hu, rfl, hx⟩
      exact accesses_bears hg (fun hv _ => primary_bears hg hv) hu hx (Nat.le_refl _)

theorem listOrOperand_bears {commas : Bool} (h : Grown d s t ts) :
    Outcome (listOrOperand g commas) i t (Fails d s) (Bears d s ts (Plain t.place)) := by
  rw [listOrOperand, Outcome.start_bind]
  split
  · rw [Outcome.eat_ite]
    constructor
    · intro _
      rw [Outcome.skipNewlines_bind]
      refine (hg.unary (h.goto _)).bind ?_
      rintro _ u ⟨x, hu, rfl, hx, hlt⟩
      exact hu.add (n := .arrayLiteral [x]) (.refl _) rfl
        (.of rfl rfl (by simp [unattributed, Node.children, hx])) fun id => ⟨rfl, by grind⟩
    · intro _
      exact operands_bears hg h
  · exact hg.unary h

omit hg in
theorem binary_bears {operand : Parser NodeId} {levels : Nat} (h : Grown d s t ts)
    (hoperand : ∀ {s u us}, Grown d s u us →
      Outcome operand i u (Fails d s) (Bears d s us (Plain u.place))) :
    Outcome (binary operand levels) i t (Fails d s) (Bears d s ts (Plain t.place)) := by
  induction levels generalizing s t ts with
  | zero => exact hoperand h
  | succ levels ih =>
    rw [binary, Outcome.start_bind]
    refine (ih h).bind fun left u hu => ?_
    refine Outcome.iterate_of_left (I := fun id v => Bears d s ts (Plain t.place) id v)
      (F := fun id v => Bears d s ts (Plain t.place) id v) hu ?_
    rintro _ v ⟨x, hv, rfl, hx⟩
    have hnone : Outcome (pure none) i v (Fails d s) fun o w =>
        (o = none → Bears d s ts (Plain t.place) x.label w) ∧
        ∀ id, o = some id → Bears d s ts (Plain t.place) id w ∧ w.place.left < v.place.left :=
      ⟨fun _ => ⟨x, hv, rfl, hx⟩, by simp⟩
    rw [binaryStep, Outcome.peek_bind]
    split
    · rename_i operator _
      split
      · rw [Outcome.advance_bind, Outcome.skipNewlines_bind]
        refine (ih (hv.goto _)).bind ?_
        rintro _ w ⟨y, hw, rfl, hy, hlt⟩
        rw [List.append_assoc] at hw
        refine (hw.add (R := fun z q => Plain t.place z q ∧ q.left < v.place.left)
          (n := .binary operator x y) (.refl _) rfl
          (.of rfl rfl (by simp [unattributed, Node.children, hx.1, hy]))
          fun id => ⟨⟨rfl, by grind [Plain]⟩, by grind⟩).bind ?_
        rintro _ z ⟨e, hz, rfl, he, hlt'⟩
        exact ⟨by simp, fun id hid => ⟨⟨e, hz, Option.some.inj hid, he⟩, hlt'⟩⟩
      · exact hnone
    · exact hnone

theorem ternary_bears {commas : Bool} (h : Grown d s t ts) :
    Outcome (ternary g commas) i t (Fails d s) (Bears d s ts (Plain t.place)) := by
  rw [ternary, Outcome.start_bind]
  refine (binary_bears h fun hu => listOrOperand_bears hg hu).bind ?_
  rintro _ u ⟨x, hu, rfl, hx⟩
  rw [Outcome.eat_ite]
  constructor
  · intro _
    rw [Outcome.skipNewlines_bind]
    refine (hg.expression commas (hu.goto _)).bind ?_
    rintro _ v ⟨y, hv, rfl, hy⟩
    rw [Outcome.skipNewlines_bind]
    refine (hv.goto _).expect fun _ => ?_
    rw [Outcome.skipNewlines_bind]
    refine (hg.expression commas (hv.goto _)).bind ?_
    rintro _ w ⟨z, hw, rfl, hz⟩
    replace hw : Grown d s w (ts ++ [x, y, z]) := by simpa using hw
    exact hw.add (n := .ternary x y z) (.refl _) rfl
      (.of rfl rfl (by simp [unattributed, Node.children, hx.1, hy.1, hz.1]))
      fun id => ⟨rfl, by grind [Plain]⟩
  · intro _
    exact ⟨x, hu, rfl, hx⟩

end ScriptInject.Grammar
