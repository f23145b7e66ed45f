import ScriptInject.Proofs.Parsing.Basic
/-! What the rules for types, variables, annotations and parameters leave behind. -/
namespace ScriptInject.Grammar
open Grammar.Parser ScriptInject.Tree

variable {α : Type} {i : Input} {d : Nat} {s t u : State} {ts us : List (Tree NodeId)}
  {x : Tree NodeId} {p q : Place} {g : Nested} {path : String} {start : Nat}

/-- Nothing is added, and a token is read at least. -/
def Passes (d : Nat) (s : State) (ts : List (Tree NodeId)) (p : Place) : α → State → Prop :=
  fun _ t => Grown d s t ts ∧ t.place.left < p.left

theorem dottedName_passes (h : Grown d s t ts) :
    Outcome dottedName i t (Fails d s) (Passes d s ts t.place) := by
  rw [dottedName, Outcome.peek_bind]
  split
  · rw [Outcome.advance_bind]
    refine (Outcome.many_of_left (I := fun _ u => Passes d s ts t.place () u)
      ⟨h.goto _, by grind⟩ ?_).bind fun _ u hu => hu
    rintro words u ⟨hu, hlt⟩
    rw [Outcome.peek_bind, Outcome.peekNext_bind]
    split
    · rw [Outcome.advanceBy_bind]
      exact ⟨by simp, fun _ _ => ⟨⟨hu.goto _, by grind⟩, by grind⟩⟩
    · exact ⟨fun _ => ⟨hu, hlt⟩, by simp⟩
  · exact h.unexpected

variable {name : Parser TypeName}

theorem typeArgument_passes (h : Grown d s t ts)
    (hname : ∀ {u}, Grown d s u ts → u.place.left ≤ t.place.left →
      Outcome name i u (Fails d s) (Passes d s ts u.place)) :
    Outcome (typeArgument name) i t (Fails d s) (Passes d s ts t.place) := by
  rw [typeArgument, Outcome.eat_bind]
  constructor
  · intro _
    refine (hname (h.goto _) (by grind)).bind ?_
    rintro a u ⟨hu, hlt⟩
    exact hu.expect fun _ => ⟨hu.goto _, by grind⟩
  · intro _
    exact hname h (Nat.le_refl _)

theorem typeBracket_passes {r : TypeName × Nat} (h : Grown d s t ts)
    (hname : ∀ {u us}, Grown d s u us → u.place.left < t.place.left →
      Outcome name i u (Fails d s) (Passes d s us u.place)) :
    Outcome (typeBracket name r) i t (Fails d s) fun o u => Grown d s u ts ∧
      (o = none → u.place = t.place) ∧ (o ≠ none → u.place.left < t.place.left) := by
  rw [typeBracket, Outcome.peek_bind]
  split
  · rename_i hbracket
    rw [Outcome.peekNext_bind]
    split
    · rw [Outcome.advanceBy_bind]
      exact ⟨h.goto _, by simp, by grind⟩
    · rw [Outcome.start_bind]
      exact h.fails (by simp)
    · rw [Outcome.advance_bind]
      refine (typeArgument_passes (h.goto _) fun hv hle => hname hv (by grind)).bind ?_
      rintro first u ⟨hu, hlt⟩
      refine (hu.afterCommas (R := fun _ xs => xs = []) fun {v vs} hv hle =>
        (typeArgument_passes hv fun hw hle' => hname hw (by grind)).imp ?_).bind ?_
      · rintro a w ⟨hw, hlt'⟩
        exact ⟨[], by simpa using hw, by omega, rfl⟩
      · rintro others v ⟨xs, hv, hle, hothers⟩
        obtain ⟨rfl, -⟩ := (hothers.mono fun _ _ hxs => ⟨hxs, trivial⟩).values
        rw [List.append_nil] at hv
        exact hv.expect fun _ => ⟨hv.goto _, by simp, by grind⟩
    · exact ⟨h, fun _ => rfl, by simp⟩
  · exact ⟨h, fun _ => rfl, by simp⟩

theorem typeNameUpTo_passes {n : Nat} (h : Grown d s t ts) (hn : t.place.left < n) :
    Outcome (typeNameUpTo n) i t (Fails d s) (Passes d s ts t.place) := by
  induction n generalizing t ts with
  | zero => exact absurd hn (Nat.not_lt_zero _)
  | succ n ih =>
    rw [typeNameUpTo]
    refine (dottedName_passes h).bind fun name u hu => ?_
    refine (Outcome.iterate_of_left (I := fun _ v => Passes d s ts t.place () v)
      (F := fun _ v => Passes d s ts t.place () v) hu ?_).bind fun _ v hv => hv
    rintro r v ⟨hv, hlt⟩
    refine (typeBracket_passes hv fun hw hlt' => ih hw (by grind)).imp ?_
    rintro o w ⟨hw, hnone, hsome⟩
    refine ⟨fun ho => ⟨hw, by rwa [hnone ho]⟩, fun b ho => ?_⟩
    have hlt' := hsome (by simp [ho])
    exact ⟨⟨hw, by omega⟩, hlt'⟩

theorem typeName_passes (h : Grown d s t ts) :
    Outcome Grammar.typeName i t (Fails d s) (Passes d s ts t.place) := by
  rw [Grammar.typeName, Outcome.place_bind]
  exact typeNameUpTo_passes h (Nat.lt_succ_self _)

/-- A leaf that is no marker. -/
theorem Grown.addLeaf {n : Node (Tree NodeId)} {node : Node NodeId}
    {R : Tree NodeId → Place → Prop} (h : Grown d s t ts) (hn : node = n.map Tree.label)
    (hc : n.children = []) (he : n.isError = false) (hr : ∀ id, R (.mk id n) t.place) :
    Outcome (Parser.add node start) i t (Fails d s) (Bears d s ts R) := by
  have hnone : Grown d s t (ts ++ []) := by simpa using h
  refine Grown.add hnone (by rw [hc]) hn ?_ hr
  have hplaced : MarksPlaced n := by
    have hall := marksPlaced_leaf (l := 0) hc
    exact (all_mk.mp hall).1
  exact ⟨hplaced, fun _ => he⟩

theorem typeConstraint_bears (h : Grown d s t ts) :
    Outcome typeConstraint i t (Fails d s) (Bears d s ts (Plain t.place)) := by
  rw [typeConstraint, Outcome.start_bind]
  refine h.expect fun _ => (typeName_passes (h.goto _)).bind ?_
  rintro ty u ⟨hu, hlt⟩
  refine hu.expect fun _ => ?_
  exact (hu.goto _).addLeaf (n := .typeConstraint ty) rfl rfl rfl fun id => ⟨rfl, by grind⟩

theorem variableRef_bears (h : Grown d s t ts) (hp : t.place.left < p.left) :
    Outcome (variableRef path start) i t (Fails d s) (Bears d s ts (Plain p)) := by
  have hplain : Outcome (add (.variableRef path false) start) i t (Fails d s)
      (Bears d s ts (Plain p)) :=
    h.addLeaf (n := .variableRef path false) rfl rfl rfl fun id => ⟨rfl, hp⟩
  rw [variableRef]
  by_cases hlong : 6 < Text.size path.toList
  · simp only [hlong, if_true]
    cases Text.slice? path.toList 0 6 with
    | none => exact h.fails (by simp)
    | some scope =>
      by_cases hu : Text.caselessEq (String.ofList scope) "using:" = true
      · simp only [hu, if_true]
        refine (h.addLeaf (R := Plain p)
          (n := .variableRef (String.ofList (path.toList.drop scope.length)) false) rfl rfl rfl
          fun id => ⟨rfl, hp⟩).bind ?_
        rintro _ u ⟨x, hx, rfl, hmark, hlt⟩
        exact hx.add (n := .usingExpression x) (.refl _) rfl
          (.of rfl rfl (by simp [unattributed, Node.children, hmark])) fun id => ⟨rfl, hlt⟩
      · simp only [hu, Bool.false_eq_true, if_false]
        exact hplain
  · simp only [hlong, if_false]
    exact hplain

theorem bareVariable_bears {expected : String} (h : Grown d s t ts) :
    Outcome (bareVariable expected) i t (Fails d s) (Bears d s ts (Plain t.place)) := by
  rw [bareVariable, Outcome.start_bind, Outcome.peek_bind]
  split
  · rw [Outcome.advance_bind]
    exact variableRef_bears (h.goto _) (by grind)
  · exact h.unexpected

/-- An argument that was added, as the annotation holds it. -/
def IsPart (a : Argument) (xs : List (Tree NodeId)) : Prop :=
  ∃ x, xs = [x] ∧ (a = .positional x.label ∨ a = .named x.label) ∧ x.isMarker = false

theorem Each.parts {as : List Argument} {xs : List (Tree NodeId)} (h : Each IsPart as xs) :
    ∃ ps ns : List (Tree NodeId), (ps ++ ns).Perm xs ∧
      as.filterMap Argument.positional? = ps.map Tree.label ∧
      as.filterMap Argument.named? = ns.map Tree.label ∧ ∀ x ∈ ps ++ ns, x.isMarker = false := by
  induction h with
  | nil => exact ⟨[], [], .refl _, rfl, rfl, nofun⟩
  | cons ha _ ih =>
    obtain ⟨ps, ns, hperm, hps, hns, hall⟩ := ih
    obtain ⟨x, rfl, rfl | rfl, hx⟩ := ha
    · refine ⟨x :: ps, ns, hperm.cons x, ?_, ?_, ?_⟩
      · simp [Argument.positional?, hps]
      · rwa [List.filterMap_cons_none rfl]
      · simpa [hx] using hall
    · refine ⟨ps, x :: ns, List.perm_middle.trans (hperm.cons x), ?_, ?_, ?_⟩
      · rwa [List.filterMap_cons_none rfl]
      · simp [Argument.named?, hns]
      · intro y hy
        rcases List.mem_cons.mp (List.perm_middle.subset hy) with rfl | hy
        · exact hx
        · exact hall y hy

/-- A type, or an annotation that was added. -/
def IsBracket (head : BracketHead) (xs : List (Tree NodeId)) : Prop :=
  match head with
  | .type _ => xs = []
  | .attributeSpec id => ∃ x, xs = [x] ∧ x.label = id

variable (hg : Steady i d g)
include hg

theorem annotationArgument_gathers (h : Grown d s t ts) :
    Outcome (annotationArgument g) i t (Fails d s)
      (Gathers d s ts fun a xs q => q.left < t.place.left ∧ IsPart a xs) := by
  have hlone {name : String} (hpos : 0 < t.place.left) :
      Outcome (do
        advance
        return Argument.named (← Parser.add (.namedArgument name none) (t.place.start i.text)))
        i t (Fails d s) (Gathers d s ts fun a xs q => q.left < t.place.left ∧ IsPart a xs) := by
    rw [Outcome.advance_bind]
    refine ((h.goto _).addLeaf (R := fun x q => x.isMarker = false ∧ q.left < t.place.left)
      (n := .namedArgument name none) rfl rfl rfl fun id => ⟨rfl, by grind⟩).bind ?_
    rintro _ u ⟨x, hx, rfl, hmark, hlt⟩
    exact ⟨[x], hx, hlt, x, rfl, .inr rfl, hmark⟩
  rw [annotationArgument, Outcome.start_bind, Outcome.peek_bind, Outcome.peekNext_bind]
  split
  · rename_i name _ _
    rw [Outcome.advanceBy_bind, Outcome.skipNewlines_bind]
    refine (hg.expression false (h.goto _)).bind ?_
    rintro _ u ⟨x, hx, rfl, hmark, hlt⟩
    refine (hx.add (R := fun y q => y.isMarker = false ∧ q.left < t.place.left)
      (n := .namedArgument name (some x)) (.refl _) rfl
      (.of rfl rfl (by simp [unattributed, Node.children, hmark]))
      fun id => ⟨rfl, by grind⟩).bind ?_
    rintro _ v ⟨y, hy, rfl, hmark', hlt'⟩
    exact ⟨[y], hy, hlt', y, rfl, .inr rfl, hmark'⟩
  · exact hlone (by grind)
  · exact hlone (by grind)
  · exact hlone (by grind)
  · refine (hg.expression false h).bind ?_
    rintro _ u ⟨x, hx, rfl, hmark, hlt⟩
    exact ⟨[x], hx, hlt, x, rfl, .inl rfl, hmark⟩

theorem bracketHead_gathers (h : Grown d s t ts) :
    Outcome (bracketHead g) i t (Fails d s)
      (Gathers d s ts fun head xs q => q.left < t.place.left ∧ IsBracket head xs) := by
  rw [bracketHead, Outcome.start_bind]
  refine h.expect fun _ => (typeName_passes (h.goto _)).bind ?_
  rintro ty u ⟨hu, hlt⟩
  rw [Outcome.eat_ite]
  constructor
  · intro _
    refine ((hu.goto _).untilParen (R := IsPart) fun hv _ =>
      (annotationArgument_gathers hg hv).imp ?_).bind ?_
    · rintro _ _ ⟨xs, hw, hlt, ha⟩
      exact ⟨xs, hw, Nat.le_of_lt hlt, ha⟩
    rintro as v ⟨xs, hv, hle, has⟩
    obtain ⟨ps, ns, hperm, hps, hns, hall⟩ := has.parts
    refine hv.expect fun _ => ?_
    refine ((hv.goto _).add (R := fun _ q => q.left < t.place.left) (n := .attributeSpec ty ps ns)
      hperm ?_ (.of rfl rfl hall) fun id => by grind).bind ?_
    · rw [hps, hns]
      rfl
    · rintro _ w ⟨x, hx, rfl, hlt'⟩
      exact ⟨[x], hx, hlt', x, rfl, rfl⟩
  · intro _
    exact hu.expect fun _ => ⟨[], by simpa using hu.goto _, by grind, rfl⟩

theorem parameterHead_gathers (h : Grown d s t ts) :
    Outcome (parameterHead g) i t (Fails d s)
      (Gathers d s ts fun o xs q => q.left ≤ t.place.left ∧ (o = none → xs = []) ∧
        ∀ id, o = some id → q.left < t.place.left ∧ ∃ x, xs = [x] ∧ x.label = id) := by
  rw [parameterHead, Outcome.start_bind, Outcome.peek_bind]
  split
  · refine (bracketHead_gathers hg h).bind ?_
    rintro head u ⟨xs, hu, hlt, hhead⟩
    cases head with
    | attributeSpec id =>
      obtain ⟨x, rfl, rfl⟩ := hhead
      simp only [Outcome.pure_bind, Outcome.skipNewlines_bind]
      exact ⟨[x], hu.goto _, by grind, nofun, fun id hid =>
        ⟨by grind, x, rfl, Option.some.inj hid⟩⟩
    | type ty =>
      obtain rfl : xs = [] := hhead
      rw [List.append_nil] at hu
      refine (hu.addLeaf (R := fun _ q => q.left < t.place.left) (n := .typeConstraint ty) rfl rfl
        rfl fun id => hlt).bind ?_
      rintro _ v ⟨x, hv, rfl, hlt'⟩
      rw [Outcome.skipNewlines_bind]
      exact ⟨[x], hv.goto _, by grind, nofun, fun id hid =>
        ⟨by grind, x, rfl, Option.some.inj hid⟩⟩
  · exact ⟨[], by simpa using h, Nat.le_refl _, fun _ => rfl, nofun⟩

theorem parameter_bears (h : Grown d s t ts) :
    Outcome (parameter g) i t (Fails d s) (Bears d s ts (Plain t.place)) := by
  rw [parameter, Outcome.start_bind]
  refine (h.many fun hu _ => parameterHead_gathers hg hu).bind ?_
  rintro ids u ⟨heads, hu, hle, hheads⟩
  have hlabels : Each (fun id xs => ∃ x, xs = [x] ∧ x.label = id ∧ True) ids heads := by
    refine hheads.mono ?_
    rintro _ _ ⟨x, hx, hid⟩
    exact ⟨x, hx, hid, trivial⟩
  obtain ⟨rfl, -⟩ := hlabels.labels
  refine (bareVariable_bears hu).bind ?_
  rintro _ v ⟨name, hv, rfl, hname, hlt⟩
  rw [List.append_assoc] at hv
  rw [Outcome.eat_ite]
  constructor
  · intro _
    rw [Outcome.skipNewlines_bind]
    refine (hg.expression false (hv.goto _)).bind ?_
    rintro _ w ⟨value, hw, rfl, hvalue, hlt'⟩
    rw [List.append_assoc] at hw
    exact hw.add (n := .parameter heads name (some value)) (by simp [Node.children]) rfl
      (.of rfl rfl (by simp [unattributed, hname, hvalue])) fun id => ⟨rfl, by grind⟩
  · intro _
    exact hv.add (n := .parameter heads name none) (by simp [Node.children]) rfl
      (.of rfl rfl (by simp [unattributed, hname])) fun id => ⟨rfl, by grind⟩

theorem annotationsUpTo_gathers {n : Nat} (h : Grown d s t ts) (hn : t.place.left < n) :
    Outcome (annotationsUpTo g n) i t (Fails d s) fun o u => Stays d s u ∧
      ∀ ids, o = some ids → ∃ xs, Grown d s u (ts ++ xs) ∧ ids = xs.map Tree.label ∧
        u.place.left ≤ t.place.left := by
  induction n generalizing t ts with
  | zero => exact absurd hn (Nat.not_lt_zero _)
  | succ n ih =>
    rw [annotationsUpTo, Outcome.peek_bind]
    split
    · refine (Grown.attempt (bracketHead_gathers hg h)).bind ?_
      rintro o u ⟨hsome, hnone⟩
      cases o with
      | none => exact ⟨hnone rfl, by simp⟩
      | some head =>
        obtain ⟨xs, hu, hlt, hhead⟩ := hsome head rfl
        cases head with
        | type ty => exact ⟨hu.toStays, by simp⟩
        | attributeSpec id =>
          obtain ⟨x, rfl, rfl⟩ := hhead
          rw [Outcome.skipNewlines_bind]
          refine (ih (hu.goto _) (by grind)).bind ?_
          rintro o v ⟨hstays, hids⟩
          refine ⟨hstays, fun ids hids' => ?_⟩
          obtain ⟨others, rfl, rfl⟩ := Option.map_eq_some_iff.mp hids'
          obtain ⟨ys, hv, rfl, hle⟩ := hids others rfl
          exact ⟨x :: ys, by simpa using hv, rfl, by grind⟩
    · refine ⟨h.toStays, fun ids hids => ⟨[], by simpa using h, ?_, Nat.le_refl _⟩⟩
      exact (Option.some.inj hids).symm

/-- Without a `param` block, nothing has been read. -/
theorem paramBlock?_gathers (h : Grown d s t ts) :
    Outcome (paramBlock? g) i t (Fails d s) (Gathers d s ts fun o xs q =>
      q.left ≤ t.place.left ∧ (o = none → xs = []) ∧
        ∀ id, o = some id → ∃ x, xs = [x] ∧ x.label = id ∧
          ∃ attributes parameters, x.node = .paramBlock attributes parameters) := by
  rw [paramBlock?, Outcome.place_bind, Outcome.start_bind]
  have hstart : Grown d { t with recovering := false } { t with recovering := false } [] :=
    .start h.tidy h.depth
  have hfound := Grown.speculatively
    (annotationsUpTo_gathers hg hstart (Nat.lt_succ_self t.place.left))
  refine Outcome.bind (P := fun o u => Stays d t u ∧ ∀ ids, o = some ids → ∃ xs,
    Grown d t u xs ∧ ids = xs.map Tree.label ∧ u.place.left ≤ t.place.left) ?_ ?_
  · refine hfound.mono (fun f u hu => ⟨hu.1, h.toStays.trans hu.2⟩) ?_
    rintro o _ ⟨v, ⟨hv, hids⟩, rfl⟩
    refine ⟨{ hv with recovering := rfl }, fun ids ho => ?_⟩
    obtain ⟨xs, hv', rfl, hle⟩ := hids ids ho
    exact ⟨xs, hv'.resume, rfl, hle⟩
  rintro found u ⟨hstays, hids⟩
  rw [Outcome.atWord_bind, Outcome.place_bind]
  split
  · obtain ⟨xs, hu, rfl, hle⟩ := hids _ rfl
    replace hu := h.trans hu
    rw [Outcome.advance_bind, Outcome.skipNewlines_bind]
    refine (hu.goto _).expect fun _ => ?_
    refine ((hu.goto _).untilParen (R := fun id xs => ∃ x, xs = [x] ∧ x.label = id ∧
      x.isMarker = false) fun hv _ => (parameter_bears hg hv).imp ?_).bind ?_
    · rintro _ v ⟨x, hv, rfl, hx, hlt⟩
      exact ⟨[x], hv, Nat.le_of_lt hlt, x, rfl, rfl, hx⟩
    rintro ids v ⟨ys, hv, hle', hys⟩
    obtain ⟨rfl, hparameters⟩ := hys.labels
    rw [List.append_assoc] at hv
    refine (hv.add (R := fun x q => q.left ≤ t.place.left ∧ ∃ attributes parameters,
      x.node = .paramBlock attributes parameters) (n := .paramBlock xs ys) (.refl _) rfl
      (.of rfl rfl hparameters) fun id => ⟨by grind, xs, ys, rfl⟩).bind ?_
    rintro _ w ⟨x, hx, rfl, hle'', hnode⟩
    exact ⟨[x], hx, hle'', by simp, fun id hid => ⟨x, rfl, Option.some.inj hid, hnode⟩⟩
  · rw [Outcome.goto_bind]
    refine ⟨[], ?_, Nat.le_refl _, fun _ => rfl, by simp⟩
    rw [List.append_nil]
    exact (h.stays hstays).goto _

end ScriptInject.Grammar
