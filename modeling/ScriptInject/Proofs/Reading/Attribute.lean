import ScriptInject.Proofs.Reading.Basic
/-! The variables, annotations and parameters that are read. -/
namespace ScriptInject.Grammar
open Grammar.Parser ScriptInject.Tree

variable {i : Input} {s t u : State} {ts us : List (Tree NodeId)} {x : Tree NodeId}
  {token : Token} {p q : Place} {g : Nested} {path : String} {start : Nat}

theorem scope?_eq {scope : List Char} (hlong : 6 < Text.size path.toList)
    (h : Text.slice? path.toList 0 6 = some scope) :
    path = String.ofList scope ++ String.ofList (path.toList.drop scope.length) ∧
      path.toList.drop scope.length ≠ [] := by
  rw [Text.slice?, if_pos (Nat.zero_le 6)] at h
  have hdrop : Text.dropBytes? 0 path.toList = some path.toList := by
    cases path.toList <;> rfl
  rw [hdrop, Option.bind_some] at h
  obtain ⟨hsize, hcs⟩ := Text.takeBytes?_eq h
  refine ⟨?_, fun hnil => ?_⟩
  · rw [← String.ofList_append, ← hcs, String.ofList_toList]
  · rw [hnil, List.append_nil] at hcs
    rw [hcs] at hlong
    omega

theorem variableRef_yields (h : Made i s t ts) (ht : (Token.variableName path).Occurs) :
    Outcome (variableRef path start) i t (Lost s)
      (Yields i s ts fun x q => Parsed .reference x ∧ x.lead = .operand ∧ x.isWord = false ∧
        x.isSimple = true ∧ x.ending = {} ∧ q = t.place) := by
  have hplain {scope : String} (hs : scope? path = some scope)
      (hu : Text.caselessEq scope "using:" = false) :
      Outcome (add (.variableRef path false) start) i t (Lost s)
        (Yields i s ts fun x q => Parsed .reference x ∧ x.lead = .operand ∧ x.isWord = false ∧
          x.isSimple = true ∧ x.ending = {} ∧ q = t.place) := by
    refine h.addLeaf (n := .variableRef path false) rfl rfl fun id => ⟨.mk' (.reference ht hs hu) trivial nofun, ?_, rfl, rfl, ?_, rfl⟩
    · rw [lead, fold_mk]
      rfl
    · rw [ending, para_mk]
      rfl
  rw [variableRef]
  by_cases hlong : 6 < Text.size path.toList
  · simp only [hlong, if_true]
    cases hslice : Text.slice? path.toList 0 6 with
    | none => exact h.toKept
    | some scope =>
      have hs : scope? path = some (String.ofList scope) := by simp [scope?, hlong, hslice]
      by_cases hu : Text.caselessEq (String.ofList scope) "using:" = true
      · simp only [hu, if_true]
        obtain ⟨hsplit, hne⟩ := scope?_eq hlong hslice
        refine (h.addLeaf (R := fun x q => q = t.place ∧
          x.node = .variableRef (String.ofList (path.toList.drop scope.length)) false)
          (n := .variableRef (String.ofList (path.toList.drop scope.length)) false)
          rfl rfl fun id => ⟨rfl, rfl⟩).bind ?_
        rintro _ u ⟨x, hx, rfl, hq, hnode⟩
        refine hx.add (n := .usingExpression x) (.refl _) rfl fun id => ⟨.mk' ?_ trivial ?_, ?_⟩
        · obtain ⟨m, n⟩ := x
          rw [node_mk] at hnode
          subst hnode
          refine .outerReference ?_ hu ?_
          · rwa [← hsplit]
          · rwa [Ne, ← String.ofList_nil, String.ofList_inj]
        · intro c hc
          obtain rfl := List.mem_singleton.mp hc
          obtain ⟨m, n⟩ := c
          rw [node_mk] at hnode
          subst hnode
          exact all_mk.mpr ⟨trivial, nofun⟩
        · refine ⟨?_, rfl, rfl, ?_, hq⟩
          · rw [lead, fold_mk]
            rfl
          · rw [ending, para_mk]
            rfl
      · simp only [hu, Bool.false_eq_true, if_false]
        exact hplain hs (by simpa using hu)
  · simp only [hlong, if_false]
    exact @hplain "" (by simp [scope?, hlong]) rfl

theorem bareVariable_yields {expected : String} (h : Made i s t ts) :
    Outcome (bareVariable expected) i t (Lost s)
      (Yields i s ts fun x _ => Parsed .reference x) := by
  rw [bareVariable, Outcome.start_bind, Outcome.peek_bind]
  split
  · rename_i path hpath
    rw [Outcome.advance_bind]
    exact (variableRef_yields h.advance (h.occurs hpath)).imp
      fun id u hu => hu.imp fun x hx => hx.1
  · exact h.unexpected

/-- An argument that has been read, as the annotation holds it. -/
def IsArgument (a : Argument) (xs : List (Tree NodeId)) : Prop :=
  ∃ x, xs = [x] ∧
    (a = .positional x.label ∧ Parsed .expression x ∧ x.isWord = false ∨
      a = .named x.label ∧ Parsed .named x)

/-- An argument with what stands behind it. -/
def ArgumentBefore (a : Argument) (xs : List (Tree NodeId)) (q : Place) : Prop :=
  ∃ x, xs = [x] ∧
    (a = .positional x.label ∧ Parsed .expression x ∧
        (x.isWord = true → q.current? ≠ some .newline ∧ q.current? ≠ some (.mark .comma) ∧
          q.current? ≠ some (.mark .rparen)) ∨
      a = .named x.label ∧ Parsed .named x)

theorem word_of_lead (h : token.lead = .word) : ∃ w, token = .word w := by
  cases token with
  | word w => exact ⟨w, rfl⟩
  | mark m => cases m <;> exact absurd h (by decide)
  | _ => exact absurd h nofun

theorem lead_of_isWord (h : x.isWord = true) : x.lead = .word := by
  obtain ⟨l, n⟩ := x
  rw [isWord, node_mk] at h
  rw [lead, fold_mk]
  split at h
  · rfl
  · exact absurd h nofun

theorem Each.arguments {as : List Argument} {xs : List (Tree NodeId)} (h : Each IsArgument as xs) :
    ∃ ps ns : List (Tree NodeId), (ps ++ ns).Perm xs ∧ as.filterMap Argument.positional? = ps.map Tree.label ∧
      as.filterMap Argument.named? = ns.map Tree.label ∧
      (∀ x ∈ ps, Parsed .expression x ∧ x.isWord = false) ∧ ∀ x ∈ ns, Parsed .named x := by
  induction h with
  | nil => exact ⟨[], [], .refl _, rfl, rfl, nofun, nofun⟩
  | cons ha _ ih =>
    obtain ⟨ps, ns, hperm, hps, hns, hp, hn⟩ := ih
    obtain ⟨x, rfl, ⟨rfl, hx⟩ | ⟨rfl, hx⟩⟩ := ha
    · refine ⟨x :: ps, ns, hperm.cons x, ?_, ?_, ?_, hn⟩
      · simp [Argument.positional?, hps]
      · rwa [List.filterMap_cons_none rfl]
      · simpa [hx] using hp
    · refine ⟨ps, x :: ns, List.perm_middle.trans (hperm.cons x), ?_, ?_, hp, ?_⟩
      · rwa [List.filterMap_cons_none rfl]
      · simp [Argument.named?, hns]
      · simpa [hx] using hn

/-- Either a type or an annotation that was added. -/
def IsHead (head : BracketHead) (xs : List (Tree NodeId)) : Prop :=
  match head with
  | .type ty => xs = [] ∧ ty.Written
  | .attributeSpec id => ∃ x, xs = [x] ∧ x.label = id ∧ Parsed .mark x

variable (hg : Sound g)
include hg

theorem annotationArgument_adds (h : Made i s t ts) :
    Outcome (annotationArgument g) i t (Lost s) (Adds i s ts ArgumentBefore) := by
  have hlone {name : String} (hname : t.place.current? = some (.word name)) :
      Outcome (do
        advance
        return Argument.named (← Parser.add (.namedArgument name none) (t.place.start i.text)))
        i t (Lost s) (Adds i s ts ArgumentBefore) := by
    rw [Outcome.advance_bind]
    refine (h.advance.addLeaf (n := .namedArgument name none)
      (R := fun x _ => Parsed .named x) rfl rfl fun id => .mk' (.namedArgument (h.occurs hname) nofun) trivial nofun).bind ?_
    rintro _ u ⟨x, hx, rfl, hp⟩
    exact ⟨[x], hx, x, rfl, .inr ⟨rfl, hp⟩⟩
  rw [annotationArgument, Outcome.start_bind, Outcome.peek_bind, Outcome.peekNext_bind]
  split
  · rename_i name hname _
    rw [Outcome.advanceBy_bind, Outcome.skipNewlines_bind]
    refine (hg.expression false ((h.advanceBy 2).past _)).bind ?_
    rintro _ u ⟨x, hx, rfl, hp⟩
    refine (hx.add (n := .namedArgument name (some x)) (R := fun y _ => Parsed .named y) (.refl _)
      rfl fun id => .mk' (.namedArgument (h.occurs hname) ?_) trivial ?_).bind ?_
    · intro y hy
      rw [← Option.some.inj hy]
      exact hp.parsed.fits
    · intro c hc
      obtain rfl := List.mem_singleton.mp hc
      exact hp.parsed.placed
    · rintro _ v ⟨y, hy, rfl, hyp⟩
      exact ⟨[y], hy, y, rfl, .inr ⟨rfl, hyp⟩⟩
  · exact hlone ‹_›
  · exact hlone ‹_›
  · exact hlone ‹_›
  · rename_i hassign hcomma hparen hline
    refine (hg.expression false h).bind ?_
    rintro _ u ⟨x, hx, rfl, hp⟩
    refine ⟨[x], hx, x, rfl, .inl ⟨rfl, hp.parsed, fun hword => ?_⟩⟩
    have hlead := lead_of_isWord hword
    obtain ⟨token, htoken, hl⟩ := hp.leads.resolve_left (by rw [hlead]; nofun)
    obtain ⟨w, rfl⟩ := word_of_lead (hl.symm.trans hlead)
    rw [hp.word hword, ← Place.next?_eq htoken]
    exact ⟨hline w htoken, hcomma w htoken, hparen w htoken⟩

theorem bracketHead_adds (h : Made i s t ts) :
    Outcome (bracketHead g) i t (Lost s) (Adds i s ts fun head xs _ => IsHead head xs) := by
  rw [bracketHead, Outcome.start_bind]
  refine h.expect fun _ => ?_
  refine (typeName_finds h.advance).bind fun ty u ⟨hu, hty⟩ => ?_
  rw [Outcome.eat_ite]
  constructor
  · intro _
    refine (hu.advance.untilParen (T := IsArgument) (annotationArgument_adds hg) ?_).bind ?_
    · rintro a xs q ⟨x, rfl, ⟨rfl, hx, hword⟩ | hx⟩ hq
      · refine ⟨x, rfl, .inl ⟨rfl, hx, ?_⟩⟩
        cases hw : x.isWord with
        | false => rfl
        | true =>
          obtain ⟨hline, hcomma, hparen⟩ := hword hw
          rw [Place.past_eq fun token ht => by
            rw [beq_eq_false_iff_ne]
            rintro rfl
            exact hline ht] at hq
          exact (hq.elim hcomma hparen).elim
      · exact ⟨x, rfl, .inr hx⟩
    · rintro as v ⟨xs, hv, has⟩
      obtain ⟨ps, ns, hperm, hps, hns, hp, hn⟩ := has.arguments
      refine hv.expect fun _ => ?_
      refine (hv.advance.add (n := .attributeSpec ty ps ns) (R := fun x _ => Parsed .mark x) hperm
        ?_ fun id => .mk' (.attributeSpec hty ?_ ?_) ?_ ?_).bind ?_
      · rw [hps, hns]
        rfl
      · exact fun x hx => (hp x hx).1.fits
      · exact fun x hx => (hn x hx).fits
      · exact fun x hx => (hp x hx).2
      · intro c hc
        rcases List.mem_append.mp hc with hc | hc
        · exact (hp c hc).1.placed
        · exact (hn c hc).placed
      · rintro _ w ⟨x, hx, rfl, hxp⟩
        exact ⟨[x], hx, x, rfl, rfl, hxp⟩
  · intro _
    refine hu.expect fun _ => ⟨[], by simpa using hu.advance, rfl, hty⟩

theorem parameterHead_adds (h : Made i s t ts) :
    Outcome (parameterHead g) i t (Lost s) (Adds i s ts fun o xs _ => (o = none → xs = []) ∧
      ∀ id, o = some id → ∃ x, xs = [x] ∧ x.label = id ∧ Parsed .head x) := by
  rw [parameterHead, Outcome.start_bind, Outcome.peek_bind]
  split
  · refine (bracketHead_adds hg h).bind ?_
    rintro head u ⟨xs, hu, hhead⟩
    cases head with
    | attributeSpec id =>
      obtain ⟨x, rfl, rfl, hx⟩ := hhead
      simp only [Outcome.pure_bind, Outcome.skipNewlines_bind]
      refine ⟨[x], hu.past _, by simp, fun id hid => ⟨x, rfl, Option.some.inj hid, ?_⟩⟩
      exact hx.lift .headMark
    | type ty =>
      obtain ⟨rfl, hty⟩ := hhead
      refine (hu.add (n := .typeConstraint ty) (R := fun x _ => Parsed .head x) .nil rfl
        fun id => .mk' (.headConstraint (.typeConstraint hty)) trivial
          (by simp [Node.children])).bind ?_
      rintro _ v ⟨x, hv, rfl, hx⟩
      rw [Outcome.skipNewlines_bind]
      exact ⟨[x], hv.past _, by simp, fun id hid => ⟨x, rfl, Option.some.inj hid, hx⟩⟩
  · exact ⟨[], by simpa using h, fun _ => rfl, by simp⟩

theorem parameter_yields (h : Made i s t ts) :
    Outcome (parameter g) i t (Lost s) (Yields i s ts fun x _ => Parsed .parameter x) := by
  rw [parameter, Outcome.start_bind]
  refine (h.many (parameterHead_adds hg)).bind ?_
  rintro ids u ⟨heads, hu, hheads⟩
  obtain ⟨rfl, hall⟩ := hheads.labels
  refine (bareVariable_yields hu).bind ?_
  rintro _ v ⟨name, hv, rfl, hname⟩
  have hmade {value : Option (Tree NodeId)} {w : State} {start : Nat}
      (hw : Made i s w (ts ++ (heads ++ [name] ++ value.toList)))
      (hvalue : ∀ x, value = some x → Parsed .expression x) :
      Outcome (add (.parameter (heads.map Tree.label) name.label (value.map Tree.label)) start) i w
        (Lost s) (Yields i s ts fun x _ => Parsed .parameter x) := by
    refine hw.add (n := .parameter heads name value) (.refl _) rfl fun id => .mk' (.parameter
      (fun x hx => (hall x hx).fits) hname.fits fun x hx => (hvalue x hx).fits) trivial ?_
    intro c hc
    simp only [Node.children, List.mem_append, List.mem_singleton, Option.mem_toList] at hc
    rcases hc with (hc | rfl) | hc
    · exact (hall c hc).placed
    · exact hname.placed
    · exact (hvalue c hc).placed
  rw [Outcome.eat_ite]
  constructor
  · intro _
    rw [Outcome.skipNewlines_bind]
    refine (hg.expression false (hv.advance.past _)).bind ?_
    rintro _ w ⟨value, hw, rfl, hvalue⟩
    refine @hmade (some value) _ _ (by simpa using hw) fun x hx => ?_
    rw [← Option.some.inj hx]
    exact hvalue.parsed
  · intro _
    exact @hmade none _ _ (by simpa using hv) (by simp)

/-- The annotations that have been found, unless something else stands in brackets. Without a
bracket there are none. -/
theorem annotationsUpTo_finds {n : Nat} (h : Made i s t ts) :
    Outcome (annotationsUpTo g n) i t (Lost s) fun o u => Kept s u ∧
      (∀ ids, o = some ids → ∃ xs, Made i s u (ts ++ xs) ∧ ids = xs.map Tree.label ∧
        ∀ x ∈ xs, Parsed .mark x) ∧
      (t.place.current? ≠ some (.mark .lbracket) → o = some [] ∧ u.place = t.place) := by
  induction n generalizing t ts with
  | zero => exact h.toKept
  | succ n ih =>
    rw [annotationsUpTo, Outcome.peek_bind]
    split
    · rename_i hbracket
      refine (Made.attempt (bracketHead_adds hg h)).bind fun o u ⟨hsome, hnone⟩ => ?_
      cases o with
      | none => exact ⟨hnone rfl, nofun, fun hne => absurd hbracket hne⟩
      | some head =>
        obtain ⟨xs, hu, hhead⟩ := hsome head rfl
        cases head with
        | type ty => exact ⟨hu.toKept, nofun, fun hne => absurd hbracket hne⟩
        | attributeSpec id =>
          obtain ⟨x, rfl, rfl, hx⟩ := hhead
          rw [Outcome.skipNewlines_bind]
          refine (ih (hu.past _)).bind fun o v ⟨hkept, hids, _⟩ => ?_
          refine ⟨hkept, ?_, fun hne => absurd hbracket hne⟩
          intro ids hids'
          obtain ⟨others, rfl, rfl⟩ := Option.map_eq_some_iff.mp hids'
          obtain ⟨ys, hv, rfl, hall⟩ := hids others rfl
          refine ⟨x :: ys, by simpa using hv, rfl, ?_⟩
          simpa [hx] using hall
    · refine ⟨h.toKept, fun ids hids => ⟨[], by simpa using h, ?_, nofun⟩, fun _ => ⟨rfl, rfl⟩⟩
      exact (Option.some.inj hids).symm

/-- Without a `param` block, the reading stands where it stood, and nothing that could only be the
start of one stands there. -/
theorem paramBlock?_adds (h : Made i s t ts) :
    Outcome (paramBlock? g) i t (Lost s) (Adds i s ts fun o xs q =>
      (o = none → xs = [] ∧ q = t.place ∧
        ¬ (t.place.wordAt "param" = true ∧
          t.place.nextSignificant? = some (.mark .lparen))) ∧
      ∀ id, o = some id → ∃ x, xs = [x] ∧ x.label = id ∧ Parsed .params x) := by
  rw [paramBlock?, Outcome.place_bind, Outcome.start_bind]
  have hstart := Made.start h.valid
  have hannotations := annotationsUpTo_finds hg (n := t.place.rest.length + 1) hstart
  have hfound := hstart.speculatively (p := annotations g) hannotations fun _ _ hu => hu.1.strict
  refine (hfound.mono (fun _ _ hu => h.toKept.trans hu) fun _ _ hu => hu).bind ?_
  rintro found u ⟨hkept, hids, hnone⟩
  rw [Outcome.atWord_bind, Outcome.place_bind]
  split
  · rename_i ids hparam hparen
    obtain ⟨xs, hu, rfl, hall⟩ := hids ids rfl
    replace hu := h.trans hu
    rw [Outcome.advance_bind, Outcome.skipNewlines_bind]
    refine (hu.advance.past _).expect fun _ => ?_
    refine ((hu.advance.past _).advance.untilParen (fun hv => Yields.adds
      (parameter_yields hg hv) fun _ _ hx => hx) fun ha _ => ha).bind ?_
    rintro ids v ⟨ys, hv, hys⟩
    obtain ⟨rfl, hparameters⟩ := hys.labels
    rw [List.append_assoc] at hv
    refine (hv.add (n := .paramBlock xs ys) (R := fun x _ => Parsed .params x) (.refl _) rfl fun id => .mk' (.paramBlock (fun x hx => (hall x hx).fits)
        fun x hx => (hparameters x hx).fits) trivial ?_).bind ?_
    · intro c hc
      rcases List.mem_append.mp hc with hc | hc
      · exact (hall c hc).placed
      · exact (hparameters c hc).placed
    · rintro _ w ⟨x, hx, rfl, hxp⟩
      exact ⟨[x], hx, nofun, fun id hid => ⟨x, rfl, Option.some.inj hid, hxp⟩⟩
  · rename_i hno
    rw [Outcome.goto_bind]
    refine ⟨[], ?_, fun _ => ⟨rfl, rfl, ?_⟩, nofun⟩
    · rw [List.append_nil]
      exact h.kept (u := { u with place := t.place }) { hkept with } h.scanned
    · rintro ⟨hparam, hparen⟩
      have hne : t.place.current? ≠ some (.mark .lbracket) := by
        intro hbracket
        simp [Place.wordAt, hbracket] at hparam
      obtain ⟨rfl, hplace⟩ := hnone hne
      rw [← hplace] at hparam hparen
      exact hno [] rfl hparam hparen

end ScriptInject.Grammar
