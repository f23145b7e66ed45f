import ScriptInject.Config
import ScriptInject.Proofs.Counting
import ScriptInject.Proofs.Fetching.Reading
import ScriptInject.Source.Generate
/-! Calls that are put into a script are read back as they were meant: whatever strings they are
made with, the text of an assigned call is one statement, and its strings are the same. -/
namespace ScriptInject

namespace Arena
open Grammar

variable {a : Arena} {x : Tree NodeId} {id : NodeId} {path contextVariable method : String}
  {arguments : List String}

/-- The node assigns to a variable what a method of the context returns for some strings. -/
def AssignsCall (a : Arena) (id : NodeId) (path contextVariable method : String)
    (arguments : List String) : Prop :=
  ∃ left right element call target name strings,
    a.get? id = some (.assignment left .assign right) ∧
    a.get? left = some (.variableRef path false) ∧
    a.get? right = some (.pipeline [element]) ∧
    a.get? element = some (.commandExpression call) ∧
    a.get? call = some (.invokeMember target name strings false false) ∧
    a.get? target = some (.variableRef contextVariable false) ∧
    a.get? name = some (.stringConstant method .bareWord) ∧
    strings.map a.get? = arguments.map fun value => some (.stringConstant value .singleQuoted)

theorem shape_inv {m : Node (Tree Unit)} (h : x.shape = .mk () m) :
    x.node.map Tree.shape = m := by
  obtain ⟨l, n⟩ := x
  rw [Tree.shape_mk] at h
  exact (Tree.mk.inj h).2

theorem get?_variable (h : a.Holds x) (hx : x.shape = variableShape path) :
    a.get? x.label = some (.variableRef path false) := by
  have hn := shape_inv hx
  rw [h.get?]
  cases hnode : x.node with
  | variableRef path splatted =>
    rw [hnode] at hn
    obtain ⟨rfl, rfl⟩ := Node.variableRef.inj hn
    rfl
  | _ =>
    rw [hnode] at hn
    cases hn

theorem get?_string {value : String} {kind : StringKind} (h : a.Holds x)
    (hx : x.shape = .mk () (.stringConstant value kind)) :
    a.get? x.label = some (.stringConstant value kind) := by
  have hn := shape_inv hx
  rw [h.get?]
  cases hnode : x.node with
  | stringConstant value kind =>
    rw [hnode] at hn
    obtain ⟨rfl, rfl⟩ := Node.stringConstant.inj hn
    rfl
  | _ =>
    rw [hnode] at hn
    cases hn

theorem get?_strings {xs : List (Tree NodeId)} (h : ∀ x ∈ xs, a.Holds x)
    (hxs : xs.map Tree.shape = arguments.map stringShape) :
    (xs.map Tree.label).map a.get? =
      arguments.map fun value => some (.stringConstant value .singleQuoted) := by
  induction xs generalizing arguments with
  | nil =>
    obtain rfl : arguments = [] := by simpa using hxs.symm
    rfl
  | cons x xs ih =>
    obtain _ | ⟨value, arguments⟩ := arguments
    · cases hxs
    obtain ⟨hx, hrest⟩ := List.cons.inj hxs
    rw [List.map_cons, List.map_cons, List.map_cons, get?_string (h x (by simp)) hx,
      ih (fun y hy => h y (by simp [hy])) hrest]

theorem assignsCall_of_shape (h : a.Holds x)
    (hx : x.shape = assignedShape path contextVariable method arguments) :
    a.AssignsCall x.label path contextVariable method arguments := by
  obtain ⟨id, n⟩ := x
  have hn := shape_inv hx
  rw [Tree.node_mk] at hn
  cases n with
  | assignment left operator right =>
    obtain ⟨hleft, rfl, hright⟩ := Node.assignment.inj hn
    have hrightHeld := h.child (s := right) (by simp [Node.children])
    obtain ⟨r, n⟩ := right
    have hn := shape_inv hright
    rw [Tree.node_mk] at hn
    cases n with
    | pipeline elements =>
      obtain ⟨element, rfl, helement⟩ := List.map_eq_singleton_iff.mp (Node.pipeline.inj hn)
      have helementHeld := hrightHeld.child (s := element) (by simp [Node.children])
      obtain ⟨e, n⟩ := element
      have hn := shape_inv helement
      rw [Tree.node_mk] at hn
      cases n with
      | commandExpression call =>
        have hcall := Node.commandExpression.inj hn
        have hcallHeld := helementHeld.child (s := call) (by simp [Node.children])
        obtain ⟨c, n⟩ := call
        have hn := shape_inv hcall
        rw [Tree.node_mk] at hn
        cases n with
        | invokeMember target name strings isStatic nullConditional =>
          obtain ⟨htarget, hname, hstrings, rfl, rfl⟩ := Node.invokeMember.inj hn
          refine ⟨left.label, r, e, c, target.label, name.label, strings.map Tree.label,
            h.get?, ?_, hrightHeld.get?, helementHeld.get?, hcallHeld.get?, ?_, ?_, ?_⟩
          · exact get?_variable (h.child (by simp [Node.children])) hleft
          · exact get?_variable (hcallHeld.child (by simp [Node.children])) htarget
          · exact get?_string (hcallHeld.child (by simp [Node.children])) hname
          · exact get?_strings (fun y hy => hcallHeld.child (by simp [Node.children, hy])) hstrings
        | _ => cases hn
      | _ => cases hn
    | _ => cases hn
  | _ => cases hn

end Arena

namespace Source

variable {a : Arena} {id : NodeId} {path contextVariable method : String} {arguments : List String}

theorem node_of_get? {n : Node NodeId} (h : a.get? id = some n) : a.node id = .ok n := by
  rw [Arena.node, h]

theorem generateUpTo_of_get? {n : Node NodeId} (h : a.get? id = some n) (depth : Nat) :
    generateUpTo a (depth + 1) id = ofNode a (generateUpTo a depth) id n := by
  rw [generateUpTo, node_of_get? h]
  rfl

theorem mapM_strings {strings : List NodeId} (depth : Nat)
    (h : strings.map a.get? = arguments.map fun value => some (.stringConstant value .singleQuoted)) :
    strings.mapM (generateUpTo a (depth + 1)) =
      .ok (arguments.map (quoted · .singleQuoted)) := by
  induction strings generalizing arguments with
  | nil =>
    obtain rfl : arguments = [] := by simpa using h.symm
    rfl
  | cons string strings ih =>
    obtain _ | ⟨value, arguments⟩ := arguments
    · cases h
    obtain ⟨hstring, hrest⟩ := List.cons.inj h
    rw [List.mapM_cons, generateUpTo_of_get? hstring, ih hrest]
    rfl

/-- The text of an assigned call. -/
theorem generate_assignsCall (ha : a.Tidy)
    (h : a.AssignsCall id path contextVariable method arguments) :
    generate a id = .ok (variableText path false ++ " = " ++ (variableText contextVariable false ++
      "." ++ method ++ "(" ++ ", ".intercalate (arguments.map (quoted · .singleQuoted)) ++ ")")) := by
  obtain ⟨left, right, element, call, target, name, strings, hid, hleft, hright, helement, hcall,
    htarget, hname, hstrings⟩ := h
  -- each node has a higher id than the nodes below it
  have hcallId := Nat.lt_of_le_of_lt (ha.bound htarget).1
    (ha.child_lt hcall target (by simp [Node.children]))
  have helementId := Nat.lt_of_le_of_lt hcallId
    (ha.child_lt helement call (by simp [Node.children]))
  have hrightId := Nat.lt_of_le_of_lt helementId
    (ha.child_lt hright element (by simp [Node.children]))
  have hstatementId := Nat.lt_of_le_of_lt hrightId
    (ha.child_lt hid right (by simp [Node.children]))
  have hdeep : 5 < a.nextId := Nat.lt_of_le_of_lt hstatementId (ha.bound hid).2
  have hdepth : ∃ k, a.depthBound = k + 5 := by
    have hsize := ha.size_succ
    refine ⟨a.depthBound - 5, ?_⟩
    unfold Arena.depthBound
    omega
  obtain ⟨k, hk⟩ := hdepth
  have htext : generateUpTo a (k + 2) call = .ok (variableText contextVariable false ++ "." ++
      method ++ "(" ++ ", ".intercalate (arguments.map (quoted · .singleQuoted)) ++ ")") := by
    rw [generateUpTo_of_get? hcall]
    simp only [ofNode, accessTarget, memberName, joined, node_of_get? htarget, node_of_get? hname,
      mapM_strings k hstrings, generateUpTo_of_get? htarget, accessMark]
    rfl
  rw [generate, hk, generateUpTo_of_get? hid]
  simp only [ofNode, generateUpTo_of_get? hleft, generateUpTo_of_get? hright, joined,
    List.mapM_cons, List.mapM_nil, generateUpTo_of_get? helement, htext]
  refine congrArg Except.ok (String.toList_injective ?_)
  simp [AssignmentOperator.text]

end Source

namespace Config
open Grammar

variable {c : Config}

theorem contextVariable_of_validate (h : c.validate = .ok ()) :
    c.contextVariable ≠ "" ∧
      ∀ d ∈ c.contextVariable.toList, (Text.isAlphanumeric d || d == '_') = true := by
  have hname : isVariableName c.contextVariable = true := by
    cases hn : isVariableName c.contextVariable with
    | true => rfl
    | false =>
      rw [validate, hn] at h
      cases h
  rw [isVariableName, Bool.and_eq_true, List.all_eq_true] at hname
  refine ⟨fun hempty => ?_, hname.2⟩
  rw [hempty] at hname
  exact absurd hname.1 (by decide)

/-- No name of a context begins with a scope. -/
theorem isOwnPath_of_validate (h : c.validate = .ok ()) (hs : (scope? c.contextVariable).isSome) :
    IsOwnPath c.contextVariable :=
  isOwnPath_of_no_colon hs fun hcolon =>
    absurd ((contextVariable_of_validate h).2 ':' hcolon) (by decide +kernel)

end Config

namespace Copying
open Grammar

variable {a : Arena} {inj : Injection} {k : Copier} {id : NodeId} {n : Node NodeId}
  {path method : String} {arguments : List String}

theorem applyFetch_assigns : Gives []
    (inj.applyFetch a k ⟨method, some path, arguments, .statement⟩ id n) fun built zs =>
      ∃ z : Located, zs = [z] ∧ built = some z.id ∧
        z.ids.shape = assignedShape path inj.contextVariable method arguments := by
  refine Gives.imp (P := Stands (some (.mk (a.span? id) (.assignment
    (.mk none (.variableRef path false)) .assign (.mk none (.pipeline [.mk none (.commandExpression
      ((inj.callCopy ⟨method, some path, arguments, .statement⟩).map a.sourceSpan))])))))) ?_ ?_
  · refine (@call_copies a inj ⟨method, some path, arguments, .statement⟩).step ?_
    rintro _ _ ⟨c, rfl, rfl, hcspans⟩
    exact assignment_gives hcspans
  · rintro _ _ ⟨z, rfl, rfl, hz⟩
    refine ⟨z, rfl, rfl, ?_⟩
    have hshape : z.ids.shape = z.spans.shape := by
      rw [Located.ids, Located.spans, Tree.shape, Tree.shape, Tree.map_comp, Tree.map_comp]
      rfl
    rw [hshape, hz, Tree.shape_mk]
    simp [Injection.callCopy, Injection.contextCopy, Tree.shape, Tree.map_mk, Node.map,
      assignedShape, callShape, variableShape, stringShape, Function.comp_def]

theorem costs_assigned : Costs
    (inj.applyFetch a k ⟨method, some path, arguments, .statement⟩ id n) (arguments.length + 7) := by
  have hcall := @costs_call inj ⟨method, some path, arguments, .statement⟩
  rw [Injection.applyFetch]
  refine Costs.of_eq (hcall.bind fun _ => .bind (.add _ _) fun _ => .bind (.add _ _) fun _ =>
    .bind (.add _ _) fun _ => (Costs.add _ _).map _) ?_
  simp [Injection.callCopy, Injection.contextCopy, Tree.size_mk, Node.children, Function.comp_def]
  omega

end Copying

namespace Arena
open Grammar

variable {a : Arena} {x : Tree NodeId}

/-- All that the script does is one statement. -/
def IsOnlyStatement (a : Arena) (id : NodeId) : Prop :=
  ∃ root block, a.root? = some root ∧ a.get? root = some (.scriptBlock [] none [block]) ∧
    a.get? block = some (.namedBlock .endBlock true [id] [])

theorem isOnlyStatement_of_shape {statement : Tree Unit} (hroot : a.root? = some x.label)
    (h : a.Holds x) (hx : x.shape = loneShape statement) :
    ∃ y, a.IsOnlyStatement y.label ∧ a.Holds y ∧ y.shape = statement := by
  obtain ⟨root, n⟩ := x
  have hn := shape_inv hx
  rw [Tree.node_mk] at hn
  cases n with
  | scriptBlock usings params blocks =>
    obtain ⟨husings, hparams, hblocks⟩ := Node.scriptBlock.inj hn
    obtain rfl := List.map_eq_nil_iff.mp husings
    obtain rfl := Option.map_eq_none_iff.mp hparams
    obtain ⟨block, rfl, hblock⟩ := List.map_eq_singleton_iff.mp hblocks
    have hblockHeld := h.child (s := block) (by simp [Node.children])
    obtain ⟨b, n⟩ := block
    have hn := shape_inv hblock
    rw [Tree.node_mk] at hn
    cases n with
    | namedBlock kind unnamed statements traps =>
      obtain ⟨rfl, rfl, hstatements, htraps⟩ := Node.namedBlock.inj hn
      obtain rfl := List.map_eq_nil_iff.mp htraps
      obtain ⟨y, rfl, hy⟩ := List.map_eq_singleton_iff.mp hstatements
      exact ⟨y, ⟨root, b, hroot, h.get?, hblockHeld.get?⟩,
        hblockHeld.child (by simp [Node.children]), hy⟩
    | _ => cases hn
  | _ => cases hn

end Arena

namespace Script
open Grammar

variable {path contextVariable method value text : String} {values : List String}

/-- What is read of the chunks of a text, if the ids are enough for its nodes. -/
theorem parseWithin_reads {maxDepth k : Nat} {chunks : List Chunk} {sh : Tree Unit}
    (hclean : Chunk.Clean chunks []) (htext : text.toList = Chunk.textOf chunks)
    (run : ∀ t : State, t.place.At text.toList [] ([] ++ chunks) → Stacked (k + 1) 0 t t [] k →
      Outcome (scriptBlock (nested maxDepth) .endOfText) ⟨text.toList, maxDepth⟩ t (Spent (k + 1))
        (Grammar.Reads ⟨text.toList, maxDepth⟩ (k + 1) 0 t [] 0 [] sh)) :
    (∃ a x, parseWithin maxDepth text = .ok a ∧ a.root? = some x.label ∧ a.Holds x ∧
      x.shape = sh) ∨
    parseWithin maxDepth text = .error (.refused (.arena .full)) ∧ Arena.idLimit ≤ k := by
  have hlex := Lexeme.ofText?_of_clean hclean
  rw [← htext] at hlex
  have hstart (p : Place) : Stacked (k + 1) 0 { place := p } { place := p } [] k :=
    { Arena.Gains.refl Arena.tidy_empty with
      depth := rfl
      room := Nat.le_of_eq (Nat.add_comm 1 k) }
  have hrun := run { place := { rest := Chunk.lexemes 0 chunks } }
    (by rw [htext]; exact Place.at_start _) (hstart _)
  unfold Outcome at hrun
  rw [parseWithin, hlex]
  dsimp only
  rw [script]
  dsimp only at hrun ⊢
  generalize scriptBlock (nested maxDepth) .endOfText ⟨text.toList, maxDepth⟩ _ = r at hrun ⊢
  cases r with
  | ok root s =>
    obtain ⟨x, hx, -, rfl, hshape⟩ := hrun
    exact .inl ⟨_, x, rfl, rfl, (hx.held x (by simp)).withRoot, hshape⟩
  | error f s =>
    obtain ⟨rfl, hfull⟩ := hrun
    exact .inr ⟨rfl, Nat.le_of_lt_succ hfull⟩

/-- What is read of the text of an assigned call. -/
theorem parse_assigned (hpath : (Token.variableName path).Occurs) (hown : IsOwnPath path)
    (hne : contextVariable ≠ "") (hbrace : '\x7d' ∉ contextVariable.toList)
    (hcontext : IsOwnPath contextVariable) (hmethod : (Token.word method).Occurs)
    (htext : text.toList = Chunk.textOf (Chunk.assigned path contextVariable method value values)) :
    (∃ a x, parse text = .ok a ∧ a.root? = some x.label ∧ a.Holds x ∧
      x.shape = loneShape (assignedShape path contextVariable method (value :: values))) ∨
    parse text = .error (.refused (.arena .full)) ∧ Arena.idLimit ≤ (value :: values).length + 9 := by
  obtain ⟨hpathNe, hpathBrace⟩ := Token.path_of_occurs hpath
  have hclean : Chunk.Clean (Chunk.assigned path contextVariable method value values) [] :=
    Chunk.assigned_clean hpathNe hpathBrace hne hbrace hmethod
  exact parseWithin_reads hclean htext fun t hp ht =>
    script_reads (i := ⟨text.toList, defaultMaxDepth⟩) (n := 122) hown hcontext
      (ht.resize (by simp)) rfl hp

end Script

namespace Injection
open Grammar

variable {role : Role} {config : Config} {path method : String} {arguments : List String}

theorem occurs_method (h : role.fetchMethod? = some method) : (Token.word method).Occurs := by
  cases role with
  | injectVariable | injectParameter | injectSecret | injectDatabase | injectConstant =>
    obtain rfl := Option.some.inj h
    exact Token.occurs_word rfl rfl (List.all_eq_true.mp (by decide))
  | _ => cases h

/-- An assigned call is written as a text that is read as one statement of the same shape, with the
same strings, whatever strings they are. There are too few ids to read it only if the copy did not
even have the parameter of the context yet, which stands before all statements. -/
theorem applyFetch_readsBack (inj : Injection) (a c : Arena) (k : Copier) (id : NodeId)
    (n : Node NodeId) (hmethod : role.fetchMethod? = some method)
    (hvalid : config.validate = .ok ()) (hcontext : (scope? config.contextVariable).isSome)
    (hinj : inj.contextVariable = config.contextVariable)
    (hpath : (Token.variableName path).Occurs) (hown : IsOwnPath path) (hne : arguments ≠ [])
    (hc : c.Tidy) :
    match inj.applyFetch a k ⟨method, some path, arguments, .statement⟩ id n c with
    | .error e => e = .arena .full ∧ Arena.idLimit < c.nextId + (arguments.length + 7)
    | .ok (built, b) => ∃ s text, built = some s ∧
        b.AssignsCall s path config.contextVariable method arguments ∧
        Source.generate b s = .ok text ∧
        ((∃ p t, Script.parse text = .ok p ∧ p.IsOnlyStatement t ∧ b.sameShape s p t = true ∧
            p.AssignsCall t path config.contextVariable method arguments) ∨
          Script.parse text = .error (.refused (.arena .full)) ∧
            Arena.idLimit ≤ arguments.length + 9 ∧ c.nextId ≤ 2) := by
  have hcosts : Copying.Costs
      (inj.applyFetch a k ⟨method, some path, arguments, .statement⟩ id n)
      (arguments.length + 7) := Copying.costs_assigned
  have hgives : Copying.Gives []
      (inj.applyFetch a k ⟨method, some path, arguments, .statement⟩ id n) fun built zs =>
        ∃ z : Located, zs = [z] ∧ built = some z.id ∧
          z.ids.shape = assignedShape path inj.contextVariable method arguments :=
    Copying.applyFetch_assigns
  replace hcosts := hcosts c hc.positive hc.nextId_le
  have hstart : c.Gains c ([] ++ ([] : List Located).map Located.ids) := Arena.Gains.refl hc
  replace hgives := hgives hstart (List.forall_mem_nil _)
  cases hrun : inj.applyFetch a k ⟨method, some path, arguments, .statement⟩ id n c with
  | error e =>
    rw [hrun] at hcosts hgives
    exact ⟨hgives, hcosts⟩
  | ok r =>
    obtain ⟨built, b⟩ := r
    rw [hrun] at hcosts hgives
    obtain ⟨-, _, hgains, -, z, rfl, rfl, hshape⟩ := hgives
    have hheld : b.Holds z.ids := hgains.held z.ids (by simp)
    rw [hinj] at hshape
    have hassigns := Arena.assignsCall_of_shape hheld hshape
    rw [Located.label_ids] at hassigns
    obtain ⟨value, values, rfl⟩ := List.exists_cons_of_ne_nil hne
    obtain ⟨hname, hchars⟩ := Config.contextVariable_of_validate hvalid
    have hbrace : '\x7d' ∉ config.contextVariable.toList := fun hmem =>
      absurd (hchars _ hmem) (by decide +kernel)
    refine ⟨z.id, _, rfl, hassigns, Source.generate_assignsCall hgains.tidy hassigns, ?_⟩
    rcases Script.parse_assigned hpath hown hname hbrace
      (Config.isOwnPath_of_validate hvalid hcontext) (occurs_method hmethod)
      Chunk.textOf_assigned.symm with ⟨p, x, hparse, hroot, hx, hxshape⟩ | ⟨hfull, hlimit⟩
    · obtain ⟨y, honly, hy, hyshape⟩ := Arena.isOnlyStatement_of_shape hroot hx hxshape
      refine .inl ⟨p, y.label, hparse, honly, ?_, Arena.assignsCall_of_shape hy hyshape⟩
      rw [← Located.label_ids]
      exact (hheld.sameShape_iff hy).mpr (hshape.trans hyshape.symm)
    · exact .inr ⟨hfull, hlimit, by omega⟩

/-- A variable that needs braces gets a secret of which the name has a quote. -/
theorem applyFetch_readsBack_quote : ∃ b s p t text,
    applyFetch { contextVariable := "PSyringeContext", namespaces := [], root? := none, fetches := [] }
      {} ⟨fun _ => throw (.arena .full), fun _ => throw (.arena .full)⟩
      ⟨"GetSecret", some "my var", ["it's"], .statement⟩ 1 (.error "") {} = .ok (some s, b) ∧
    Source.generate b s = .ok text ∧ Script.parse text = .ok p ∧ p.IsOnlyStatement t ∧
    b.sameShape s p t = true ∧ p.AssignsCall t "my var" "PSyringeContext" "GetSecret" ["it's"] := by
  have hreads := @applyFetch_readsBack .injectSecret {} "my var" "GetSecret" ["it's"]
    { contextVariable := "PSyringeContext", namespaces := [], root? := none, fetches := [] } {} {}
    ⟨fun _ => throw (.arena .full), fun _ => throw (.arena .full)⟩ 1 (.error "") rfl
    (by decide +kernel) (by decide) rfl ⟨'$', "\x7bmy var\x7d".toList, 9, by decide⟩
    ⟨"", by decide, by decide⟩ (by decide) Arena.tidy_empty
  cases hrun : applyFetch
      { contextVariable := "PSyringeContext", namespaces := [], root? := none, fetches := [] }
      {} ⟨fun _ => throw (.arena .full), fun _ => throw (.arena .full)⟩
      ⟨"GetSecret", some "my var", ["it's"], .statement⟩ 1 (.error "") {} with
  | error e =>
    rw [hrun] at hreads
    exact absurd hreads.2 (by decide)
  | ok r =>
    obtain ⟨built, b⟩ := r
    rw [hrun] at hreads
    obtain ⟨s, text, rfl, -, htext, ⟨p, t, hparse, hreads⟩ | ⟨-, hlimit, -⟩⟩ := hreads
    · exact ⟨b, s, p, t, text, rfl, htext, hparse, hreads⟩
    · exact absurd hlimit (by decide)

end Injection

end ScriptInject
