import ScriptInject.Injection
import ScriptInject.Proofs.Copying
/-! The rewritten script as a tree. Each node of it tells which node of the source it stands for, if
it stands for one. -/
namespace ScriptInject

namespace Tree

variable {ι : Type}

/-- The marker that an attribute is. -/
def marker? (t : Tree ι) : Option Marker :=
  match t.node with
  | .attributeSpec type _ _ => Marker.ofTypeName? type.fullName
  | _ => none

def isMarker (t : Tree ι) : Bool := t.marker?.isSome

def hasMarker : Node (Tree ι) → Bool
  | .paramBlock attributes _ => attributes.any isMarker
  | .parameter attributes _ _ => attributes.any isMarker
  | .annotated mark _ => mark.isMarker
  | _ => false

end Tree

namespace Injection

/-- The copy of a tree, and what stands right below its top with the copies of that. -/
structure Copied where
  tree : Tree (Option NodeId)
  parts : Node (Tree NodeId × Tree (Option NodeId))

variable (inj : Injection)

def isPreparedLine (t : Tree NodeId) : Bool :=
  match t.node with
  | .usingStatement .namespaceName name => inj.namespaces.any (Text.caselessEq · name)
  | _ => false

def contextCopy : Tree (Option NodeId) := .mk none (.variableRef inj.contextVariable false)

def callCopy (f : Fetch) : Tree (Option NodeId) :=
  .mk none (.invokeMember inj.contextCopy (.mk none (.stringConstant f.method .bareWord))
    (f.arguments.map fun value => .mk none (.stringConstant value .singleQuoted)) false false)

/-- The copies of the attributes that are no markers. -/
def keptCopies (attributes : List (Tree NodeId × Tree (Option NodeId))) :
    List (Tree (Option NodeId)) :=
  (attributes.filter (!·.1.isMarker)).map (·.2)

/-- What a call makes of a node in whose place it is put. -/
def fetchedCopy? (f : Fetch) (id : NodeId) (n : Node (Tree NodeId × Tree (Option NodeId))) :
    Option (Tree (Option NodeId)) :=
  match f.placement, f.path?, n with
  | .expression, _, _ | .statement, none, _ => some (inj.callCopy f)
  | .statement, some path, _ =>
    some (.mk (some id) (.assignment (.mk none (.variableRef path false)) .assign
      (.mk none (.pipeline [.mk none (.commandExpression (inj.callCopy f))]))))
  | .parameter, _, .parameter attributes name _ =>
    some (.mk (some id) (.parameter (keptCopies attributes) name.2 (some (inj.callCopy f))))
  | .parameter, _, _ => none

def contextParameterCopy : Tree (Option NodeId) :=
  .mk none (.parameter [] inj.contextCopy none)

def rootParamsCopy : Option (Tree NodeId × Copied) → Tree (Option NodeId)
  | none => .mk none (.paramBlock [] [inj.contextParameterCopy])
  | some (params, copied) =>
    .mk (some params.label) <|
      match copied.parts with
      | .paramBlock attributes parameters =>
        .paramBlock (keptCopies attributes) (inj.contextParameterCopy :: parameters.map (·.2))
      | parts => parts.map Prod.snd

/-- What a node becomes without its markers. -/
def strippedCopy? (id : NodeId) :
    Node (Tree NodeId × Copied) → Option (Tree (Option NodeId))
  | .scriptBlock usings params? blocks =>
    if inj.root? = some id then
      some (.mk (some id) (.scriptBlock
        ((usings.filter (!inj.isPreparedLine ·.1)).map (·.2.tree))
        (some (inj.rootParamsCopy params?)) (blocks.map (·.2.tree))))
    else none
  | .paramBlock attributes parameters =>
    some (.mk (some id) (.paramBlock
      (keptCopies (attributes.map fun (t, c) => (t, c.tree))) (parameters.map (·.2.tree))))
  | .parameter attributes name value =>
    some (.mk (some id) (.parameter
      (keptCopies (attributes.map fun (t, c) => (t, c.tree))) name.2.tree (value.map (·.2.tree))))
  | .annotated _ child => some child.2.tree
  | _ => none

def copyNode (id : NodeId) (n : Node (Tree NodeId × Copied)) : Copied :=
  let parts := n.map fun (t, c) => (t, c.tree)
  let replaced? := match inj.fetch? id with
    | some f => inj.fetchedCopy? f id parts
    | none =>
      if inj.root? == some id || Tree.hasMarker (n.map Prod.fst) then inj.strippedCopy? id n else none
  { tree := replaced?.getD (.mk (some id) (parts.map Prod.snd)), parts }

def copied : Tree NodeId → Copied := Tree.para inj.copyNode

/-- The script with its calls in place. -/
def rewrite (t : Tree NodeId) : Tree (Option NodeId) := (inj.copied t).tree

variable {inj : Injection} {id : NodeId} {n : Node (Tree NodeId)} {t : Tree NodeId}

theorem copied_mk : inj.copied (.mk id n) = inj.copyNode id (n.map fun t => (t, inj.copied t)) :=
  Tree.para_mk ..

theorem parts_copied (t : Tree NodeId) :
    (inj.copied t).parts = t.node.map fun s => (s, inj.rewrite s) := by
  obtain ⟨id, n⟩ := t
  rw [copied_mk, copyNode, Tree.node_mk]
  exact Node.map_map ..

theorem tree_copied (t : Tree NodeId) : (inj.copied t).tree = inj.rewrite t := rfl

@[simp] theorem keptCopies_map {α : Type} (f : α → Tree NodeId × Tree (Option NodeId))
    (xs : List α) : keptCopies (xs.map f) =
      (xs.filter fun x => !(f x).1.isMarker).map fun x => (f x).2 := by
  simp [keptCopies, List.filter_map, Function.comp_def]

/-- The ways in which a node is copied. -/
theorem rewrite_mk : inj.rewrite (.mk id n) =
    ((match inj.fetch? id with
      | some f => inj.fetchedCopy? f id (n.map fun s => (s, inj.rewrite s))
      | none =>
        if inj.root? == some id || Tree.hasMarker n then
          inj.strippedCopy? id (n.map fun s => (s, inj.copied s))
        else none).getD (.mk (some id) (n.map inj.rewrite))) := by
  rw [rewrite, copied_mk, copyNode]
  simp only [Node.map_map, Function.comp_def]
  rw [show n.map (fun x => x) = n from Node.map_id n]
  rfl

theorem rewrite_eq (t : Tree NodeId) : inj.rewrite t =
    ((match inj.fetch? t.label with
      | some f => inj.fetchedCopy? f t.label (t.node.map fun s => (s, inj.rewrite s))
      | none =>
        if inj.root? == some t.label || Tree.hasMarker t.node then
          inj.strippedCopy? t.label (t.node.map fun s => (s, inj.copied s))
        else none).getD (.mk (some t.label) (t.node.map inj.rewrite))) := by
  obtain ⟨id, n⟩ := t
  exact rewrite_mk

/-- A node without the markers among its attributes. -/
def withoutMarkers : Node (Tree NodeId) → Node (Tree NodeId)
  | .paramBlock attributes parameters => .paramBlock (attributes.filter (!·.isMarker)) parameters
  | .parameter attributes name value => .parameter (attributes.filter (!·.isMarker)) name value
  | n => n

/-- The first parameters of the script. -/
def paramsCopy (inj : Injection) : Option (Tree NodeId) → Tree (Option NodeId)
  | none => .mk none (.paramBlock [] [inj.contextParameterCopy])
  | some params =>
    .mk (some params.label) <|
      match params.node with
      | .paramBlock attributes parameters =>
        .paramBlock ((attributes.filter (!·.isMarker)).map inj.rewrite)
          (inj.contextParameterCopy :: parameters.map inj.rewrite)
      | n => n.map inj.rewrite

theorem rootParamsCopy_eq (params? : Option (Tree NodeId)) :
    inj.rootParamsCopy (params?.map fun p => (p, inj.copied p)) = inj.paramsCopy params? := by
  cases params? with
  | none => rfl
  | some p =>
    rw [Option.map_some, rootParamsCopy, paramsCopy, parts_copied]
    cases p.node <;> simp [Node.map, Function.comp_def]

/-- Calls are put only where there is a place for them, and the root is a script. -/
structure Suits (inj : Injection) (id : NodeId) (n : Node (Tree NodeId)) : Prop where
  parameter : ∀ f, inj.fetch? id = some f → f.placement = .parameter →
    ∃ attributes name value, n = .parameter attributes name value
  place : ∀ f, inj.fetch? id = some f → ∀ attributes parameters,
    n ≠ .paramBlock attributes parameters
  root : inj.root? = some id → ∃ usings params? blocks, n = .scriptBlock usings params? blocks

/-- What becomes of a node. -/
inductive Becomes (inj : Injection) (id : NodeId) :
    Node (Tree NodeId) → Tree (Option NodeId) → Prop
  | called {m f} : inj.fetch? id = some f → f.placement ≠ .parameter →
      (f.placement = .statement → f.path? = none) → Becomes inj id m (inj.callCopy f)
  | assigned {m f path} : inj.fetch? id = some f → f.placement = .statement →
      f.path? = some path →
      Becomes inj id m (.mk (some id) (.assignment (.mk none (.variableRef path false)) .assign
        (.mk none (.pipeline [.mk none (.commandExpression (inj.callCopy f))]))))
  | defaulted {f attributes name value} : inj.fetch? id = some f → f.placement = .parameter →
      Becomes inj id (.parameter attributes name value) (.mk (some id)
        (.parameter ((attributes.filter (!·.isMarker)).map inj.rewrite) (inj.rewrite name)
          (some (inj.callCopy f))))
  | script {usings params? blocks} : inj.fetch? id = none → inj.root? = some id →
      Becomes inj id (.scriptBlock usings params? blocks) (.mk (some id) (.scriptBlock
        ((usings.filter (!inj.isPreparedLine ·)).map inj.rewrite) (some (inj.paramsCopy params?))
        (blocks.map inj.rewrite)))
  | unwrapped {mark child} : inj.fetch? id = none → mark.isMarker = true →
      Becomes inj id (.annotated mark child) (inj.rewrite child)
  | copied {m} : inj.fetch? id = none →
      (∀ mark child, m = .annotated mark child → mark.isMarker = false) → inj.root? ≠ some id →
      Becomes inj id m (.mk (some id) ((withoutMarkers m).map inj.rewrite))

theorem becomes (hp : inj.Suits id n) : inj.Becomes id n (inj.rewrite (.mk id n)) := by
  rw [rewrite_mk]
  cases hf : inj.fetch? id with
  | some f =>
    cases hplace : f.placement with
    | expression => simpa [fetchedCopy?, hplace] using Becomes.called hf (by simp [hplace]) (by simp [hplace])
    | statement =>
      cases hpath : f.path? with
      | none => simpa [fetchedCopy?, hplace, hpath] using Becomes.called hf (by simp [hplace]) fun _ => hpath
      | some path => simpa [fetchedCopy?, hplace, hpath] using Becomes.assigned hf hplace hpath
    | parameter =>
      obtain ⟨attributes, name, value, rfl⟩ := hp.parameter f hf hplace
      simp only [fetchedCopy?, hplace, Node.map, Option.getD_some, keptCopies_map]
      exact .defaulted hf hplace
  | none =>
    dsimp only
    by_cases hroot : inj.root? = some id
    · obtain ⟨usings, params?, blocks, rfl⟩ := hp.root hroot
      have hscript := @Becomes.script inj id usings params? blocks hf hroot
      have hparams := @rootParamsCopy_eq inj params?
      simp only [hroot, beq_self_eq_true, Bool.true_or, if_true, strippedCopy?, Node.map,
        Option.getD_some, hparams]
      simpa [List.filter_map, Function.comp_def, tree_copied] using hscript
    split
    · rename_i happlies
      cases n with
      | paramBlock attributes parameters =>
        have hcopied := Becomes.copied (m := .paramBlock attributes parameters) hf (by simp) hroot
        simpa [strippedCopy?, Node.map, withoutMarkers, Function.comp_def, tree_copied]
          using hcopied
      | parameter attributes name value =>
        have hcopied := Becomes.copied (m := .parameter attributes name value) hf (by simp) hroot
        simpa [strippedCopy?, Node.map, withoutMarkers, Function.comp_def, tree_copied]
          using hcopied
      | annotated mark child =>
        exact .unwrapped hf (by simpa [hroot, Tree.hasMarker] using happlies)
      | scriptBlock usings params? blocks =>
        simp only [strippedCopy?, Node.map, hroot, if_false, Option.getD_none]
        exact .copied hf (by simp) hroot
      | _ => exact .copied hf (by simp) hroot
    · rename_i happlies
      obtain ⟨-, hm⟩ : inj.root? ≠ some id ∧ Tree.hasMarker n = false := by simpa using happlies
      have hkept {xs : List (Tree NodeId)} (h : xs.any Tree.isMarker = false) :
          xs.filter (!·.isMarker) = xs := by
        rw [List.filter_eq_self]
        simpa using h
      have hsame : withoutMarkers n = n := by
        cases n with
        | paramBlock attributes parameters => rw [withoutMarkers, hkept hm]
        | parameter attributes name value => rw [withoutMarkers, hkept hm]
        | _ => rfl
      have hcopied := @Becomes.copied inj id n hf ?_ hroot
      · rwa [hsame] at hcopied
      · rintro mark child rfl
        exact hm

end Injection

namespace Arena

/-- The span that the source has where a copied node comes from. -/
def sourceSpan (a : Arena) (origin : Option NodeId) : Option Span := origin.bind a.span?

theorem Holds.node {a : Arena} {t : Tree NodeId} (h : a.Holds t) :
    a.node t.label = .ok (t.node.map Tree.label) := by
  rw [Arena.node, h.get?]

theorem Holds.marker? {a : Arena} {t : Tree NodeId} (h : a.Holds t) :
    a.marker? t.label = t.marker? := by
  rw [Arena.marker?, h.get?, Tree.marker?]
  cases t.node <;> rfl

end Arena

namespace Copying

variable {β : Type} {a : Arena} {inj : Injection} {t : Tree NodeId} {xs : List (Tree NodeId)}
  {us : List Located} {f : Node NodeId → Copying β} {Q : β → List Located → Prop}
  {copy rebuild : NodeId → Copying NodeId} {g : Tree NodeId → Tree (Option Span)}

theorem node_bind (h : a.Holds t) (hf : Gives us (f (t.node.map Tree.label)) Q) :
    Gives us (do f (← a.node t.label)) Q := by
  rw [h.node]
  exact hf

theorem rebuildWith_copies (h : a.Holds t)
    (hc : ∀ x ∈ t.node.children, Copies (copy x.label) (g x)) :
    Copies (Replacement.rebuildWith a copy t.label) (.mk (a.span? t.label) (t.node.map g)) := by
  refine node_bind h ?_
  refine (copies_node hc).step fun _ _ ⟨w, hw, hn, hspans⟩ => ?_
  exact .made hw hn hspans

/-- Which attributes are kept is told by their trees. -/
theorem keptAttributes_eq (hheld : ∀ x ∈ xs, a.Holds x) :
    Injection.keptAttributes a ⟨copy, rebuild⟩ (xs.map Tree.label) =
      ((xs.filter (!·.isMarker)).map Tree.label).mapM copy := by
  rw [Injection.keptAttributes, List.filter_map]
  congr 2
  refine List.filter_congr fun x hx => ?_
  simp [Injection.isMarker, (hheld x hx).marker?, Tree.isMarker]

theorem keptAttributes_gives (hheld : ∀ x ∈ xs, a.Holds x)
    (hc : ∀ x ∈ xs, Copies (copy x.label) (g x)) :
    Gives [] (Injection.keptAttributes a ⟨copy, rebuild⟩ (xs.map Tree.label)) fun ids zs =>
      ids = zs.map Located.id ∧ zs.map Located.spans = (xs.filter (!·.isMarker)).map g := by
  rw [keptAttributes_eq hheld]
  exact copies_list fun x hx => hc x (List.mem_filter.mp hx).1

/-! What is put in. -/

theorem variable_copies (path : String) :
    Copies (addNew (.variableRef path false)) (.mk none (.variableRef path false)) :=
  Gives.made (n := .variableRef path false) rfl rfl rfl

theorem text_copies (value : String) (kind : StringKind) :
    Copies (addNew (.stringConstant value kind)) (.mk none (.stringConstant value kind)) :=
  Gives.made (n := .stringConstant value kind) rfl rfl rfl

theorem context_copies : Copies inj.context (inj.contextCopy.map a.sourceSpan) := by
  rw [Injection.contextCopy, Tree.map_mk]
  exact variable_copies _

theorem call_copies (f : Fetch) : Copies (inj.call f) ((inj.callCopy f).map a.sourceSpan) := by
  rw [Injection.callCopy, Tree.map_mk]
  refine (@context_copies a inj).step fun _ _ ⟨x, hx⟩ => ?_
  refine (text_copies f.method .bareWord).step fun _ _ ⟨y, hy⟩ => ?_
  refine (copies_each fun value _ => text_copies value .singleQuoted).step fun _ zs hz => ?_
  refine .made (n := .invokeMember x y zs false false) ?_ ?_ ?_
  · simp [Node.children, hx, hy]
  · simp [Node.map, hx, hy, hz]
  · simp [Node.map, hx, hy, hz, Tree.map_mk, Arena.sourceSpan, Function.comp_def]

theorem contextParameter_copies :
    Copies inj.contextParameter (inj.contextParameterCopy.map a.sourceSpan) := by
  rw [Injection.contextParameterCopy, Tree.map_mk]
  refine (@context_copies a inj).step fun _ _ ⟨x, hx⟩ => ?_
  refine .made (n := .parameter [] x none) ?_ ?_ ?_
  · simp [Node.children, hx]
  · simp [Node.map, hx]
  · simp [Node.map, hx]

/-! What stands for a node. -/

variable {depth : Nat}

/-- The copy of a tree with the spans that the source has. -/
def traced (a : Arena) (inj : Injection) (t : Tree NodeId) : Tree (Option Span) :=
  (inj.rewrite t).map a.sourceSpan

theorem rootParams_copies {params? : Option (Tree NodeId)} (hheld : ∀ p ∈ params?, a.Holds p)
    (hc : ∀ p ∈ params?, ∀ x ∈ p.node.children, Copies (copy x.label) (traced a inj x)) :
    Copies (inj.rootParams a ⟨copy, Replacement.rebuildWith a copy⟩ (params?.map Tree.label))
      ((inj.rootParamsCopy (params?.map fun p => (p, inj.copied p))).map a.sourceSpan) := by
  refine (@contextParameter_copies a inj).step ?_
  rintro _ _ ⟨c, hcs, hcid, hcspans⟩
  cases params? with
  | none =>
    rw [Option.map_none, Option.map_none, Injection.rootParamsCopy, Tree.map_mk]
    refine .made (n := .paramBlock [] [c]) ?_ ?_ ?_
    · simp [Node.children, hcs]
    · simp [Node.map, hcid]
    · simp [Node.map, hcspans]
  | some p =>
    have hp := hheld p rfl
    have hx := hc p rfl
    rw [Option.map_some, Option.map_some, Injection.rootParamsCopy, Tree.map_mk,
      Injection.parts_copied]
    refine node_bind hp ?_
    have hrebuild := @rebuildWith_copies a p copy (traced a inj) hp hx
    cases hn : p.node with
    | paramBlock attributes parameters =>
      rw [hn] at hx
      have hattributes := @keptAttributes_gives a attributes copy (Replacement.rebuildWith a copy)
        (traced a inj) (fun x hxa => hp.child (by simp [hn, Node.children, hxa]))
        fun x hxa => hx x (by simp [Node.children, hxa])
      have hparameters := @copies_list copy (traced a inj) parameters
        fun x hxp => hx x (by simp [Node.children, hxp])
      refine hattributes.step ?_
      rintro _ as ⟨has, hasspans⟩
      refine hparameters.step ?_
      rintro _ ps ⟨hps, hpsspans⟩
      refine Gives.reorder (?_ : Gives (as ++ [c] ++ ps) _ _) ?_
      · refine .made (n := .paramBlock as (c :: ps)) ?_ ?_ ?_
        · simp [Node.children]
        · simp [Node.map, has, hps, hcid]
        · simp [Node.map, hcspans, hasspans, hpsspans, traced]
      · rw [hcs, List.nil_append]
        exact List.perm_append_comm.append_right ps
    | _ =>
      rw [hn] at hrebuild
      simp only [Node.map, List.map_map, Option.map_map]
      exact hrebuild.after

/-- What came out is what was to stand for the node, or nothing where nothing was to. -/
def Stands (x : Option (Tree (Option Span))) (id : Option NodeId) (zs : List Located) : Prop :=
  match x with
  | some x => ∃ z : Located, zs = [z] ∧ id = some z.id ∧ z.spans = x
  | none => id = none

theorem stands_some {m : Copying NodeId} {x : Tree (Option Span)}
    (h : Gives us m fun id zs => ∃ z : Located, zs = [z] ∧ z.id = id ∧ z.spans = x) :
    Gives us (do return some (← m)) (Stands (some x)) :=
  h.bind fun _ _ ⟨z, hzs, hid, hz⟩ => .pure ⟨z, hzs, congrArg some hid.symm, hz⟩

/-- A call is assigned to a variable. -/
theorem assignment_gives {c : Located} {call : Tree (Option Span)} {path : String}
    {span : Option Span} (hc : c.spans = call) :
    Gives [c] (do
      let left ← addNew (.variableRef path false)
      let expression ← addNew (.commandExpression c.id)
      let right ← addNew (.pipeline [expression])
      return some (← add (.assignment left .assign right) span))
      (Stands (some (.mk span (.assignment (.mk none (.variableRef path false)) .assign
        (.mk none (.pipeline [.mk none (.commandExpression call)])))))) := by
  refine (variable_copies path).step ?_
  rintro _ _ ⟨x, hxs, hxid, hx⟩
  refine Gives.reorder (?_ : Gives ([x] ++ [c]) _ _) (by rw [hxs]; exact List.perm_append_comm)
  refine (Gives.made (n := .commandExpression c) rfl rfl rfl).onto ?_
  rintro _ _ ⟨e, hes, heid, he⟩
  rw [hes]
  refine (Gives.made (n := .pipeline [e]) rfl (by simp [Node.map, heid]) rfl).onto ?_
  rintro _ _ ⟨y, hys, hyid, hy⟩
  refine stands_some ?_
  refine .made (n := .assignment x .assign y) ?_ ?_ ?_
  · rw [hys]
    rfl
  · simp [Node.map, hxid, hyid]
  · simp [Node.map, hx, hy, he, hc]

theorem applyFetch_gives (f : Fetch) (h : a.Holds t)
    (hc : ∀ x ∈ t.node.children, Copies (copy x.label) (traced a inj x)) :
    Gives [] (inj.applyFetch a ⟨copy, rebuild⟩ f t.label (t.node.map Tree.label))
      (Stands ((inj.fetchedCopy? f t.label (t.node.map fun s => (s, inj.rewrite s))).map
        (Tree.map a.sourceSpan))) := by
  refine (@call_copies a inj f).step ?_
  rintro _ _ ⟨c, hcs, hcid, hcspans⟩
  have hcall {us : List Located} : us = [c] →
      Gives us (pure (some c.id)) (Stands (some ((inj.callCopy f).map a.sourceSpan))) := by
    rintro rfl
    exact .pure ⟨c, rfl, rfl, hcspans⟩
  obtain rfl := hcid
  rw [List.nil_append, hcs]
  unfold Injection.fetchedCopy?
  cases hplacement : f.placement with
  | expression => exact hcall rfl
  | statement =>
    cases hpath : f.path? with
    | none => exact hcall rfl
    | some path =>
      simp only [Option.map_some, Tree.map_mk]
      exact assignment_gives hcspans
  | parameter =>
    cases hn : t.node with
    | parameter attributes name value =>
      rw [hn] at hc
      have hattributes := @keptAttributes_gives a attributes copy rebuild (traced a inj)
        (fun x hxa => h.child (by simp [hn, Node.children, hxa]))
        fun x hxa => hc x (by simp [Node.children, hxa])
      refine hattributes.step ?_
      rintro _ as ⟨has, hasspans⟩
      refine (hc name (by simp [Node.children])).step ?_
      rintro _ _ ⟨x, hxs, hxid, hx⟩
      simp only [Node.map, Option.map_some, Tree.map_mk]
      refine stands_some (Gives.reorder (?_ : Gives (as ++ [x] ++ [c]) _ _) ?_)
      · refine .made (n := .parameter as x (some c)) ?_ ?_ ?_
        · simp [Node.children]
        · simp [Node.map, has, hxid]
        · simp [Node.map, hcspans, hasspans, hx, traced]
      · rw [hxs]
        exact List.perm_append_comm
    | _ => exact .pure rfl

theorem isPrepared_label (h : a.Holds t) :
    inj.isPrepared a t.label = inj.isPreparedLine t := by
  rw [Injection.isPrepared, h.get?, Injection.isPreparedLine]
  cases t.node with
  | usingStatement kind name => cases kind <;> rfl
  | _ => rfl

/-- Which lines go is told by their trees. -/
theorem filter_isPrepared (hheld : ∀ x ∈ xs, a.Holds x) :
    (xs.map Tree.label).filter (!inj.isPrepared a ·) =
      (xs.filter (!inj.isPreparedLine ·)).map Tree.label := by
  rw [List.filter_map]
  congr 1
  refine List.filter_congr fun x hx => ?_
  simp [isPrepared_label (hheld x hx)]

theorem strip_gives (h : a.Holds t)
    (hc : ∀ x ∈ t.node.children, Copies (copy x.label) (traced a inj x))
    (hcc : ∀ x ∈ t.node.children, ∀ y ∈ x.node.children, Copies (copy y.label) (traced a inj y)) :
    Gives [] (inj.strip a ⟨copy, Replacement.rebuildWith a copy⟩ t.label (t.node.map Tree.label))
      (Stands ((inj.strippedCopy? t.label (t.node.map fun s => (s, inj.copied s))).map
        (Tree.map a.sourceSpan))) := by
  have hattributes {xs : List (Tree NodeId)} (hx : ∀ x ∈ xs, x ∈ t.node.children) :=
    @keptAttributes_gives a xs copy (Replacement.rebuildWith a copy) (traced a inj)
      (fun x hxs => h.child (hx x hxs)) fun x hxs => hc x (hx x hxs)
  have hlist {xs : List (Tree NodeId)} (hx : ∀ x ∈ xs, x ∈ t.node.children) :=
    @copies_list copy (traced a inj) xs fun x hxs => hc x (hx x hxs)
  cases hn : t.node with
  | scriptBlock usings params? blocks =>
    simp only [hn, Node.children] at hc hcc hlist
    simp only [Node.map, Injection.strippedCopy?, Injection.strip]
    split
    · simp only [Option.map_some, Tree.map_mk]
      rw [filter_isPrepared fun x hx => h.child (by simp [hn, Node.children, hx])]
      refine (hlist fun x hx => by simp [(List.mem_filter.mp hx).1]).step ?_
      rintro _ us ⟨hus, husspans⟩
      refine (rootParams_copies (fun p hp => h.child ?_) fun p hp => hcc p ?_).step ?_
      · simp_all [Node.children]
      · simp_all
      rintro _ _ ⟨p, hp⟩
      refine (hlist fun x hx => by simp [hx]).step ?_
      rintro _ bs ⟨hbs, hbsspans⟩
      refine stands_some (.made (n := .scriptBlock us (some p) bs) ?_ ?_ ?_)
      · simp [Node.children, hp]
      · simp [Node.map, hus, hp, hbs]
      · simp [Node.map, husspans, hp, hbsspans, traced, Injection.tree_copied, List.filter_map,
          Function.comp_def]
    · exact .pure rfl
  | paramBlock attributes parameters =>
    simp only [hn, Node.children] at hc hattributes hlist
    simp only [Node.map, Injection.strippedCopy?, Option.map_some, Tree.map_mk]
    refine (hattributes fun x hx => List.mem_append_left _ hx).step ?_
    rintro _ as ⟨has, hasspans⟩
    refine (hlist fun x hx => List.mem_append_right _ hx).step ?_
    rintro _ ps ⟨hps, hpsspans⟩
    refine stands_some (.made (n := .paramBlock as ps) ?_ ?_ ?_)
    · simp [Node.children]
    · simp [Node.map, has, hps]
    · simp [Node.map, hasspans, hpsspans, traced, Injection.tree_copied]
  | parameter attributes name value =>
    simp only [hn, Node.children] at hc hattributes hlist
    simp only [Node.map, Injection.strippedCopy?, Option.map_some, Tree.map_mk]
    refine (hattributes fun x hx => by simp [hx]).step ?_
    rintro _ as ⟨has, hasspans⟩
    refine (hc name (by simp)).step ?_
    rintro _ _ ⟨x, hx⟩
    refine (copies_option fun u hu => hc u (by simp_all)).step ?_
    rintro _ _ ⟨y, hy⟩
    refine stands_some (.made (n := .parameter as x y) ?_ ?_ ?_)
    · simp [Node.children, hx, hy]
    · simp [Node.map, has, hx, hy]
    · simp [Node.map, hasspans, hx, hy, traced, Injection.tree_copied]
      rfl
  | annotated mark child =>
    rw [hn] at hc
    exact stands_some (hc child (by simp [Node.children]))
  | _ => exact .pure rfl

theorem hasMarker_map {n : Node (Tree NodeId)} (h : ∀ x ∈ n.children, a.Holds x) :
    Injection.hasMarker a (n.map Tree.label) = Tree.hasMarker n := by
  have hmarker {x : Tree NodeId} (hx : a.Holds x) : Injection.isMarker a x.label = x.isMarker := by
    rw [Injection.isMarker, hx.marker?, Tree.isMarker]
  have hany {xs : List (Tree NodeId)} (hx : ∀ x ∈ xs, x ∈ n.children) :
      (xs.map Tree.label).any (Injection.isMarker a) = xs.any Tree.isMarker := by
    rw [List.any_map, Bool.eq_iff_iff, List.any_eq_true, List.any_eq_true]
    refine exists_congr fun x => and_congr_right fun hxs => ?_
    rw [← hmarker (h x (hx x hxs))]
    rfl
  cases n with
  | paramBlock attributes _ => exact hany fun x hx => List.mem_append_left _ hx
  | parameter attributes _ _ =>
    exact hany fun x hx => List.mem_append_left _ (List.mem_append_left _ hx)
  | annotated mark _ => exact hmarker (h mark (by simp [Node.children]))
  | _ => rfl

/-- Which nodes are replaced is told by their trees. -/
theorem applies_eq (h : a.Holds t) :
    inj.replacement.applies a t.label (t.node.map Tree.label) =
      ((inj.fetch? t.label).isSome || inj.root? == some t.label || Tree.hasMarker t.node) := by
  rw [← hasMarker_map fun x hx => h.child hx]
  rfl

/-- Every part of the script is copied as the rewritten tree has it. -/
theorem copyUpTo_copies (ha : a.Tidy) {depth : Nat} (h : a.Holds t) (hd : t.label < depth) :
    Copies (Replacement.copyUpTo inj.replacement a depth t.label) (traced a inj t) := by
  induction depth generalizing t with
  | zero => exact absurd hd (Nat.not_lt_zero _)
  | succ depth ih =>
    have hle : t.label ≤ depth := Nat.le_of_lt_succ hd
    have hc : ∀ x ∈ t.node.children, Copies (Replacement.copyUpTo inj.replacement a depth x.label)
        (traced a inj x) := by
      intro x hx
      exact ih (h.child hx) (Nat.lt_of_lt_of_le (h.child_lt ha hx) hle)
    have hcc : ∀ x ∈ t.node.children, ∀ y ∈ x.node.children,
        Copies (Replacement.copyUpTo inj.replacement a depth y.label) (traced a inj y) := by
      intro x hx y hy
      have hlt := Nat.lt_trans ((h.child hx).child_lt ha hy) (h.child_lt ha hx)
      exact ih ((h.child hx).child hy) (Nat.lt_of_lt_of_le hlt hle)
    have hrebuild := rebuildWith_copies h hc
    have hor {m : Copying (Option NodeId)} {x : Option (Tree (Option NodeId))}
        {k : Option NodeId → Copying NodeId}
        (hm : Gives [] m (Stands (x.map (Tree.map a.sourceSpan))))
        (hsome : ∀ id, k (some id) = pure id)
        (hnone : k none = Replacement.rebuildWith a
          (Replacement.copyUpTo inj.replacement a depth) t.label) :
        Copies (m >>= k)
          ((x.getD (.mk (some t.label) (t.node.map inj.rewrite))).map a.sourceSpan) := by
      refine hm.bind fun o zs hzs => ?_
      cases x with
      | some x =>
        obtain ⟨z, rfl, rfl, hz⟩ := hzs
        rw [hsome]
        exact .pure ⟨z, rfl, rfl, hz⟩
      | none =>
        obtain rfl : o = none := hzs
        rw [hnone]
        refine hrebuild.after.imp ?_
        rintro id zs ⟨z, hzs, hid, hz⟩
        refine ⟨z, hzs, hid, ?_⟩
        rw [hz, Option.getD_none, Tree.map_mk, Node.map_map]
        rfl
    rw [Copies, Replacement.copyUpTo]
    refine node_bind h ?_
    rw [traced, Injection.rewrite_eq]
    rw [applies_eq h]
    dsimp only [Injection.replacement]
    cases inj.fetch? t.label with
    | some f => exact hor (applyFetch_gives f h hc) (fun _ => rfl) rfl
    | none =>
      simp only [Option.isSome_none, Bool.false_or]
      split
      · exact hor (strip_gives h hc hcc) (fun _ => rfl) rfl
      · rw [Option.getD_none, Tree.map_mk, Node.map_map]
        exact hrebuild

end Copying

/-- The script that comes out is the rewritten tree. It has the spans of the source where it comes
from the source. -/
theorem Injection.apply_reads {a : Arena} {inj : Injection} {t : Tree NodeId} (ha : a.Tidy)
    (h : a.Holds t) (hroot : a.root? = some t.label) :
    match inj.apply a with
    | .ok out => ∃ y : Tree NodeId, out.root? = some y.label ∧ out.Holds y ∧ out.Tidy ∧
        y.labels.Nodup ∧ y.map out.span? = (inj.rewrite t).map a.sourceSpan
    | .error e => e = .arena .full := by
  have hempty : Arena.Gains {} {} ([] ++ [].map Located.ids) := .refl Arena.tidy_empty
  have hrun := @Copying.copyUpTo_copies a inj t ha _ h (h.label_lt_depthBound ha) _ _ _ hempty
    (by simp)
  rw [Injection.apply, Replacement.apply_eq hroot]
  cases hm : inj.replacement.copyUpTo a a.depthBound t.label {} with
  | error e =>
    rw [hm] at hrun
    exact hrun
  | ok q =>
    obtain ⟨id, b⟩ := q
    rw [hm] at hrun
    obtain ⟨-, _, hb, hagrees, z, rfl, rfl, hz⟩ := hrun
    refine ⟨z.ids, ?_, (hb.held z.ids (by simp)).withRoot, hb.tidy.withRoot, ?_, ?_⟩
    · rw [z.label_ids]
      rfl
    · simpa using hb.nodup
    · rw [← Copying.traced, ← hz]
      exact (hagrees z (by simp)).map_ids

end ScriptInject
