import ScriptInject.Proofs.Binding
import ScriptInject.Proofs.Reach
import ScriptInject.Proofs.Reading.Script
/-! A script with its calls in place has no markers. -/
namespace ScriptInject

namespace Tree

variable {ι κ : Type} {t : Tree ι} {phrase : Phrase} {l : ι} {n : Node (Tree ι)}

/-- The attributes of what they stand on. -/
def attributesOf : Node (Tree ι) → List (Tree ι)
  | .paramBlock attributes _ => attributes
  | .parameter attributes _ _ => attributes
  | .annotated mark _ => [mark]
  | _ => []

/-- The children that are no attributes. -/
def unattributed : Node (Tree ι) → List (Tree ι)
  | .paramBlock _ parameters => parameters
  | .parameter _ name value => name :: value.toList
  | .annotated _ child => [child]
  | n => n.children

theorem mem_children {c : Tree ι} : c ∈ n.children ↔ c ∈ attributesOf n ∨ c ∈ unattributed n := by
  cases n <;> simp [attributesOf, unattributed, Node.children]

/-- Markers stand nowhere but among the attributes, and parameters are declared in their block. -/
structure MarksPlaced (n : Node (Tree ι)) : Prop where
  unattributed : ∀ c ∈ unattributed n, c.isMarker = false
  params : ∀ usings p blocks, n = .scriptBlock usings (some p) blocks →
    ∃ attributes parameters, p.node = .paramBlock attributes parameters

theorem marksPlaced_leaf (h : n.children = []) : (mk l n).All MarksPlaced := by
  refine all_mk.mpr ⟨⟨fun c hc => ?_, ?_⟩, fun c hc => ?_⟩
  · have hmem := mem_children.mpr (.inr hc)
    rw [h] at hmem
    exact absurd hmem nofun
  · rintro usings p blocks rfl
    simp [Node.children] at h
  · rw [h] at hc
    exact absurd hc nofun

theorem marksPlaced_iff : MarksPlaced n ↔ (∀ c ∈ unattributed n, c.isMarker = false) ∧
    ∀ usings p blocks, n = .scriptBlock usings (some p) blocks →
      ∃ attributes parameters, p.node = .paramBlock attributes parameters :=
  ⟨fun h => ⟨h.unattributed, h.params⟩, fun h => ⟨h.1, h.2⟩⟩

def takesMark : Phrase → Bool
  | .mark | .head => true
  | _ => false

theorem Fits.isMarker (h : Tree.Fits phrase t) (hp : takesMark phrase = false) :
    t.isMarker = false := by
  induction h with
  | headMark | attributeSpec => exact absurd hp nofun
  | headConstraint _ ih | statementPipeline _ _ ih | itemArgument _ ih | argumentOperand _ ih
  | expressionLevel _ ih | tighter _ _ ih | levelTarget _ ih | targetSimple _ ih
  | simpleReference _ ih | keyOperand _ ih => exact ih rfl
  | _ => rfl

theorem Fits.node_of_params (h : Tree.Fits .params t) :
    ∃ attributes parameters, t.node = .paramBlock attributes parameters := by
  cases h
  exact ⟨_, _, rfl⟩

theorem Fits.marksPlaced (h : Tree.Fits phrase t) : t.All MarksPlaced := by
  have hname {m : ι} {value : String} :
      (mk m (.stringConstant value .bareWord)).All MarksPlaced := marksPlaced_leaf rfl
  have hpath {m : ι} {path : String} :
      (mk m (.variableRef path false)).All MarksPlaced := marksPlaced_leaf rfl
  induction h with
  | headMark _ ih | headConstraint _ ih | statementPipeline _ _ ih | itemArgument _ ih
  | argumentOperand _ ih | expressionLevel _ ih | tighter _ _ ih | levelTarget _ ih
  | targetSimple _ ih | simpleReference _ ih | keyOperand _ ih => exact ih
  | _ =>
    simp only [all_mk, marksPlaced_iff, Node.children, unattributed, List.mem_append,
      List.mem_cons, List.not_mem_nil, or_false, List.mem_flatMap, Option.mem_toList]
    grind -ring -linarith [takesMark, Fits.isMarker, Fits.node_of_params, Tree.isMarker, marker?, node_mk]

/-- No node of the tree is a marker. -/
def Unmarked (t : Tree ι) : Prop := ∀ s ∈ t.subtrees, s.isMarker = false

theorem unmarked_mk : (mk l n).Unmarked ↔
    (mk l n).isMarker = false ∧ ∀ c ∈ n.children, c.Unmarked := by
  simp only [Unmarked, mem_subtrees_mk, forall_eq_or_imp]
  grind

theorem isMarker_map (f : ι → κ) (t : Tree ι) : (t.map f).isMarker = t.isMarker := by
  simp only [isMarker, marker?, node_map]
  cases t.node <;> rfl

theorem unmarked_map (f : ι → κ) : (t.map f).Unmarked ↔ t.Unmarked := by
  simp only [Unmarked, subtrees_map, List.forall_mem_map, isMarker_map]

end Tree

namespace Injection

open ScriptInject.Tree

variable {inj : Injection} {t : Tree NodeId} {f : Fetch} {id : NodeId} {n : Node (Tree NodeId)}

theorem callCopy_unmarked : (inj.callCopy f).Unmarked := by
  simp +contextual [callCopy, contextCopy, unmarked_mk, Node.children, Tree.isMarker, marker?]

theorem contextParameterCopy_unmarked : inj.contextParameterCopy.Unmarked := by
  simp [contextParameterCopy, contextCopy, unmarked_mk, Node.children, Tree.isMarker, marker?]

theorem kept_unmarked {xs : List (Tree NodeId)}
    (h : ∀ x ∈ xs, x.isMarker = false → (inj.rewrite x).Unmarked) :
    ∀ x ∈ xs.filter fun x => !x.isMarker, (inj.rewrite x).Unmarked := by
  intro x hx
  obtain ⟨hx, hm⟩ := List.mem_filter.mp hx
  exact h x hx (by simpa using hm)

/-- The children that are left are no markers. -/
theorem withoutMarkers_unmarked (hplaced : MarksPlaced n)
    (hmark : ∀ mark child, n = .annotated mark child → mark.isMarker = false) :
    ∀ c ∈ (withoutMarkers n).children, c ∈ n.children ∧ c.isMarker = false := by
  have hrest := hplaced.unattributed
  intro c hc
  cases n with
  | paramBlock attributes parameters =>
    rcases List.mem_append.mp hc with hc | hc
    · obtain ⟨hc, hm⟩ := List.mem_filter.mp hc
      exact ⟨List.mem_append_left _ hc, by simpa using hm⟩
    · exact ⟨List.mem_append_right _ hc, hrest c hc⟩
  | parameter attributes name value =>
    simp only [withoutMarkers, Node.children, List.append_assoc, List.mem_append] at hc ⊢
    rcases hc with hc | hc
    · obtain ⟨hc, hm⟩ := List.mem_filter.mp hc
      exact ⟨.inl hc, by simpa using hm⟩
    · exact ⟨.inr hc, hrest c (by simpa [unattributed] using hc)⟩
  | annotated mark child =>
    simp only [withoutMarkers, Node.children, List.mem_cons, List.not_mem_nil, or_false] at hc
    rcases hc with rfl | rfl
    · exact ⟨by simp [Node.children], hmark c child rfl⟩
    · exact ⟨by simp [Node.children], hrest c (by simp [unattributed])⟩
  | _ => exact ⟨hc, hrest c hc⟩

theorem paramsCopy_unmarked {params? : Option (Tree NodeId)}
    (hparams : ∀ p, params? = some p → ∃ attributes parameters,
      p.node = .paramBlock attributes parameters)
    (h : ∀ p, params? = some p → MarksPlaced p.node)
    (hc : ∀ p, params? = some p → ∀ c ∈ p.node.children, c.isMarker = false →
      (inj.rewrite c).Unmarked) : (inj.paramsCopy params?).Unmarked := by
  cases params? with
  | none =>
    simp [paramsCopy, unmarked_mk, Node.children, Tree.isMarker, marker?,
      contextParameterCopy_unmarked]
  | some p =>
    obtain ⟨attributes, parameters, hn⟩ := hparams p rfl
    have hplaced := h p rfl
    have hbelow := hc p rfl
    rw [hn] at hplaced hbelow
    have hattributes := @kept_unmarked inj attributes fun x hx =>
      hbelow x (List.mem_append_left _ hx)
    rw [paramsCopy, hn]
    refine unmarked_mk.mpr ⟨rfl, ?_⟩
    simp only [Node.children, List.mem_append, List.mem_map, List.mem_cons]
    rintro y (⟨x, hx, rfl⟩ | rfl | ⟨x, hx, rfl⟩)
    · exact hattributes x hx
    · exact contextParameterCopy_unmarked
    · exact hbelow x (List.mem_append_right _ hx) (hplaced.unattributed x hx)

/-- A node is copied without markers if what stands below it is. -/
theorem becomes_unmarked {y : Tree (Option NodeId)} (h : inj.Becomes id n y)
    (hplaced : MarksPlaced n) (hall : ∀ c ∈ n.children, MarksPlaced c.node)
    (ht : (Tree.mk id n).isMarker = false)
    (hc : ∀ c ∈ n.children, c.isMarker = false → (inj.rewrite c).Unmarked)
    (hcc : ∀ c ∈ n.children, ∀ d ∈ c.node.children, d.isMarker = false →
      (inj.rewrite d).Unmarked) : y.Unmarked := by
  have hrest := hplaced.unattributed
  cases h with
  | called => exact callCopy_unmarked
  | assigned =>
    simp [unmarked_mk, Node.children, Tree.isMarker, marker?, callCopy_unmarked]
  | @defaulted f attributes name value =>
    have hattributes := @kept_unmarked inj attributes fun x hx =>
      hc x (by simp [Node.children, hx])
    have hname := hc name (by simp [Node.children]) (hrest name (by simp [unattributed]))
    refine unmarked_mk.mpr ⟨rfl, ?_⟩
    simp only [Node.children, List.mem_append, List.mem_map, List.mem_singleton,
      Option.mem_toList]
    rintro y ((⟨x, hx, rfl⟩ | rfl) | hy)
    · exact hattributes x hx
    · exact hname
    · obtain rfl := Option.some.inj hy
      exact callCopy_unmarked
  | @script usings params? blocks =>
    have hchild {x : Tree NodeId} (hx : x ∈ (Node.scriptBlock usings params? blocks).children) :
        (inj.rewrite x).Unmarked := hc x hx (hrest x hx)
    have hparams : ∀ p, params? = some p →
        p ∈ (Node.scriptBlock usings params? blocks).children := by
      rintro p rfl
      simp [Node.children]
    refine unmarked_mk.mpr ⟨rfl, ?_⟩
    simp only [Node.children, List.mem_append, List.mem_map, List.mem_filter, Option.mem_toList]
    rintro y ((⟨x, ⟨hx, -⟩, rfl⟩ | hy) | ⟨x, hx, rfl⟩)
    · exact hchild (by simp [Node.children, hx])
    · obtain rfl := Option.some.inj hy
      refine paramsCopy_unmarked (fun p hp => ?_) (fun p hp => hall p (hparams p hp))
        fun p hp => hcc p (hparams p hp)
      exact hplaced.params usings p blocks (by rw [hp])
    · exact hchild (by simp [Node.children, hx])
  | @unwrapped mark child =>
    exact hc child (by simp [Node.children]) (hrest child (by simp [unattributed]))
  | copied _ hmark _ =>
    have hkept := withoutMarkers_unmarked hplaced hmark
    refine unmarked_mk.mpr ⟨?_, fun y hy => ?_⟩
    · rw [← ht]
      simp only [Tree.isMarker, marker?, node_mk]
      cases n <;> rfl
    · rw [Node.children_map] at hy
      obtain ⟨c, hcn, rfl⟩ := List.mem_map.mp hy
      exact hc c (hkept c hcn).1 (hkept c hcn).2

/-- Every part of the script that is no marker itself is copied without markers. -/
theorem rewrite_unmarked (hp : ∀ s ∈ t.subtrees, inj.Suits s.label s.node)
    (h : t.All MarksPlaced) : ∀ s ∈ t.subtrees, s.isMarker = false → (inj.rewrite s).Unmarked := by
  induction t using Tree.induct with
  | h id n ih =>
    obtain ⟨hplaced, hall⟩ := all_mk.mp h
    have hbelow : ∀ c ∈ n.children, ∀ s ∈ c.subtrees, s.isMarker = false →
        (inj.rewrite s).Unmarked := by
      intro c hcn
      refine ih c hcn (fun s hs => hp s ?_) (hall c hcn)
      exact mem_subtrees_mk.mpr (.inr ⟨c, hcn, hs⟩)
    intro s hs ht
    rcases mem_subtrees_mk.mp hs with rfl | ⟨c, hcn, hs⟩
    · refine becomes_unmarked (becomes (hp _ hs)) hplaced (fun c hcn => ?_) ht
        (fun c hcn => hbelow c hcn c (self_mem_subtrees c)) fun c hcn d hd => hbelow c hcn d ?_
      · exact hall c hcn c (self_mem_subtrees c)
      · obtain ⟨l, m⟩ := c
        exact mem_subtrees_mk.mpr (.inr ⟨d, hd, self_mem_subtrees d⟩)
    · exact hbelow c hcn s hs ht

/-- Whatever is bound, a rewritten script has no marker that can be reached. Rewriting fails for
want of ids only. -/
theorem apply_ofBindings_unmarked {source : String} {a : Arena} {survey : Survey} {d : Definition}
    {bindings : List Binding} {contextVariable : String} {namespaces : List String}
    (hparse : Script.parse source = .ok a) (hsurvey : Survey.ofArena? a = .ok survey)
    (hdefinition : Definition.ofSurvey? a survey = .ok d) :
    match (ofBindings d bindings contextVariable namespaces).apply a with
    | .ok out => ∀ p ∈ out.reachable, out.marker? p.1 = none
    | .error e => e = .arena .full := by
  obtain ⟨t, ht⟩ := Script.reads_of_parseWithin hparse
  have hsound := Definition.sound_of_ofSurvey? hdefinition (Survey.found_of_ofArena? hsurvey)
  have happly := @apply_reads a (ofBindings d bindings contextVariable namespaces) t ht.tidy
    ht.holds ht.root
  cases hout : (ofBindings d bindings contextVariable namespaces).apply a with
  | error e =>
    rw [hout] at happly
    exact happly
  | ok out =>
    rw [hout] at happly
    obtain ⟨y, hroot, hheld, -, hnodup, hspans⟩ := happly
    have hsuits : ∀ s ∈ t.subtrees,
        (ofBindings d bindings contextVariable namespaces).Suits s.label s.node :=
      fun s hs => suits_ofBindings hsound ht.holds ht.root ht.parsed.fits hs
    have hrewrite := rewrite_unmarked hsuits ht.parsed.fits.marksPlaced t (self_mem_subtrees t)
      (ht.parsed.fits.isMarker rfl)
    rw [← unmarked_map a.sourceSpan, ← hspans, unmarked_map] at hrewrite
    intro p hp
    rw [hheld.reachable hroot hnodup] at hp
    obtain ⟨s, hs, rfl⟩ := List.mem_map.mp hp
    rw [Tree.entry, (hheld.subtree hs).marker?]
    simpa [Tree.isMarker] using hrewrite s hs

/-- An annotated variable and what serves it. -/
theorem served_unmarked : ∃ a survey d, Script.parse "[Inject()]$a" = .ok a ∧
    Survey.ofArena? a = .ok survey ∧ Definition.ofSurvey? a survey = .ok d ∧
    match (ofBindings d [⟨0, ⟨.name "a", .declarationName, false, none, none⟩,
      some ⟨"a", none, .singleton⟩⟩] "ctx" []).apply a with
    | .ok out => ∀ p ∈ out.reachable, out.marker? p.1 = none
    | .error e => e = .arena .full := by
  have hok : (match Script.parse "[Inject()]$a" with
      | .ok a => match Survey.ofArena? a with
        | .ok survey => (Definition.ofSurvey? a survey).isOk
        | .error _ => false
      | .error _ => false) = true := by decide +kernel
  split at hok
  · rename_i a hparse
    split at hok
    · rename_i survey hsurvey
      cases hdefinition : Definition.ofSurvey? a survey with
      | ok d => exact ⟨a, survey, d, hparse, hsurvey, hdefinition,
          apply_ofBindings_unmarked hparse hsurvey hdefinition⟩
      | error e => simp [hdefinition, Except.isOk, Except.toBool] at hok
    · exact absurd hok nofun
  · exact absurd hok nofun

end Injection

end ScriptInject
