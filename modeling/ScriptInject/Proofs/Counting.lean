import ScriptInject.Proofs.Stripping
/-! How many nodes a rewriting adds: those of the rewritten script, each once. -/
namespace ScriptInject

namespace Copying

variable {α β : Type} {m : Copying α} {f : α → Copying β} {k l : Nat}

/-- The run adds that many nodes, or there are not ids enough left for them. -/
def Costs (m : Copying α) (k : Nat) : Prop :=
  ∀ c : Arena, 0 < c.nextId → c.nextId ≤ Arena.idLimit → match m c with
    | .ok (_, b) => b.nextId = c.nextId + k ∧ b.nextId ≤ Arena.idLimit
    | .error _ => Arena.idLimit < c.nextId + k

namespace Costs

theorem of_eq (h : Costs m k) (heq : k = l) : Costs m l := heq ▸ h

theorem pure (v : α) : Costs (pure v) 0 := fun _ _ hle => ⟨rfl, hle⟩

theorem bind (h : Costs m k) (hf : ∀ v, Costs (f v) l) : Costs (m >>= f) (k + l) := by
  intro c hpos hle
  have hrun := h c hpos hle
  change match (m c >>= fun q => f q.1 q.2) with
    | .ok (_, b) => _
    | .error _ => _
  cases hm : m c with
  | error e =>
    rw [hm] at hrun
    exact Nat.lt_of_lt_of_le hrun (Nat.add_le_add_left (Nat.le_add_right k l) _)
  | ok q =>
    obtain ⟨v, b⟩ := q
    rw [hm] at hrun
    obtain ⟨hb, hble⟩ := hrun
    have hrest := hf v b (hb ▸ Nat.add_pos_left hpos k) hble
    rw [hb, Nat.add_assoc] at hrest
    exact hrest

/-- The last step makes something of what has been added. -/
theorem map (h : Costs m k) (g : α → β) : Costs (m >>= fun v => Pure.pure (g v)) k :=
  h.bind fun v => pure (g v)

theorem add (n : Node NodeId) (span : Option Span) : Costs (Copying.add n span) 1 := by
  intro c hpos hle
  rw [add_run, Arena.add, Arena.fresh?]
  by_cases hfull : c.nextId = Arena.idLimit
  · rw [if_pos (.inr hfull), hfull]
    exact Nat.lt_succ_self _
  · rw [if_neg (not_or.mpr ⟨Nat.ne_of_gt hpos, hfull⟩)]
    exact ⟨rfl, Nat.lt_of_le_of_ne hle hfull⟩

theorem mapM {as : List α} {w : α → Nat} (h : ∀ v ∈ as, Costs (f v) (w v)) :
    Costs (as.mapM f) (as.map w).sum := by
  induction as with
  | nil => exact pure []
  | cons v as ih =>
    rw [List.mapM_cons, List.map_cons, List.sum_cons]
    exact (h v (by simp)).bind fun _ => (ih fun u hu => h u (by simp [hu])).map _

end Costs

variable {copy : NodeId → Copying NodeId} {w : Tree NodeId → Nat} {xs : List (Tree NodeId)}

theorem costs_list (h : ∀ x ∈ xs, Costs (copy x.label) (w x)) :
    Costs ((xs.map Tree.label).mapM copy) (xs.map w).sum := by
  rw [List.mapM_map]
  exact .mapM h

theorem costs_option {x : Option (Tree NodeId)} (h : ∀ y ∈ x.toList, Costs (copy y.label) (w y)) :
    Costs ((x.map Tree.label).mapM copy) (x.toList.map w).sum := by
  cases x with
  | none => exact .pure none
  | some x => exact (h x (by simp)).map _

/-- Copying a node costs what copying its children does. -/
theorem costs_node {n : Node (Tree NodeId)} (h : ∀ x ∈ n.children, Costs (copy x.label) (w x)) :
    Costs ((n.map Tree.label).mapM copy) (n.children.map w).sum := by
  rw [Node.mapM_eq, Node.children_map, map_eq_pure_bind]
  exact (costs_list h).map _

variable {a : Arena} {inj : Injection} {t : Tree NodeId} {rebuild : NodeId → Copying NodeId}
  {f : Node NodeId → Copying β}

theorem costs_held (h : a.Holds t) (hf : Costs (f (t.node.map Tree.label)) k) :
    Costs (do f (← a.node t.label)) k := by
  rw [h.node]
  exact hf

theorem costs_rebuildWith (h : a.Holds t)
    (hc : ∀ x ∈ t.node.children, Costs (copy x.label) (w x)) :
    Costs (Replacement.rebuildWith a copy t.label) ((t.node.children.map w).sum + 1) :=
  costs_held h ((costs_node hc).bind fun _ => .add _ _)

theorem costs_keptAttributes (hheld : ∀ x ∈ xs, a.Holds x)
    (hc : ∀ x ∈ xs, Costs (copy x.label) (w x)) :
    Costs (Injection.keptAttributes a ⟨copy, rebuild⟩ (xs.map Tree.label))
      ((xs.filter (!·.isMarker)).map w).sum := by
  rw [keptAttributes_eq hheld]
  exact costs_list fun x hx => hc x (List.mem_filter.mp hx).1

theorem costs_call (f : Fetch) : Costs (inj.call f) (inj.callCopy f).size := by
  have harguments : Costs (f.arguments.mapM fun value => addNew (.stringConstant value .singleQuoted))
      (f.arguments.map fun _ => 1).sum := .mapM fun value _ => .add _ _
  refine Costs.of_eq (.bind (.add _ _) fun _ => .bind (.add _ _) fun _ =>
    harguments.bind fun _ => .add _ _) ?_
  simp [Injection.callCopy, Injection.contextCopy, Tree.size_mk, Node.children, Function.comp_def]
  omega

theorem costs_contextParameter :
    Costs inj.contextParameter inj.contextParameterCopy.size := by
  refine Costs.of_eq (.bind (.add _ _) fun _ => .add _ _) ?_
  simp [Injection.contextParameterCopy, Injection.contextCopy, Tree.size_mk, Node.children]

theorem size_rewritten {n : Node (Tree NodeId)} {l : Option NodeId} :
    (Tree.mk l (n.map inj.rewrite)).size =
      (n.children.map fun x => (inj.rewrite x).size).sum + 1 := by
  rw [Tree.size_mk, Node.children_map, List.map_map]
  rfl

theorem costs_rootParams {params? : Option (Tree NodeId)} (hheld : ∀ p ∈ params?, a.Holds p)
    (hparams : ∀ p ∈ params?, ∃ attributes parameters, p.node = .paramBlock attributes parameters)
    (hc : ∀ p ∈ params?, ∀ x ∈ p.node.children, Costs (copy x.label) (inj.rewrite x).size) :
    Costs (inj.rootParams a ⟨copy, Replacement.rebuildWith a copy⟩ (params?.map Tree.label))
      (inj.paramsCopy params?).size := by
  cases params? with
  | none =>
    refine Costs.of_eq (costs_contextParameter.bind fun _ => .add _ _) ?_
    simp [Injection.paramsCopy, Tree.size_mk, Node.children]
  | some p =>
    have hp := hheld p rfl
    have hx := hc p rfl
    obtain ⟨attributes, parameters, hn⟩ := hparams p rfl
    rw [hn] at hx
    have hattributes := @costs_keptAttributes copy (fun x => (inj.rewrite x).size) attributes a
      (Replacement.rebuildWith a copy) (fun x hxa => hp.child (by simp [hn, Node.children, hxa]))
      fun x hxa => hx x (List.mem_append_left _ hxa)
    have hparameters := @costs_list copy (fun x => (inj.rewrite x).size) parameters
      fun x hxp => hx x (List.mem_append_right _ hxp)
    have hsize : (inj.paramsCopy (some p)).size = inj.contextParameterCopy.size +
        (((attributes.filter (!·.isMarker)).map fun x => (inj.rewrite x).size).sum +
          ((parameters.map fun x => (inj.rewrite x).size).sum + 1)) := by
      simp [Injection.paramsCopy, hn, Tree.size_mk, Node.children, Function.comp_def]
      omega
    rw [hsize]
    refine costs_contextParameter.bind fun _ => costs_held hp ?_
    rw [hn]
    exact hattributes.bind fun _ => hparameters.bind fun _ => .add _ _

/-- The step makes what is to stand for a node, at a certain cost, or leaves the node as it is. -/
def Replaces (m : Copying (Option NodeId)) : Option Nat → Prop
  | some k => ∃ m' : Copying NodeId, m = (do return some (← m')) ∧ Costs m' k
  | none => m = pure none

theorem Replaces.bind {m : Copying (Option NodeId)} {k? : Option Nat} {rest : Copying NodeId}
    {g : Option NodeId → Copying NodeId} (h : Replaces m k?) (hrest : Costs rest l)
    (hsome : ∀ id, g (some id) = pure id) (hnone : g none = rest) :
    Costs (m >>= g) (k?.getD l) := by
  cases k? with
  | none =>
    obtain rfl : m = pure none := h
    rwa [pure_bind, hnone]
  | some k =>
    obtain ⟨m', rfl, hm'⟩ := h
    simp only [bind_assoc, pure_bind, hsome, bind_pure]
    exact hm'

theorem replaces_applyFetch (f : Fetch) (h : a.Holds t)
    (hparameter : f.placement = .parameter →
      ∃ attributes name value, t.node = .parameter attributes name value)
    (hc : ∀ x ∈ t.node.children, Costs (copy x.label) (inj.rewrite x).size) :
    Replaces (inj.applyFetch a ⟨copy, rebuild⟩ f t.label (t.node.map Tree.label))
      ((inj.fetchedCopy? f t.label (t.node.map fun s => (s, inj.rewrite s))).map Tree.size) := by
  have hcall : Costs (inj.call f) (inj.callCopy f).size := costs_call f
  unfold Injection.applyFetch Injection.fetchedCopy?
  cases hplacement : f.placement with
  | expression => exact ⟨inj.call f, rfl, hcall⟩
  | statement =>
    cases hpath : f.path? with
    | none => exact ⟨inj.call f, rfl, hcall⟩
    | some path =>
      refine ⟨do
        let call ← inj.call f
        let left ← addNew (.variableRef path false)
        let expression ← addNew (.commandExpression call)
        let right ← addNew (.pipeline [expression])
        add (.assignment left .assign right) (a.span? t.label), by simp only [bind_assoc], ?_⟩
      refine Costs.of_eq (hcall.bind fun _ => .bind (.add _ _) fun _ => .bind (.add _ _) fun _ =>
        .bind (.add _ _) fun _ => .add _ _) ?_
      simp [Tree.size_mk, Node.children]
      omega
  | parameter =>
    obtain ⟨attributes, name, value, hn⟩ := hparameter hplacement
    rw [hn] at hc ⊢
    have hattributes := @costs_keptAttributes copy (fun x => (inj.rewrite x).size) attributes a rebuild
      (fun x hxa => h.child (by simp [hn, Node.children, hxa]))
      fun x hxa => hc x (by simp [Node.children, hxa])
    refine ⟨do
      let call ← inj.call f
      let attributes ← Injection.keptAttributes a ⟨copy, rebuild⟩ (attributes.map Tree.label)
      let name ← copy name.label
      add (.parameter attributes name (some call)) (a.span? t.label), by
        simp only [Node.map, bind_assoc], ?_⟩
    refine Costs.of_eq (hcall.bind fun _ => hattributes.bind fun _ =>
      (hc name (by simp [Node.children])).bind fun _ => .add _ _) ?_
    simp [Tree.size_mk, Node.children, Function.comp_def]
    omega

theorem replaces_strip (h : a.Holds t)
    (hparams : ∀ usings p blocks, t.node = .scriptBlock usings (some p) blocks →
      ∃ attributes parameters, p.node = .paramBlock attributes parameters)
    (hc : ∀ x ∈ t.node.children, Costs (copy x.label) (inj.rewrite x).size)
    (hcc : ∀ x ∈ t.node.children, ∀ y ∈ x.node.children,
      Costs (copy y.label) (inj.rewrite y).size) :
    Replaces
      (inj.strip a ⟨copy, Replacement.rebuildWith a copy⟩ t.label (t.node.map Tree.label))
      ((inj.strippedCopy? t.label (t.node.map fun s => (s, inj.copied s))).map Tree.size) := by
  have hattributes {xs : List (Tree NodeId)} (hx : ∀ x ∈ xs, x ∈ t.node.children) :=
    @costs_keptAttributes copy (fun x => (inj.rewrite x).size) xs a (Replacement.rebuildWith a copy)
      (fun x hxs => h.child (hx x hxs)) fun x hxs => hc x (hx x hxs)
  have hlist {xs : List (Tree NodeId)} (hx : ∀ x ∈ xs, x ∈ t.node.children) :=
    @costs_list copy (fun x => (inj.rewrite x).size) xs fun x hxs => hc x (hx x hxs)
  cases hn : t.node with
  | scriptBlock usings params? blocks =>
    simp only [hn, Node.children] at hc hcc hlist
    simp only [Node.map, Injection.strippedCopy?, Injection.strip]
    split
    · rw [filter_isPrepared fun x hx => h.child (by simp [hn, Node.children, hx])]
      have husings := @hlist (usings.filter (!inj.isPreparedLine ·)) fun x hx => by
        simp [(List.mem_filter.mp hx).1]
      have hrootParams := @costs_rootParams copy a inj params?
        (fun p hp => h.child (by simp_all [Node.children]))
        (fun p hp => hparams usings p blocks (by rw [hn, Option.mem_def.mp hp]))
        fun p hp => hcc p (by simp_all)
      have hblocks := @hlist blocks fun x hx => by simp [hx]
      refine ⟨do
        let usings ← ((usings.filter (!inj.isPreparedLine ·)).map Tree.label).mapM copy
        let params ← inj.rootParams a ⟨copy, Replacement.rebuildWith a copy⟩
          (params?.map Tree.label)
        let blocks ← (blocks.map Tree.label).mapM copy
        add (.scriptBlock usings (some params) blocks) (a.span? t.label), by
          simp only [bind_assoc], ?_⟩
      refine Costs.of_eq (husings.bind fun _ => hrootParams.bind fun _ => hblocks.bind fun _ =>
        .add _ _) ?_
      simp [Tree.size_mk, Node.children, Function.comp_def, List.filter_map,
        Injection.rootParamsCopy_eq, Injection.tree_copied]
      omega
    · rfl
  | paramBlock attributes parameters =>
    simp only [hn, Node.children] at hattributes hlist
    have hkept := hattributes fun x hx => List.mem_append_left parameters hx
    have hparameters := hlist fun x hx => List.mem_append_right attributes hx
    refine ⟨do
      let attributes ← Injection.keptAttributes a ⟨copy, Replacement.rebuildWith a copy⟩
        (attributes.map Tree.label)
      let parameters ← (parameters.map Tree.label).mapM copy
      add (.paramBlock attributes parameters) (a.span? t.label), by
        simp only [Node.map, Injection.strip, bind_assoc], ?_⟩
    refine Costs.of_eq (hkept.bind fun _ => hparameters.bind fun _ => .add _ _) ?_
    simp [Tree.size_mk, Node.children, Function.comp_def, Injection.tree_copied]
    omega
  | parameter attributes name value =>
    simp only [hn, Node.children] at hc hattributes
    have hkept := @hattributes attributes fun x hx => by simp [hx]
    have hvalue := @costs_option copy (fun x => (inj.rewrite x).size) value fun x hx => hc x (by simp_all)
    refine ⟨do
      let attributes ← Injection.keptAttributes a ⟨copy, Replacement.rebuildWith a copy⟩
        (attributes.map Tree.label)
      let name ← copy name.label
      let value ← (value.map Tree.label).mapM copy
      add (.parameter attributes name value) (a.span? t.label), by
        simp only [Node.map, Injection.strip, bind_assoc], ?_⟩
    refine Costs.of_eq (hkept.bind fun _ => (hc name (by simp)).bind fun _ =>
      hvalue.bind fun _ => .add _ _) ?_
    cases value <;>
    simp [Tree.size_mk, Node.children, Function.comp_def, Injection.tree_copied] <;>
    omega
  | annotated mark child =>
    rw [hn] at hc
    exact ⟨copy child.label, rfl, hc child (by simp [Node.children])⟩
  | _ => rfl

/-- Copying a part of the script adds the nodes that stand for it in the rewritten script. -/
theorem costs_copyUpTo (ha : a.Tidy) {depth : Nat} (h : a.Holds t) (hd : t.label < depth)
    (hsuits : ∀ s ∈ t.subtrees, inj.Suits s.label s.node) (hplaced : t.All Tree.MarksPlaced) :
    Costs (Replacement.copyUpTo inj.replacement a depth t.label) (inj.rewrite t).size := by
  induction depth generalizing t with
  | zero => exact absurd hd (Nat.not_lt_zero _)
  | succ depth ih =>
    have hle : t.label ≤ depth := Nat.le_of_lt_succ hd
    have hbelow {x : Tree NodeId} (hx : x ∈ t.subtrees) (hlt : x.label < t.label) :
        Costs (Replacement.copyUpTo inj.replacement a depth x.label) (inj.rewrite x).size :=
      ih (h.subtree hx) (Nat.lt_of_lt_of_le hlt hle)
        (fun s hs => hsuits s (Tree.subtrees_trans hs hx))
        fun s hs => hplaced s (Tree.subtrees_trans hs hx)
    have hc (x : Tree NodeId) (hx : x ∈ t.node.children) :=
      hbelow (Tree.mem_subtrees_of_child hx x.self_mem_subtrees) (h.child_lt ha hx)
    have hcc (x : Tree NodeId) (hx : x ∈ t.node.children) (y : Tree NodeId)
        (hy : y ∈ x.node.children) :=
      hbelow (Tree.mem_subtrees_of_child hx (Tree.mem_subtrees_of_child hy y.self_mem_subtrees))
        (Nat.lt_trans ((h.child hx).child_lt ha hy) (h.child_lt ha hx))
    have hself : inj.Suits t.label t.node := hsuits t t.self_mem_subtrees
    have hrebuild := costs_rebuildWith h hc
    rw [Replacement.copyUpTo]
    refine costs_held h ?_
    rw [applies_eq h, Injection.rewrite_eq]
    dsimp only [Injection.replacement]
    have hgetD (y : Option (Tree (Option NodeId))) :
        (y.getD (.mk (some t.label) (t.node.map inj.rewrite))).size = (y.map Tree.size).getD
          ((t.node.children.map fun x => (inj.rewrite x).size).sum + 1) := by
      cases y with
      | none => exact size_rewritten
      | some y => rfl
    rw [hgetD]
    cases hf : inj.fetch? t.label with
    | some f =>
      exact (replaces_applyFetch f h (hself.parameter f hf) hc).bind hrebuild (fun _ => rfl) rfl
    | none =>
      simp only [Option.isSome_none, Bool.false_or]
      split
      · exact (replaces_strip h (hplaced t t.self_mem_subtrees).params hc hcc).bind hrebuild
          (fun _ => rfl) rfl
      · exact hrebuild

end Copying

/-- Rewriting succeeds if there are ids for all nodes of the rewritten script, and only then. -/
theorem Injection.size_of_apply {a : Arena} {inj : Injection} {t : Tree NodeId} (ha : a.Tidy)
    (h : a.Holds t) (hroot : a.root? = some t.label)
    (hsuits : ∀ s ∈ t.subtrees, inj.Suits s.label s.node) (hplaced : t.All Tree.MarksPlaced) :
    match inj.apply a with
    | .ok _ => (inj.rewrite t).size < Arena.idLimit
    | .error _ => Arena.idLimit ≤ (inj.rewrite t).size := by
  have hrun := Copying.costs_copyUpTo ha h (h.label_lt_depthBound ha) hsuits hplaced {}
    Nat.one_pos (by decide)
  rw [Injection.apply, Replacement.apply_eq hroot]
  cases hm : inj.replacement.copyUpTo a a.depthBound t.label {} with
  | error e =>
    rw [hm] at hrun
    exact Nat.le_of_lt_succ (by rwa [Nat.add_comm] at hrun)
  | ok q =>
    rw [hm] at hrun
    obtain ⟨hsize, hle⟩ := hrun
    exact Nat.lt_of_succ_le (by rwa [hsize, Nat.add_comm] at hle)

end ScriptInject
