import ScriptInject.Proofs.Positions
/-! A survey finds what the positions of a tree tell. The tables that a walk keeps say of each node
what its standing says. -/
namespace ScriptInject

namespace Tree

variable {t x : Tree NodeId} {σ : Standing} {label l d owner : NodeId} {n : Node (Tree NodeId)}

/-- The nodes that are done with before the walk comes to them. -/
def told (σ : Standing) (t : Tree NodeId) : List NodeId :=
  match σ with
  | .functionBody => (params? t.node).toList.map Tree.label
  | .functionParams => [t.label]
  | .link => t.chainLinks.map Tree.label
  | _ => []

/-- The chain whose statement is known before the walk comes to it. -/
def declaredIn (σ : Standing) (t : Tree NodeId) : List (NodeId × NodeId) :=
  match σ with
  | .sole statement =>
    match t.node with
    | .commandExpression x => if x.isChain then [(x.label, statement)] else []
    | _ => []
  | .declared statement => if t.isChain then [(t.label, statement)] else []
  | _ => []

/-- What a visit adds to the nodes that are done with. -/
def tells (σ : Standing) (n : Node (Tree NodeId)) : List NodeId :=
  match n, σ with
  | .functionDefinition _ _ _ body, _ => told .functionBody body
  | .annotated .., .link | .convert .., .link => []
  | .annotated _ child, _ | .convert _ child, _ => told .link child
  | _, _ => []

/-- What a visit adds to the known statements. -/
def declares (label : NodeId) (n : Node (Tree NodeId)) : List (NodeId × NodeId) :=
  match n with
  | .pipeline [element] => declaredIn (.sole label) element
  | .assignment left _ _ => declaredIn (.declared label) left
  | _ => []

@[simp] theorem told_free : told .free x = [] := rfl

@[simp] theorem told_functionBody : told .functionBody x = (params? x.node).toList.map Tree.label := rfl

@[simp] theorem told_functionParams : told .functionParams x = [x.label] := rfl

@[simp] theorem told_link : told .link x = x.chainLinks.map Tree.label := rfl

@[simp] theorem told_sole : told (.sole d) x = [] := rfl

@[simp] theorem told_declared : told (.declared d) x = [] := rfl

@[simp] theorem declaredIn_free : declaredIn .free x = [] := rfl

@[simp] theorem declaredIn_functionBody : declaredIn .functionBody x = [] := rfl

@[simp] theorem declaredIn_functionParams : declaredIn .functionParams x = [] := rfl

@[simp] theorem declaredIn_link : declaredIn .link x = [] := rfl

@[simp] theorem flatMap_told_each (ts : List (Tree NodeId)) :
    ((Standing.each .free ts).flatMap fun c => told c.1 c.2) = [] := by
  simp [Standing.each, List.flatMap_map]

@[simp] theorem flatMap_told_each_params (ts : List (Tree NodeId)) :
    ((Standing.each .functionParams ts).flatMap fun c => told c.1 c.2) = ts.map Tree.label := by
  rw [Standing.each, List.flatMap_map, List.map_eq_flatMap]
  rfl

@[simp] theorem flatMap_declaredIn_each (ts : List (Tree NodeId)) :
    ((Standing.each .free ts).flatMap fun c => declaredIn c.1 c.2) = [] := by
  simp [Standing.each, List.flatMap_map]

/-- Besides the node itself, what is done with after a visit is what is told to the children. -/
theorem told_append_tells (σ : Standing) (label : NodeId) (n : Node (Tree NodeId)) : ∃ self, (∀ i ∈ self, i = label) ∧
    told σ (mk label n) ++ tells σ n = self ++ (σ.below label n).flatMap fun c => told c.1 c.2 := by
  -- Most nodes tell their children nothing of their own.
  have hplain (hp : params? n = none) (hc : (mk label n).isChain = false) :
      ∀ i ∈ told σ (mk label n), i = label := by
    intro i hi
    cases σ with
    | functionBody => simp [told, hp] at hi
    | functionParams => exact List.mem_singleton.mp hi
    | link => simp [told, chainLinks_of_not_isChain hc] at hi
    | _ => exact absurd hi List.not_mem_nil
  have hlabel : ∀ i ∈ [label], i = label := by simp
  cases n with
  | functionDefinition name isFilter parameters body =>
    exact ⟨_, hplain rfl rfl, by simp [tells, Standing.below]⟩
  | scriptBlock usings params blocks =>
    cases σ with
    | functionBody => exact ⟨[], by simp, by simp [params?, tells, Standing.below]⟩
    | functionParams => exact ⟨[label], hlabel, by simp [tells, Standing.below]⟩
    | link =>
      have hnone : told .link (mk label (.scriptBlock usings params blocks)) = [] := by
        rw [told, chainLinks_of_not_isChain rfl, List.map_nil]
      exact ⟨[], by simp, by simp [hnone, tells, Standing.below]⟩
    | _ => exact ⟨[], by simp, by simp [tells, Standing.below]⟩
  | annotated mark child =>
    cases σ with
    | functionBody => exact ⟨[], by simp, by simp [params?, tells, Standing.below]⟩
    | functionParams => exact ⟨[label], hlabel, by simp [tells, Standing.below]⟩
    | link => exact ⟨[label], hlabel, by simp [tells, Standing.below, chainLinks_annotated]⟩
    | _ => exact ⟨[], by simp, by simp [tells, Standing.below]⟩
  | convert type child =>
    cases σ with
    | functionBody => exact ⟨[], by simp, by simp [params?, tells, Standing.below]⟩
    | functionParams => exact ⟨[label], hlabel, by simp [tells, Standing.below]⟩
    | link => exact ⟨[label], hlabel, by simp [tells, Standing.below, chainLinks_convert]⟩
    | _ => exact ⟨[], by simp, by simp [tells, Standing.below]⟩
  | pipeline elements =>
    refine ⟨_, hplain rfl rfl, ?_⟩
    rcases elements with - | ⟨e, - | ⟨f, elements⟩⟩ <;> cases σ <;> simp [tells, Standing.below]
  | commandExpression expression =>
    exact ⟨_, hplain rfl rfl, by cases σ <;> simp [tells, Standing.below]⟩
  | _ => exact ⟨_, hplain rfl rfl, by cases σ <;> simp [tells, Standing.below]⟩

/-- Besides the node's own statement, what is known after a visit are the statements of the
children. -/
theorem declares_append_declaredIn (σ : Standing) (label : NodeId) (n : Node (Tree NodeId)) : ∃ self, (∀ p ∈ self, p.1 = label) ∧
    declares label n ++ declaredIn σ (mk label n) =
      self ++ (σ.below label n).flatMap fun c => declaredIn c.1 c.2 := by
  have hother (hn : ∀ x, n ≠ .commandExpression x) :
      ∀ p ∈ declaredIn σ (mk label n), p.1 = label := by
    intro p hp
    cases σ with
    | sole statement =>
      rw [declaredIn, node_mk] at hp
      cases n with
      | commandExpression x => exact absurd rfl (hn x)
      | _ => exact absurd hp List.not_mem_nil
    | declared statement =>
      rw [declaredIn] at hp
      split at hp
      · obtain rfl := List.mem_singleton.mp hp
        rfl
      · exact absurd hp List.not_mem_nil
    | _ => exact absurd hp List.not_mem_nil
  have hnone (hn : ∀ x, n ≠ .commandExpression x) (hc : (mk label n).isChain = false) :
      declaredIn σ (mk label n) = [] := by
    cases σ with
    | sole statement =>
      cases n with
      | commandExpression x => exact absurd rfl (hn x)
      | _ => rfl
    | declared statement => simp [declaredIn, hc]
    | _ => rfl
  cases n with
  | pipeline elements =>
    rcases elements with - | ⟨e, - | ⟨f, elements⟩⟩
    · exact ⟨_, hother (by simp), by simp [declares, Standing.below, Node.children]⟩
    · refine ⟨[], by simp, ?_⟩
      rw [hnone (by simp) rfl]
      simp [declares, Standing.below]
    · exact ⟨_, hother (by simp), by simp [declares, Standing.below]⟩
  | assignment left operator right =>
    refine ⟨[], by simp, ?_⟩
    rw [hnone (by simp) rfl]
    simp [declares, Standing.below]
  | commandExpression x =>
    cases σ with
    | sole statement => exact ⟨[], by simp, by simp [declares, Standing.below, declaredIn]⟩
    | _ => exact ⟨[], by simp, by simp [declares, Standing.below, declaredIn, isChain]⟩
  | scriptBlock usings params blocks =>
    refine ⟨_, hother (by simp), ?_⟩
    cases σ <;> simp [declares, Standing.below, Standing.each, List.flatMap_map]
  | _ => exact ⟨_, hother (by simp), by simp [declares, Standing.below]⟩

theorem label_mem_labels (t : Tree NodeId) : t.label ∈ t.labels :=
  List.mem_map_of_mem t.self_mem_subtrees

theorem told_subset : ∀ i ∈ told σ t, i ∈ t.labels := by
  intro i hi
  cases σ with
  | functionBody =>
    obtain ⟨p, hp, rfl⟩ := List.mem_map.mp hi
    obtain ⟨l, n⟩ := t
    cases n with
    | scriptBlock usings params blocks =>
      obtain rfl := Option.mem_toList.mp hp
      have hchild : p ∈ (Node.scriptBlock usings (some p) blocks).children := by simp [Node.children]
      exact List.mem_map_of_mem (mem_subtrees_mk.mpr (.inr ⟨p, hchild, p.self_mem_subtrees⟩))
    | _ => exact absurd hp List.not_mem_nil
  | functionParams =>
    obtain rfl := List.mem_singleton.mp hi
    exact t.label_mem_labels
  | link => exact (t.chainLinks_sublist.map Tree.label).subset hi
  | _ => exact absurd hi List.not_mem_nil

theorem declaredIn_subset : ∀ p ∈ declaredIn σ t, p.1 ∈ t.labels := by
  intro p hp
  cases σ with
  | sole statement =>
    obtain ⟨l, n⟩ := t
    cases n with
    | commandExpression x =>
      rw [declaredIn, node_mk] at hp
      dsimp only at hp
      split at hp
      · obtain rfl := List.mem_singleton.mp hp
        exact List.mem_map_of_mem
          (mem_subtrees_mk.mpr (.inr ⟨x, by simp [Node.children], x.self_mem_subtrees⟩))
      · exact absurd hp List.not_mem_nil
    | _ => exact absurd hp List.not_mem_nil
  | declared statement =>
    rw [declaredIn] at hp
    split at hp
    · obtain rfl := List.mem_singleton.mp hp
      exact t.label_mem_labels
    · exact absurd hp List.not_mem_nil
  | _ => exact absurd hp List.not_mem_nil

theorem mem_labels_of_below {c : Standing × Tree NodeId} (hc : c ∈ σ.below label n)
    (hl : l ∈ c.2.labels) : l ∈ (mk label n).labels := by
  rw [labels_mk]
  exact List.mem_cons_of_mem _ (List.mem_flatMap.mpr ⟨c.2, Standing.mem_children_of_below hc, hl⟩)

theorem tells_subset : ∀ i ∈ tells σ t.node, i ∈ t.labels := by
  intro i hi
  obtain ⟨label, n⟩ := t
  obtain ⟨self, hself, htold⟩ := told_append_tells σ label n
  have hmem : i ∈ told σ (mk label n) ++ tells σ n := List.mem_append_right _ hi
  rw [htold] at hmem
  rcases List.mem_append.mp hmem with hi | hi
  · rw [hself i hi]
    exact label_mem_labels _
  · obtain ⟨c, hc, hi⟩ := List.mem_flatMap.mp hi
    exact mem_labels_of_below hc (told_subset i hi)

theorem declares_subset : ∀ p ∈ declares t.label t.node, p.1 ∈ t.labels := by
  intro p hp
  obtain ⟨label, n⟩ := t
  obtain ⟨self, hself, hknown⟩ := declares_append_declaredIn .free label n
  have hmem : p ∈ declares label n ++ declaredIn .free (mk label n) := List.mem_append_left _ hp
  rw [hknown] at hmem
  rcases List.mem_append.mp hmem with hp | hp
  · rw [hself p hp]
    exact label_mem_labels _
  · obtain ⟨c, hc, hp⟩ := List.mem_flatMap.mp hp
    exact mem_labels_of_below hc (declaredIn_subset p hp)

/-- A child among its siblings, which have no label of it. -/
theorem split_below (hnodup : (mk label n).labels.Nodup) {c : Standing × Tree NodeId}
    (hc : c ∈ σ.below label n) : ∃ pre post, σ.below label n = pre ++ c :: post ∧
      ∀ i ∈ c.2.labels, i ≠ label ∧ ∀ d ∈ pre ++ post, i ∉ d.2.labels := by
  obtain ⟨pre, post, hsplit⟩ := List.append_of_mem hc
  refine ⟨pre, post, hsplit, fun i hi => ?_⟩
  have hall : n.children.flatMap labels = (pre ++ c :: post).flatMap fun d => d.2.labels := by
    rw [← hsplit, ← Standing.map_snd_below σ label n, List.flatMap_map]
  rw [labels_mk, List.nodup_cons, hall] at hnodup
  obtain ⟨hnew, hnodup⟩ := hnodup
  constructor
  · rintro rfl
    exact hnew (List.mem_flatMap.mpr ⟨c, by simp, hi⟩)
  · intro d hd hid
    have hperm : ((pre ++ c :: post).flatMap fun d => d.2.labels).Perm
        (c.2.labels ++ (pre ++ post).flatMap fun d => d.2.labels) :=
      List.perm_middle.flatMap_right _
    have hdisjoint := List.disjoint_of_nodup_append (hperm.nodup_iff.mp hnodup)
    exact hdisjoint hi (List.mem_flatMap.mpr ⟨d, hd, hid⟩)

end Tree

namespace Survey

open Tree

variable {w w' : Walk} {σ : Standing} {t : Tree NodeId} {label : NodeId} {n : Node (Tree NodeId)}

/-- The tables of the walk say of the tree what its standing says. -/
structure Ready (w : Walk) (σ : Standing) (t : Tree NodeId) : Prop where
  suits : Suits σ t.node
  done : ∀ i ∈ t.labels, i ∈ w.done ↔ i ∈ told σ t
  declarations : ∀ i ∈ t.labels, w.declarations.lookup i = (declaredIn σ t).lookup i

theorem lookup_eq_none {ps : List (NodeId × NodeId)} {i : NodeId} (h : ∀ p ∈ ps, p.1 ≠ i) :
    ps.lookup i = none := by
  rw [List.lookup_eq_none_iff]
  intro p hp
  simpa using (h p hp).symm

/-- When a node has been visited, its children can be. -/
theorem Ready.below (h : Ready w σ (Tree.mk label n)) (hm : MarksPlaced n)
    (hnodup : (Tree.mk label n).labels.Nodup) (hdone : w'.done = tells σ n ++ w.done)
    (hdecl : w'.declarations = declares label n ++ w.declarations) :
    ∀ c ∈ σ.below label n, Ready w' c.1 c.2 := by
  intro c hc
  obtain ⟨pre, post, hsplit, hothers⟩ := split_below hnodup hc
  have hmem {i : NodeId} (hi : i ∈ c.2.labels) : i ∈ (Tree.mk label n).labels :=
    mem_labels_of_below hc hi
  refine ⟨.below hm hc, fun i hi => ?_, fun i hi => ?_⟩
  · obtain ⟨self, hself, htold⟩ := told_append_tells σ label n
    obtain ⟨hne, hother⟩ := hothers i hi
    have hnot {ds : List (Standing × Tree NodeId)} (hds : ∀ d ∈ ds, d ∈ pre ++ post) :
        i ∉ ds.flatMap fun d => told d.1 d.2 := by
      intro hmem
      obtain ⟨d, hd, hid⟩ := List.mem_flatMap.mp hmem
      exact hother d (hds d hd) (told_subset i hid)
    calc
      i ∈ w'.done ↔ i ∈ told σ (Tree.mk label n) ++ tells σ n := by
        rw [hdone, List.mem_append, List.mem_append, h.done i (hmem hi), or_comm]
      _ ↔ i ∈ (pre ++ c :: post).flatMap fun d => told d.1 d.2 := by
        rw [htold, ← hsplit, List.mem_append, or_iff_right (mt (hself i) hne)]
      _ ↔ i ∈ told c.1 c.2 := by
        rw [List.flatMap_append, List.flatMap_cons, List.mem_append, List.mem_append,
          or_iff_right (hnot (by simp +contextual)), or_iff_left (hnot (by simp +contextual))]
  · obtain ⟨self, hself, hknown⟩ := declares_append_declaredIn σ label n
    obtain ⟨hne, hother⟩ := hothers i hi
    have hnot {ds : List (Standing × Tree NodeId)} (hds : ∀ d ∈ ds, d ∈ pre ++ post) :
        (ds.flatMap fun d => declaredIn d.1 d.2).lookup i = none := by
      refine lookup_eq_none fun p hp hpi => ?_
      obtain ⟨d, hd, hpd⟩ := List.mem_flatMap.mp hp
      exact hother d (hds d hd) (hpi ▸ declaredIn_subset p hpd)
    have hfirst : self.lookup i = none :=
      lookup_eq_none fun p hp hpi => hne (hpi.symm.trans (hself p hp))
    calc
      w'.declarations.lookup i = (declares label n ++ declaredIn σ (Tree.mk label n)).lookup i := by
        rw [hdecl, List.lookup_append, List.lookup_append, h.declarations i (hmem hi)]
      _ = ((pre ++ c :: post).flatMap fun d => declaredIn d.1 d.2).lookup i := by
        rw [hknown, ← hsplit, List.lookup_append, hfirst, Option.none_or]
      _ = (declaredIn c.1 c.2).lookup i := by
        rw [List.flatMap_append, List.flatMap_cons, List.lookup_append, List.lookup_append,
          hnot (by simp +contextual), hnot (by simp +contextual), Option.none_or, Option.or_none]

/-! What the visits of single nodes find. -/

variable {a : Arena} {β : Type} {k : Nat} {owner : NodeId}

/-- What has been found, and what some positions add to it. -/
def plus (a : Arena) (s : Survey) (ps : List Position) : Survey where
  candidates := s.candidates ++ ps.flatMap Position.candidates
  parameters := s.parameters ++ ps.flatMap Position.parameters
  usings := s.usings ++ ps.flatMap Position.usings
  warnings := s.warnings ++ (ps.flatMap Position.misplaced).map (Misplaced.warning a)

@[simp] theorem plus_nil (s : Survey) : s.plus a [] = s := by
  simp [plus]

theorem plus_plus (s : Survey) (ps qs : List Position) :
    (s.plus a ps).plus a qs = s.plus a (ps ++ qs) := by
  simp [plus]

theorem bind_run {α : Type} {m : Walking α} {f : α → Walking β} {x : α} (h : m w = .ok (x, w')) :
    (m >>= f) w = f x w' := by
  change (m w >>= fun q => f q.1 q.2) = _
  rw [h]
  rfl

theorem node_run (h : a.Holds t) (f : Node NodeId → Walking β) (w : Walk) :
    (do f (← a.node t.label) : Walking β) w = f (t.node.map Tree.label) w := by
  rw [Arena.node, h.get?]
  rfl

theorem isChain_eq (h : a.Holds t) : a.isChain t.label = t.isChain := by
  rw [Arena.isChain, h.get?, Tree.isChain]
  cases t.node <;> rfl

theorem chainUpTo_eq (ha : a.Tidy) (h : a.Holds t) (hk : t.label < k) : chainUpTo a k t.label =
    .ok ⟨t.chainMarks.map Tree.label, t.chainLinks.tail.map Tree.label, t.chainEnd.label⟩ := by
  -- From a link the chain goes on with the child, if that is a link.
  have honwards {l : NodeId} {k : Nat} {n : Node (Tree NodeId)} {x c : Tree NodeId}
      (h : a.Holds (.mk l n)) (hn : n.children = [x, c])
      (ih : ∀ {k : Nat}, a.Holds c → c.label < k → chainUpTo a k c.label = .ok
        ⟨c.chainMarks.map Tree.label, c.chainLinks.tail.map Tree.label, c.chainEnd.label⟩)
      (hk : l < k + 1) (marks : List NodeId) :
      (do
        if a.isChain c.label then
          let rest ← chainUpTo a k c.label
          return ⟨marks ++ rest.attributes, c.label :: rest.inner, rest.last⟩
        return ⟨marks, [], c.label⟩ : Except ScriptError Chain) =
      .ok ⟨marks ++ c.chainMarks.map Tree.label, c.chainLinks.map Tree.label, c.chainEnd.label⟩ := by
    have hmem : c ∈ (Tree.mk l n).node.children := by simp [hn]
    have hc := h.child hmem
    have hlt : c.label < l := h.child_lt ha hmem
    rw [isChain_eq hc]
    cases hchain : c.isChain with
    | false =>
      rw [chainMarks_of_not_isChain hchain, chainLinks_of_not_isChain hchain,
        chainEnd_of_not_isChain hchain, List.map_nil, List.append_nil]
      rfl
    | true =>
      have hlinks : c.chainLinks.map Tree.label =
          c.label :: c.chainLinks.tail.map Tree.label := by
        rw [chainLinks_of_isChain hchain, List.map_cons, List.tail_cons]
      rw [ih hc (Nat.lt_of_lt_of_le hlt (Nat.le_of_lt_succ hk)), hlinks]
      rfl
  induction t using chainInduct generalizing k with
  | annotated l mark c ih =>
    obtain ⟨k, rfl⟩ := Nat.exists_eq_add_one_of_ne_zero (Nat.ne_zero_of_lt hk)
    have hget : a.node (Tree.mk l (.annotated mark c)).label = .ok (.annotated mark.label c.label) := by
      rw [Arena.node, h.get?]
      rfl
    rw [chainUpTo, hget]
    exact honwards h rfl ih hk [mark.label]
  | convert l type c ih =>
    obtain ⟨k, rfl⟩ := Nat.exists_eq_add_one_of_ne_zero (Nat.ne_zero_of_lt hk)
    have hget : a.node (Tree.mk l (.convert type c)).label = .ok (.convert type.label c.label) := by
      rw [Arena.node, h.get?]
      rfl
    rw [chainUpTo, hget]
    exact honwards h rfl ih hk []
  | last t hlast =>
    obtain ⟨k, rfl⟩ := Nat.exists_eq_add_one_of_ne_zero (Nat.ne_zero_of_lt hk)
    have hget : a.node t.label = .ok (t.node.map Tree.label) := by
      rw [Arena.node, h.get?]
    rw [chainUpTo, hget, chainMarks_of_not_isChain hlast, chainLinks_of_not_isChain hlast,
      chainEnd_of_not_isChain hlast]
    rw [Tree.isChain] at hlast
    cases hnode : t.node with
    | annotated | convert => rw [hnode] at hlast; exact absurd hlast (by simp)
    | _ => rfl

theorem chainVariable?_eq (ha : a.Tidy) (h : a.Holds t) (hk : t.label < k) :
    a.chainVariableUpTo k t.label =
      if t.chainSite? = some .variableChain then some t.chainEnd.label else none := by
  induction t using chainInduct generalizing k with
  | annotated l mark c ih =>
    obtain ⟨k, rfl⟩ := Nat.exists_eq_add_one_of_ne_zero (Nat.ne_zero_of_lt hk)
    have hmem : c ∈ (Tree.mk l (.annotated mark c)).node.children := by simp [Node.children]
    have hlt : c.label < l := h.child_lt ha hmem
    rw [Arena.chainVariableUpTo, h.get?]
    exact ih (h.child hmem) (Nat.lt_of_lt_of_le hlt (Nat.le_of_lt_succ hk))
  | convert l type c ih =>
    obtain ⟨k, rfl⟩ := Nat.exists_eq_add_one_of_ne_zero (Nat.ne_zero_of_lt hk)
    have hmem : c ∈ (Tree.mk l (.convert type c)).node.children := by simp [Node.children]
    have hlt : c.label < l := h.child_lt ha hmem
    rw [Arena.chainVariableUpTo, h.get?]
    exact ih (h.child hmem) (Nat.lt_of_lt_of_le hlt (Nat.le_of_lt_succ hk))
  | last t hlast =>
    obtain ⟨k, rfl⟩ := Nat.exists_eq_add_one_of_ne_zero (Nat.ne_zero_of_lt hk)
    rw [Arena.chainVariableUpTo, h.get?, chainSite?, chainEnd_of_not_isChain hlast]
    rw [Tree.isChain] at hlast
    cases hnode : t.node with
    | annotated | convert => rw [hnode] at hlast; exact absurd hlast (by simp)
    | _ => rfl

theorem chainSite_eq_ok (ha : a.Tidy) (h : a.Holds t) :
    chainSite a t.label t.chainEnd.label = .ok t.chainSite? := by
  have hend : a.node t.chainEnd.label = .ok (t.chainEnd.node.map Tree.label) := by
    rw [Arena.node, (h.subtree t.chainEnd_mem_subtrees).get?]
  rw [chainSite, Arena.chainVariable?, chainVariable?_eq ha h (h.label_lt_depthBound ha), hend,
    chainSite?]
  cases t.chainEnd.node <;> rfl

variable {marks : List (Tree NodeId)} {site? : Option Site} {bearer : NodeId}
  {declaration? : Option NodeId} {s : Survey}

/-- The walk with more candidates, parameters and misplaced marks. -/
def Walk.file (w : Walk) (a : Arena) (candidates : List (Role × Candidate))
    (parameters : List (NodeId × Candidate)) (misplaced : List Misplaced) : Walk :=
  { w with found := { w.found with
      candidates := w.found.candidates ++ candidates
      parameters := w.found.parameters ++ parameters
      warnings := w.found.warnings ++ misplaced.map (Misplaced.warning a) } }

@[simp] theorem Walk.file_nil : w.file a [] [] [] = w := by
  simp [Walk.file]

theorem forM_run {g : NodeId → Walking Unit} {c : Tree NodeId → List (Role × Candidate)}
    {p : Tree NodeId → List (NodeId × Candidate)} {m : Tree NodeId → List Misplaced}
    (h : ∀ x ∈ marks, ∀ w, g x.label w = .ok ((), w.file a (c x) (p x) (m x))) :
    (marks.map Tree.label).forM g w =
      .ok ((), w.file a (marks.flatMap c) (marks.flatMap p) (marks.flatMap m)) := by
  induction marks generalizing w with
  | nil =>
    rw [List.flatMap_nil, List.flatMap_nil, List.flatMap_nil, Walk.file_nil]
    rfl
  | cons x marks ih =>
    rw [List.map_cons, List.forM_eq_forM, List.forM_cons]
    refine (bind_run (h x (by simp) w)).trans ?_
    rw [← List.forM_eq_forM, ih fun x hx => h x (by simp [hx])]
    simp [Walk.file]

theorem fileMarks_run (h : ∀ m ∈ marks, a.Holds m) :
    fileMarks a (marks.map Tree.label) site? bearer declaration? w =
      .ok ((), w.file a (marks.flatMap (filedMark site? bearer declaration?)) []
        (marks.flatMap (misplacedMark site? bearer))) := by
  rw [fileMarks, forM_run (c := filedMark site? bearer declaration?) (p := fun _ => [])
    (m := misplacedMark site? bearer), List.flatMap_eq_nil_iff.mpr fun _ _ => rfl]
  intro m hm w
  rw [(h m hm).marker?, filedMark, misplacedMark]
  cases m.marker? with
  | none =>
    rw [Walk.file_nil]
    rfl
  | some marker =>
    dsimp only
    cases site?.bind marker.role? with
    | none => simp only [Walk.file, List.append_nil]; rfl
    | some role => simp only [Walk.file, List.map_nil, List.append_nil]; rfl

theorem visitParameter_run {id : NodeId} (h : ∀ m ∈ marks, a.Holds m) :
    visitParameter a owner id (marks.map Tree.label) w =
      .ok ((), w.file a []
        ((marks.flatMap (filedMark (some .parameter) id (some id))).map fun (_, c) => (owner, c))
        (marks.flatMap (misplacedMark (some .parameter) id))) := by
  rw [visitParameter, forM_run (c := fun _ => [])
    (p := fun m => (filedMark (some .parameter) id (some id) m).map fun (_, c) => (owner, c))
    (m := misplacedMark (some .parameter) id), List.flatMap_eq_nil_iff.mpr fun _ _ => rfl,
    List.map_flatMap]
  intro m hm w
  rw [(h m hm).marker?, filedMark, misplacedMark]
  cases m.marker? with
  | none =>
    rw [List.map_nil, Walk.file_nil]
    rfl
  | some marker =>
    dsimp only [Option.bind_some]
    cases marker.role? .parameter with
    | none => simp only [Walk.file, List.map_nil, List.append_nil]; rfl
    | some role => simp only [Walk.file, List.map_nil, List.append_nil]; rfl

/-- The walk when it has been at a position. -/
def Walk.visited (w : Walk) (a : Arena) (p : Position) : Walk where
  found := w.found.plus a [p]
  declarations := declares p.tree.label p.tree.node ++ w.declarations
  done := tells p.standing p.tree.node ++ w.done

theorem isDone_run {i : NodeId} {m : Walking Unit} (h : i ∈ w.done) :
    (do unless ← isDone i do m : Walking Unit) w = .ok ((), w) := by
  change (if w.done.contains i then pure () else m : Walking Unit) w = _
  rw [if_pos (by simpa using h)]
  rfl

theorem notDone_run {i : NodeId} {m : Walking Unit} (h : i ∉ w.done) :
    (do unless ← isDone i do m : Walking Unit) w = m w := by
  change (if w.done.contains i then pure () else m : Walking Unit) w = _
  rw [if_neg (by simpa using h)]

theorem visitChain_run (ha : a.Tidy) (h : a.Holds t) : visitChain a t.label w =
    .ok ((), { w.file a (t.chainMarks.flatMap (filedMark t.chainSite? t.label
        (if t.chainSite? = some .variableChain then w.declarations.lookup t.label else none))) []
      (t.chainMarks.flatMap (misplacedMark t.chainSite? t.label)) with
        done := t.chainLinks.tail.map Tree.label ++ w.done }) := by
  have hmarks : ∀ m ∈ t.chainMarks, a.Holds m := fun m hm => h.subtree (t.chainMarks_subset m hm)
  rw [visitChain, chainUpTo_eq ha h (h.label_lt_depthBound ha)]
  change (do
    let site ← chainSite a t.label t.chainEnd.label
    let declarations := (← get).declarations
    let declaration? := if site = some .variableChain then declarations.lookup t.label else none
    fileMarks a (t.chainMarks.map Tree.label) site t.label declaration? : Walking Unit)
      { w with done := t.chainLinks.tail.map Tree.label ++ w.done } = _
  rw [chainSite_eq_ok ha h]
  exact fileMarks_run hmarks

theorem visitFunction_run {body : Tree NodeId} (h : a.Holds body) {id : NodeId} :
    visitFunction a id body.label w =
      .ok ((), { w.file a (body.bodyMarks.flatMap (filedMark (some .function) id none)) []
        (body.bodyMarks.flatMap (misplacedMark (some .function) id)) with
          done := told .functionBody body ++ w.done }) := by
  refine (node_run h _ w).trans ?_
  have hnone (hp : params? body.node = none) : (.ok ((), w) : Except ScriptError (Unit × Walk)) =
      .ok ((), { w.file a (body.bodyMarks.flatMap (filedMark (some .function) id none)) []
        (body.bodyMarks.flatMap (misplacedMark (some .function) id)) with
          done := told .functionBody body ++ w.done }) := by
    have hmarks : body.bodyMarks = [] := by rw [bodyMarks, hp]; rfl
    rw [told_functionBody, hp, hmarks, List.flatMap_nil, List.flatMap_nil, Walk.file_nil]
    rfl
  cases hb : body.node with
  | scriptBlock usings params blocks =>
    cases params with
    | none => exact hnone (by rw [hb]; rfl)
    | some p =>
      have hp : a.Holds p := h.child (by simp [hb, Node.children])
      have hbody : params? body.node = some p := by rw [hb]; rfl
      have hmarks : body.bodyMarks = p.blockMarks := by
        rw [bodyMarks, hbody]
        exact List.flatMap_singleton ..
      rw [told_functionBody, hbody, hmarks]
      refine (bind_run rfl).trans ((node_run hp _ { w with done := [p.label] ++ w.done }).trans ?_)
      have hplain (hm : p.blockMarks = []) :
          (.ok ((), { w with done := [p.label] ++ w.done }) : Except ScriptError (Unit × Walk)) =
            .ok ((), { w.file a (p.blockMarks.flatMap (filedMark (some .function) id none)) []
              (p.blockMarks.flatMap (misplacedMark (some .function) id)) with
                done := [p.label] ++ w.done }) := by
        rw [hm, List.flatMap_nil, List.flatMap_nil, Walk.file_nil]
      cases hn : p.node with
      | paramBlock attributes parameters =>
        have hattributes : p.blockMarks = attributes := by rw [blockMarks, hn]
        rw [hattributes]
        exact fileMarks_run fun m hm => hp.child (by simp [hn, Node.children, hm])
      | _ => exact hplain (by rw [blockMarks, hn])
  | _ => exact hnone (by rw [hb]; rfl)

theorem visited_eq {p : Position} (hu : p.usings = []) : w.visited a p =
    { w.file a p.candidates p.parameters p.misplaced with
      declarations := declares p.tree.label p.tree.node ++ w.declarations
      done := tells p.standing p.tree.node ++ w.done } := by
  simp [Walk.visited, Walk.file, plus, hu]

/-- A statement that declares a chain is noted when it is visited. -/
theorem declare_run {x : Tree NodeId} {l : NodeId} (h : a.Holds x) :
    (if a.isChain x.label then declare x.label l else pure () : Walking Unit) w =
      .ok ((), { w with declarations := declaredIn (.declared l) x ++ w.declarations }) := by
  rw [isChain_eq h, declaredIn]
  cases x.isChain <;> rfl

theorem visitPipeline_run {e : Tree NodeId} {l : NodeId} (h : a.Holds e) :
    visitNode a owner l (.pipeline [e.label]) w =
      .ok ((), { w with declarations := declaredIn (.sole l) e ++ w.declarations }) := by
  have hnone (he : declaredIn (.sole l) e = []) : (.ok ((), w) : Except ScriptError (Unit × Walk)) =
      .ok ((), { w with declarations := declaredIn (.sole l) e ++ w.declarations }) := by
    rw [he]
    rfl
  rw [visitNode, h.get?]
  cases hn : e.node with
  | commandExpression x =>
    have hdeclared : declaredIn (.sole l) e = declaredIn (.declared l) x := by
      rw [declaredIn, hn]
      rfl
    rw [hdeclared]
    exact declare_run (h.child (by simp [hn, Node.children]))
  | _ => exact hnone (by rw [declaredIn, hn])

theorem chainSite?_ne_parameter : t.chainSite? ≠ some .parameter := by
  rw [chainSite?]
  cases t.chainEnd.node <;> exact nofun

/-- What a walk makes of a chain that it has not been told of. -/
theorem visited_chain (hc : t.isChain = true) (hσ : σ ≠ .link) : w.visited a ⟨owner, σ, t⟩ =
    { w.file a (t.chainMarks.flatMap (filedMark t.chainSite? t.label
        (if t.chainSite? = some .variableChain then (declaredIn σ t).lookup t.label else none))) []
      (t.chainMarks.flatMap (misplacedMark t.chainSite? t.label)) with
        done := t.chainLinks.tail.map Tree.label ++ w.done } := by
  let p : Position := ⟨owner, σ, t⟩
  have hp : p.marks = t.chainMarks ∧ p.usings = [] ∧ p.site? = t.chainSite? ∧ p.bearer = t.label ∧
      declares t.label t.node = [] ∧ tells σ t.node = t.chainLinks.tail.map Tree.label := by
    obtain ⟨l, n⟩ := t
    cases n with
    | annotated mark child =>
      cases σ with
      | link => exact absurd rfl hσ
      | _ => exact ⟨rfl, rfl, rfl, rfl, rfl, rfl⟩
    | convert type child =>
      cases σ with
      | link => exact absurd rfl hσ
      | _ => exact ⟨rfl, rfl, rfl, rfl, rfl, rfl⟩
    | _ => exact absurd hc Bool.false_ne_true
  obtain ⟨hmarks, husings, hsite, hbearer, hdeclares, htells⟩ := hp
  have hdeclaration : p.declaration? =
      if t.chainSite? = some .variableChain then (declaredIn σ t).lookup t.label else none := by
    rw [Position.declaration?, hsite]
    cases hs : t.chainSite? with
    | none => rfl
    | some site =>
      cases site with
      | parameter => exact absurd hs chainSite?_ne_parameter
      | variableChain =>
        cases σ with
        | sole statement =>
          obtain ⟨l, n⟩ := t
          cases n with
          | commandExpression x => exact absurd hc Bool.false_ne_true
          | _ => rfl
        | declared statement => simp [p, declaredIn, hc]
        | _ => rfl
      | function | scriptBlock => rfl
  rw [visited_eq husings, Position.candidates, Position.parameters, Position.misplaced,
    Position.filed, hsite, if_neg chainSite?_ne_parameter, if_neg chainSite?_ne_parameter, hmarks, hbearer, hdeclaration,
    hdeclares, htells]
  rfl

theorem visitNode_run (owner : NodeId) (ha : a.Tidy) (h : a.Holds t) (hready : Ready w σ t) :
    visitNode a owner t.label (t.node.map Tree.label) w =
      .ok ((), w.visited a ⟨owner, σ, t⟩) := by
  have hdone : t.label ∈ w.done ↔ t.label ∈ told σ t :=
    hready.done t.label t.label_mem_labels
  -- Where no attributes are looked at, only the tables change.
  have htables {p : Position} (hm : p.marks = []) (hu : p.usings = []) :
      w.visited a p = { w with
        declarations := declares p.tree.label p.tree.node ++ w.declarations
        done := tells p.standing p.tree.node ++ w.done } := by
    rw [visited_eq hu]
    simp [Position.candidates, Position.parameters, Position.misplaced, Position.filed, hm]
  have hplain {p : Position} (hm : p.marks = []) (hu : p.usings = [])
      (hd : declares p.tree.label p.tree.node = []) (ht : tells p.standing p.tree.node = []) :
      (.ok ((), w) : Except ScriptError (Unit × Walk)) = .ok ((), w.visited a p) := by
    rw [htables hm hu, hd, ht]
    rfl
  have hchain (hc : t.isChain = true) (hlink : σ ≠ .link) :
      (do unless ← isDone t.label do visitChain a t.label : Walking Unit) w =
        .ok ((), w.visited a ⟨owner, σ, t⟩) := by
    have hnot : t.label ∉ told σ t := by
      cases σ with
      | functionParams =>
        obtain ⟨attributes, parameters, hn⟩ := hready.suits rfl
        rw [Tree.isChain, hn] at hc
        exact absurd hc Bool.false_ne_true
      | functionBody =>
        obtain ⟨l, n⟩ := t
        cases n with
        | annotated | convert => exact List.not_mem_nil
        | _ => exact absurd hc Bool.false_ne_true
      | link => exact absurd rfl hlink
      | _ => exact List.not_mem_nil
    refine (notDone_run (mt hdone.mp hnot)).trans ?_
    rw [visitChain_run ha h, visited_chain hc hlink, hready.declarations t.label t.label_mem_labels]
  obtain ⟨l, n⟩ := t
  have hchild {c : Tree NodeId} (hc : c ∈ n.children) : a.Holds c := h.child hc
  cases n with
  | usingStatement kind name =>
    simp [Walk.visited, plus, Position.candidates, Position.parameters, Position.misplaced, Position.filed, Position.marks, Position.usings, declares, tells]
    rfl
  | functionDefinition name isFilter parameters body =>
    rw [visited_eq rfl]
    exact visitFunction_run (hchild (by simp [Node.children]))
  | paramBlock attributes parameters =>
    have hrun : fileMarks a (attributes.map Tree.label) none owner none w =
        .ok ((), w.file a (attributes.flatMap (filedMark none owner none)) []
          (attributes.flatMap (misplacedMark none owner))) :=
      fileMarks_run fun m hm => hchild (by simp [Node.children, hm])
    cases σ with
    | functionParams =>
      exact (isDone_run (hdone.mpr (by simp))).trans (hplain rfl rfl rfl rfl)
    | functionBody =>
      refine (notDone_run (mt hdone.mp (by simp [params?]))).trans ?_
      rw [visited_eq rfl]
      exact hrun
    | link =>
      refine (notDone_run (mt hdone.mp ?_)).trans ?_
      · rw [told_link, chainLinks_of_not_isChain rfl]
        exact List.not_mem_nil
      · rw [visited_eq rfl]
        exact hrun
    | free | sole | declared =>
      refine (notDone_run (mt hdone.mp (by simp))).trans ?_
      rw [visited_eq rfl]
      exact hrun
  | parameter attributes name value =>
    rw [visited_eq rfl]
    exact visitParameter_run fun m hm => hchild (by simp [Node.children, hm])
  | pipeline elements =>
    rcases elements with - | ⟨e, - | ⟨f, elements⟩⟩
    · exact hplain rfl rfl rfl rfl
    · have he : a.Holds e := hchild (by simp [Node.children])
      rw [htables rfl rfl]
      exact visitPipeline_run he
    · exact hplain rfl rfl rfl rfl
  | assignment left operator right =>
    rw [htables rfl rfl]
    exact declare_run (hchild (by simp [Node.children]))
  | annotated mark child =>
    cases σ with
    | link => exact (isDone_run (hdone.mpr (by simp [chainLinks_annotated]))).trans (hplain rfl rfl rfl rfl)
    | _ => exact hchain rfl (by simp)
  | convert type child =>
    cases σ with
    | link => exact (isDone_run (hdone.mpr (by simp [chainLinks_convert]))).trans (hplain rfl rfl rfl rfl)
    | _ => exact hchain rfl (by simp)
  | _ => exact hplain rfl rfl rfl rfl

/-! The whole walk. -/

variable {is js : List NodeId} {ps qs : List Position} {w'' : Walk}

/-- From one walk to the other some positions have been visited, and the tables tell something new
of some nodes only. -/
structure Walk.Passes (a : Arena) (is : List NodeId) (ps : List Position) (w w' : Walk) : Prop where
  found : w'.found = w.found.plus a ps
  done : ∀ i ∉ is, i ∈ w'.done ↔ i ∈ w.done
  declarations : ∀ i ∉ is, w'.declarations.lookup i = w.declarations.lookup i

theorem Walk.Passes.refl (w : Walk) : Walk.Passes a [] [] w w := ⟨by simp, by simp, by simp⟩

theorem Walk.Passes.trans (h : Walk.Passes a is ps w w') (k : Walk.Passes a js qs w' w'') :
    Walk.Passes a (is ++ js) (ps ++ qs) w w'' where
  found := by rw [k.found, h.found, plus_plus]
  done i hi := by
    obtain ⟨his, hjs⟩ := not_or.mp (mt List.mem_append.mpr hi)
    rw [k.done i hjs, h.done i his]
  declarations i hi := by
    obtain ⟨his, hjs⟩ := not_or.mp (mt List.mem_append.mpr hi)
    rw [k.declarations i hjs, h.declarations i his]

theorem Walk.Passes.mono (h : Walk.Passes a is ps w w') (hsub : ∀ i ∈ is, i ∈ js) :
    Walk.Passes a js ps w w' :=
  ⟨h.found, fun i hi => h.done i (mt (hsub i) hi), fun i hi => h.declarations i (mt (hsub i) hi)⟩

theorem Ready.passes (h : Ready w σ t) (k : Walk.Passes a is ps w w')
    (hdisjoint : ∀ i ∈ t.labels, i ∉ is) : Ready w' σ t where
  suits := h.suits
  done i hi := (k.done i (hdisjoint i hi)).trans (h.done i hi)
  declarations i hi := (k.declarations i (hdisjoint i hi)).trans (h.declarations i hi)

theorem passes_visited (p : Position) : Walk.Passes a p.tree.labels [p] w (w.visited a p) where
  found := rfl
  done i hi := by
    rw [Walk.visited, List.mem_append, or_iff_right (mt (tells_subset i) hi)]
  declarations i hi := by
    rw [Walk.visited, List.lookup_append, Option.or_eq_right_of_none]
    exact lookup_eq_none fun q hq hqi => hi (hqi ▸ declares_subset q hq)

/-- Trees are walked one after the other. -/
theorem forM_passes {g : NodeId → Walking Unit} {f : Standing × Tree NodeId → List Position}
    (cs : List (Standing × Tree NodeId))
    (hrun : ∀ c ∈ cs, ∀ w, Ready w c.1 c.2 →
      ∃ w', g c.2.label w = .ok ((), w') ∧ Walk.Passes a c.2.labels (f c) w w')
    (hready : ∀ c ∈ cs, Ready w c.1 c.2) (hnodup : (cs.flatMap fun c => c.2.labels).Nodup) :
    ∃ w', (cs.map fun c => c.2.label).forM g w = .ok ((), w') ∧
      Walk.Passes a (cs.flatMap fun c => c.2.labels) (cs.flatMap f) w w' := by
  induction cs generalizing w with
  | nil => exact ⟨w, rfl, .refl w⟩
  | cons c cs ih =>
    obtain ⟨w', hfirst, hpasses⟩ := hrun c (by simp) w (hready c (by simp))
    rw [List.flatMap_cons] at hnodup
    have hdisjoint := List.disjoint_of_nodup_append hnodup
    obtain ⟨w'', hrest, hpasses'⟩ := ih (w := w') (fun d hd => hrun d (by simp [hd]))
      (fun d hd => (hready d (by simp [hd])).passes hpasses fun i hi hic =>
        hdisjoint hic (List.mem_flatMap.mpr ⟨d, hd, hi⟩)) hnodup.of_append_right
    refine ⟨w'', ?_, by rw [List.flatMap_cons, List.flatMap_cons]; exact hpasses.trans hpasses'⟩
    exact (bind_run hfirst).trans hrest

/-- Walking a tree finds what its positions tell. -/
theorem visitUpTo_run {depth : Nat} (owner : NodeId) (ha : a.Tidy) (h : a.Holds t) (hm : t.All MarksPlaced)
    (hnodup : t.labels.Nodup) (hdepth : t.label < depth) (hready : Ready w σ t) :
    ∃ w', visitUpTo a depth owner t.label w = .ok ((), w') ∧
      Walk.Passes a t.labels (t.positions owner σ) w w' := by
  induction t using Tree.induct generalizing depth owner σ w with
  | h l n ih =>
    obtain ⟨depth, rfl⟩ := Nat.exists_eq_add_one_of_ne_zero (Nat.ne_zero_of_lt hdepth)
    obtain ⟨hplaced, hbelow⟩ := all_mk.mp hm
    let p : Position := ⟨owner, σ, .mk l n⟩
    let step := ownerBelow owner l (n.map Tree.label)
    have hvisit := visitNode_run owner ha h hready
    have hchildren : (n.map Tree.label).children = (σ.below l n).map fun c => c.2.label := by
      rw [Node.children_map, ← Standing.map_snd_below σ l n, List.map_map]
      rfl
    have hlabels : n.children.flatMap labels = (σ.below l n).flatMap fun c => c.2.labels := by
      rw [← Standing.map_snd_below σ l n, List.flatMap_map]
    have hnodup' := hnodup
    rw [labels_mk, List.nodup_cons, hlabels] at hnodup'
    obtain ⟨w', hrun, hpasses⟩ := forM_passes (w := w.visited a p) (g := visitUpTo a depth step)
      (f := fun c => c.2.positions step c.1) (σ.below l n)
      (fun c hc w hw => by
        have hmem := Standing.mem_children_of_below hc
        have hlt : c.2.label < l := h.child_lt ha hmem
        refine ih c.2 hmem step (h.child hmem) (hbelow c.2 hmem) ?_ ?_ hw
        · exact hnodup.sublist (labels_sublist (mem_subtrees_mk.mpr (.inr ⟨c.2, hmem, c.2.self_mem_subtrees⟩)))
        · exact Nat.lt_of_lt_of_le hlt (Nat.le_of_lt_succ hdepth))
      (hready.below hplaced hnodup rfl rfl) hnodup'.2
    refine ⟨w', ?_, ?_⟩
    · refine (node_run h _ w).trans ((bind_run hvisit).trans ?_)
      dsimp only [Tree.node_mk, Tree.label_mk]
      rw [hchildren]
      exact hrun
    · rw [positions_mk]
      refine ((passes_visited p).trans hpasses).mono fun i hi => ?_
      rcases List.mem_append.mp hi with hi | hi
      · exact hi
      · rw [labels_mk, hlabels]
        exact List.mem_cons_of_mem _ hi

/-- The survey of a tree is what its positions tell. -/
theorem ofArena?_eq (ha : a.Tidy) (h : a.Holds t) (hroot : a.root? = some t.label)
    (hm : t.All MarksPlaced) (hnodup : t.labels.Nodup) :
    ofArena? a = .ok (({} : Survey).plus a (t.positions t.label .free)) := by
  have hready : Ready {} .free t := ⟨nofun, by simp, by simp⟩
  obtain ⟨w, hrun, hpasses⟩ := visitUpTo_run t.label ha h hm hnodup
    (h.label_lt_depthBound ha) hready
  have hr : a.root = .ok t.label := by rw [Arena.root, hroot]
  rw [ofArena?, hr, ← hpasses.found]
  change (visitUpTo a a.depthBound t.label t.label {} >>= fun q => .ok q.2.found) = _
  rw [hrun]
  rfl

end Survey

end ScriptInject
