import ScriptInject.Proofs.Spelling
/-! Two arenas that hold one script, each with ids of its own and with its markers spelled in its
own way. -/
namespace ScriptInject.Arena

variable {a b : Arena} {ρ : NodeId → NodeId} {ids : List NodeId} {i j : NodeId} {k k' : Nat}
  {n : Node NodeId}

theorem lookup_map {α β : Type} (hρ : Function.Injective ρ) (f : α → β) (ps : List (NodeId × α))
    (i : NodeId) : (ps.map fun (j, x) => (ρ j, f x)).lookup (ρ i) = (ps.lookup i).map f := by
  induction ps with
  | nil => rfl
  | cons p ps ih =>
    obtain ⟨j, x⟩ := p
    rw [List.map_cons, List.lookup_cons, List.lookup_cons, ih]
    by_cases hij : i = j
    · subst hij
      rw [beq_self_eq_true, beq_self_eq_true]
      rfl
    · rw [beq_eq_false_iff_ne.mpr hij, beq_eq_false_iff_ne.mpr (hρ.ne hij)]

/-- Below certain ids, the second arena has what the first one has, at the renamed ids. -/
structure Mirrors (ρ : NodeId → NodeId) (ids : List NodeId) (a b : Arena) : Prop where
  injective : Function.Injective ρ
  tidy : a.Tidy
  tidy' : b.Tidy
  node : ∀ i ∈ ids, ∃ n m, a.get? i = some n ∧ b.get? (ρ i) = some m ∧ (n.map ρ).Respells m ∧
    ∀ c ∈ n.children, c ∈ ids

/-- Trees that become one when their markers are respelled mirror each other. -/
theorem mirrors_of_shape {s t : Tree NodeId} (ha : a.Tidy) (hb : b.Tidy) (hs : a.Holds s)
    (ht : b.Holds t) (hsn : s.labels.Nodup) (htn : t.labels.Nodup)
    (hshape : s.respelled.shape = t.respelled.shape) :
    ∃ ρ, Mirrors ρ s.labels a b ∧ t.labels = s.labels.map ρ := by
  rw [← Tree.labels_respelled] at hsn htn
  obtain ⟨ρ, hρ, htree⟩ := Tree.exists_renaming hsn htn hshape
  have hlabels : t.labels = s.labels.map ρ := by
    rw [← t.labels_respelled, htree, Tree.labels_map, s.labels_respelled]
  refine ⟨ρ, ⟨hρ, ha, hb, fun i hi => ?_⟩, hlabels⟩
  obtain ⟨x, hx, rfl⟩ := List.mem_map.mp hi
  have hmem : x.respelled.map ρ ∈ t.subtrees.map Tree.respelled := by
    rw [← Tree.subtrees_respelled, htree, Tree.subtrees_map, Tree.subtrees_respelled]
    exact List.mem_map_of_mem (List.mem_map_of_mem hx)
  obtain ⟨y, hy, hxy⟩ := List.mem_map.mp hmem
  have hlabel : y.label = ρ x.label := by
    rw [← y.label_respelled, hxy, Tree.label_map, x.label_respelled]
  have hnode : (y.node.map Tree.label).respelled = ((x.node.map Tree.label).map ρ).respelled := by
    have := congrArg (fun z => z.node.map Tree.label) hxy
    simp only [Tree.node_respelled, Tree.node_map, Node.map_map, Function.comp_def,
      Tree.label_respelled, Tree.label_map] at this
    rw [Node.respelled_map, this, Node.map_map, Node.respelled_map]
    rfl
  refine ⟨_, _, (hs.subtree hx).get?, hlabel ▸ (ht.subtree hy).get?,
    Node.respells_of_respelled hnode.symm, fun c hc => ?_⟩
  rw [Node.children_map] at hc
  obtain ⟨z, hz, rfl⟩ := List.mem_map.mp hc
  exact List.mem_map_of_mem
    (Tree.subtrees_trans (Tree.mem_subtrees_of_child hz z.self_mem_subtrees) hx)

/-- What stands at an id in the one arena and at the renamed id in the other. -/
inductive Pair (ρ : NodeId → NodeId) (a b : Arena) (i : NodeId) : Prop
  | same (n : Node NodeId) (h : a.get? i = some n) (h' : b.get? (ρ i) = some (n.map ρ))
  | marker {s t : TypeName} {marker : Marker} (positional named : List NodeId)
    (h : a.get? i = some (.attributeSpec s positional named))
    (h' : b.get? (ρ i) = some (.attributeSpec t (positional.map ρ) (named.map ρ)))
    (hs : Marker.ofTypeName? s.fullName = some marker)
    (ht : Marker.ofTypeName? t.fullName = some marker)

theorem Tidy.lt_depthBound (h : a.Tidy) (hn : a.get? i = some n) : i < a.depthBound := by
  rw [depthBound, h.size_succ]
  exact (h.bound hn).2

namespace Mirrors

variable (h : Mirrors ρ ids a b)
include h

theorem pair (hi : i ∈ ids) : Pair ρ a b i := by
  obtain ⟨n, m, hn, hm, hr, -⟩ := h.node i hi
  generalize hl : n.map ρ = l at hr
  cases hr with
  | same => exact .same n hn (hl ▸ hm)
  | marker positional named hs ht =>
    cases n with
    | attributeSpec type ps ns =>
      obtain ⟨rfl, rfl, rfl⟩ := Node.attributeSpec.inj hl
      exact .marker ps ns hn hm hs ht
    | _ => exact absurd hl nofun

theorem child (hi : i ∈ ids) (hn : a.get? i = some n) (hj : j ∈ n.children) : j ∈ ids := by
  obtain ⟨m, -, hm, -, -, hc⟩ := h.node i hi
  obtain rfl := Option.some.inj (hn.symm.trans hm)
  exact hc j hj

theorem lt_depthBound (hi : i ∈ ids) : i < a.depthBound ∧ ρ i < b.depthBound := by
  obtain ⟨n, m, hn, hm, -⟩ := h.node i hi
  exact ⟨h.tidy.lt_depthBound hn, h.tidy'.lt_depthBound hm⟩

/-- A child stands before its parent in either arena. -/
theorem child_lt (hi : i ∈ ids) (hn : a.get? i = some n) (hj : j ∈ n.children) :
    j < i ∧ ρ j < ρ i := by
  refine ⟨h.tidy.child_lt hn j hj, ?_⟩
  cases h.pair hi with
  | same m hm hm' =>
    obtain rfl := Option.some.inj (hn.symm.trans hm)
    exact h.tidy'.child_lt hm' (ρ j) (by simpa using ⟨j, hj, rfl⟩)
  | marker positional named hm hm' =>
    obtain rfl := Option.some.inj (hn.symm.trans hm)
    refine h.tidy'.child_lt hm' (ρ j) ?_
    rcases List.mem_append.mp hj with hj | hj
    · exact List.mem_append_left _ (List.mem_map_of_mem hj)
    · exact List.mem_append_right _ (List.mem_map_of_mem hj)

theorem marker?_eq (hi : i ∈ ids) : b.marker? (ρ i) = a.marker? i := by
  cases h.pair hi with
  | same n hn hm =>
    rw [marker?, marker?, hn, hm]
    cases n <;> simp only [Node.map]
  | marker positional named hn hm hs ht =>
    simp only [marker?, hn, hm, hs, ht]

theorem isChain_eq (hi : i ∈ ids) : b.isChain (ρ i) = a.isChain i := by
  cases h.pair hi with
  | same n hn hm =>
    rw [isChain, isChain, hn, hm]
    cases n <;> rfl
  | marker positional named hn hm => rw [isChain, isChain, hn, hm]

theorem chainVariableUpTo_eq (hi : i ∈ ids) (hk : i < k) (hk' : ρ i < k') :
    b.chainVariableUpTo k' (ρ i) = (a.chainVariableUpTo k i).map ρ ∧
      ∀ v ∈ a.chainVariableUpTo k i, v ∈ ids := by
  induction k generalizing i k' with
  | zero => exact absurd hk (Nat.not_lt_zero _)
  | succ k ih =>
    obtain ⟨k', rfl⟩ := Nat.exists_eq_add_one_of_ne_zero (Nat.ne_zero_of_lt hk')
    have honwards {n : Node NodeId} {c : NodeId} (hn : a.get? i = some n) (hc : c ∈ n.children) :=
      @ih _ k' (h.child hi hn hc)
        (Nat.lt_of_lt_of_le (h.child_lt hi hn hc).1 (Nat.le_of_lt_succ hk))
        (Nat.lt_of_lt_of_le (h.child_lt hi hn hc).2 (Nat.le_of_lt_succ hk'))
    have hnone : ∀ v ∈ (none : Option NodeId), v ∈ ids := by simp
    cases h.pair hi with
    | same n hn hm =>
      rw [chainVariableUpTo, chainVariableUpTo, hn, hm]
      cases n with
      | annotated mark child => exact honwards hn (by simp [Node.children])
      | convert type child => exact honwards hn (by simp [Node.children])
      | variableRef path splatted => exact ⟨rfl, fun v hv => Option.some.inj hv ▸ hi⟩
      | _ => exact ⟨rfl, hnone⟩
    | marker positional named hn hm =>
      rw [chainVariableUpTo, chainVariableUpTo, hn, hm]
      exact ⟨rfl, hnone⟩

theorem chainVariable?_eq (hi : i ∈ ids) : b.chainVariable? (ρ i) = (a.chainVariable? i).map ρ ∧
    ∀ v ∈ a.chainVariable? i, v ∈ ids :=
  h.chainVariableUpTo_eq hi (h.lt_depthBound hi).1 (h.lt_depthBound hi).2

theorem declaredNode?_eq (hi : i ∈ ids) : b.declaredNode? (ρ i) = (a.declaredNode? i).map ρ ∧
    ∀ v ∈ a.declaredNode? i, v ∈ ids := by
  cases h.pair hi with
  | same n hn hm =>
    rw [declaredNode?, declaredNode?, hn, hm]
    cases n with
    | parameter annotations name value =>
      exact ⟨rfl, fun v hv => Option.some.inj hv ▸ h.child hi hn (by simp [Node.children])⟩
    | assignment left operator right =>
      exact h.chainVariable?_eq (h.child hi hn (by simp [Node.children]))
    | _ => exact h.chainVariable?_eq hi
  | marker positional named hn hm =>
    rw [declaredNode?, declaredNode?, hn, hm]
    exact h.chainVariable?_eq hi

theorem declaredVariable?_eq (hi : i ∈ ids) :
    b.declaredVariable? (ρ i) = a.declaredVariable? i := by
  obtain ⟨hnode, hmem⟩ := h.declaredNode?_eq hi
  rw [declaredVariable?, declaredVariable?, hnode]
  cases hv : a.declaredNode? i with
  | none => rfl
  | some v =>
    rw [Option.map_some, Option.bind_some, Option.bind_some]
    cases h.pair (hmem v hv) with
    | same n hn hm =>
      rw [hn, hm]
      cases n <;> rfl
    | marker positional named hn hm => rw [hn, hm]

/-- What a node is called does not tell the spelling of its markers. -/
theorem label_eq (hi : i ∈ ids) : b.label (ρ i) = a.label i := by
  cases h.pair hi with
  | same n hn hm =>
    rw [label, label, hn, hm]
    cases n <;> simp only [Node.map, Node.kindName, h.declaredVariable?_eq hi]
  | marker positional named hn hm =>
    rw [label, label, hn, hm]
    simp only [Node.kindName, h.declaredVariable?_eq hi]

end Mirrors

end ScriptInject.Arena
