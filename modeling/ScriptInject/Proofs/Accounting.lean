import ScriptInject.Proofs.Surveying
import ScriptInject.Proofs.Visiting
/-! A survey accounts for every marker of a script. -/
namespace ScriptInject

namespace Node

variable {α β : Type} {f : α → β} {n : Node α} {y z : β} {operator : AssignmentOperator}

theorem map_eq_pipeline (h : n.map f = .pipeline [y]) : ∃ x, n = .pipeline [x] ∧ f x = y := by
  cases n with
  | pipeline elements =>
    obtain ⟨x, rfl, hx⟩ := List.map_eq_singleton_iff.mp (Node.pipeline.inj h)
    exact ⟨x, rfl, hx⟩
  | _ => exact absurd h nofun

theorem map_eq_commandExpression (h : n.map f = .commandExpression y) :
    ∃ x, n = .commandExpression x ∧ f x = y := by
  cases n with
  | commandExpression x => exact ⟨x, rfl, Node.commandExpression.inj h⟩
  | _ => exact absurd h nofun

theorem map_eq_assignment (h : n.map f = .assignment y operator z) :
    ∃ x right, n = .assignment x operator right ∧ f x = y := by
  cases n with
  | assignment x operator right =>
    obtain ⟨hx, rfl, -⟩ := Node.assignment.inj h
    exact ⟨x, right, rfl, hx⟩
  | _ => exact absurd h nofun

end Node

namespace Arena

variable {a : Arena} {t : Tree NodeId} {root owner scope i j c : NodeId} {k : Nat} {n : Node NodeId}

/-- The attributes that the root leads to and that are markers. -/
def markers (a : Arena) : List NodeId :=
  (a.reachable.map (·.1)).filter fun id => (a.marker? id).isSome

/-- Function definitions and script blocks own the parameters inside of them. -/
def IsScope (a : Arena) (id : NodeId) : Prop :=
  (∃ name isFilter parameters body,
    a.get? id = some (.functionDefinition name isFilter parameters body)) ∨
  ∃ body, a.get? id = some (.scriptBlockExpression body)

def Encloses (a : Arena) (root scope id : NodeId) : Prop :=
  a.Reaches root scope ∧ a.IsScope scope ∧ scope ≠ id ∧ a.Reaches scope id

/-- The innermost scope around a node, or the root if there is none. -/
def Owns (a : Arena) (root owner id : NodeId) : Prop :=
  (a.Encloses root owner id ∧ ∀ scope, a.Encloses root scope id → a.Reaches scope owner) ∨
  owner = root ∧ ∀ scope, ¬ a.Encloses root scope id

theorem Reaches.trans (h : a.Reaches i j) (k : a.Reaches j c) : a.Reaches i c := by
  induction k with
  | root => exact h
  | child _ hn hc ih => exact ih.child hn hc

theorem Reaches.le (h : a.Reaches i j) (ha : a.Tidy) : j ≤ i := by
  induction h with
  | root => exact Nat.le_refl _
  | child _ hn hc ih => exact Nat.le_trans (Nat.le_of_lt (ha.child_lt hn _ hc)) ih

/-- What leads to a child leads to its parent, but for the child itself. -/
theorem WellFormed.reaches_parent (h : a.WellFormed) (ha : a.Tidy) (hr : a.root? = some root)
    (hi : a.Reaches root i) (hn : a.get? i = some n) (hc : c ∈ n.children)
    (hscope : a.Reaches root scope) (hreach : a.Reaches scope c) (hne : scope ≠ c) :
    a.Reaches scope i := by
  cases hreach with
  | root => exact absurd rfl hne
  | @child p m _ hp hm hcm =>
    obtain ⟨k, hk⟩ := List.mem_iff_getElem?.mp hc
    obtain ⟨k', hk'⟩ := List.mem_iff_getElem?.mp hcm
    have hroot : c ≠ root := by
      rintro rfl
      exact absurd (Nat.lt_of_lt_of_le (ha.child_lt hn _ hc) (hi.le ha)) (Nat.lt_irrefl _)
    obtain ⟨place, -, hunique⟩ := h.place root hr c (hi.child hn hc) hroot
    have hat : a.childAt? (i, k) = some c := by rw [childAt?, hn]; exact hk
    have hat' : a.childAt? (p, k') = some c := by rw [childAt?, hm]; exact hk'
    have heq := (hunique (i, k) ⟨hi, hat⟩).trans (hunique (p, k') ⟨hscope.trans hp, hat'⟩).symm
    rw [(Prod.mk.inj heq).1]
    exact hp

theorem WellFormed.encloses_child (h : a.WellFormed) (ha : a.Tidy) (hr : a.root? = some root)
    (hi : a.Reaches root i) (hn : a.get? i = some n) (hc : c ∈ n.children) (scope : NodeId) :
    a.Encloses root scope c ↔ a.Encloses root scope i ∨ scope = i ∧ a.IsScope i := by
  have hlt : c < i := ha.child_lt hn c hc
  constructor
  · rintro ⟨hroot, hscope, hne, hreach⟩
    have hparent := h.reaches_parent ha hr hi hn hc hroot hreach hne
    by_cases hs : scope = i
    · exact .inr ⟨hs, hs ▸ hscope⟩
    · exact .inl ⟨hroot, hscope, hs, hparent⟩
  · rintro (⟨hroot, hscope, -, hreach⟩ | ⟨rfl, hscope⟩)
    · refine ⟨hroot, hscope, ?_, hreach.child hn hc⟩
      rintro rfl
      exact absurd (Nat.lt_of_lt_of_le hlt (hreach.le ha)) (Nat.lt_irrefl _)
    · exact ⟨hi, hscope, (Nat.ne_of_lt hlt).symm, Reaches.root.child hn hc⟩

theorem Owns.child (h : a.WellFormed) (ha : a.Tidy) (hr : a.root? = some root)
    (hi : a.Reaches root i) (hn : a.get? i = some n) (hc : c ∈ n.children)
    (howns : a.Owns root owner i) : a.Owns root (Survey.ownerBelow owner i n) c := by
  have hencloses (scope : NodeId) := h.encloses_child ha hr hi hn hc scope
  by_cases hs : a.IsScope i
  · have howner : Survey.ownerBelow owner i n = i := by
      rcases hs with ⟨name, isFilter, parameters, body, hs⟩ | ⟨body, hs⟩
      · obtain rfl := Option.some.inj (hn.symm.trans hs)
        rfl
      · obtain rfl := Option.some.inj (hn.symm.trans hs)
        rfl
    rw [howner]
    refine .inl ⟨(hencloses _).mpr (.inr ⟨rfl, hs⟩), fun scope hscope => ?_⟩
    rcases (hencloses _).mp hscope with hscope | ⟨rfl, -⟩
    · exact hscope.2.2.2
    · exact .root
  · have howner : Survey.ownerBelow owner i n = owner := by
      cases n with
      | functionDefinition => exact absurd (.inl ⟨_, _, _, _, hn⟩) hs
      | scriptBlockExpression => exact absurd (.inr ⟨_, hn⟩) hs
      | _ => rfl
    have hsame {scope : NodeId} : a.Encloses root scope c ↔ a.Encloses root scope i := by
      rw [hencloses, or_iff_left (fun hscope => hs hscope.2)]
    rw [howner]
    simpa only [Owns, hsame] using howns

theorem Holds.markers_eq (h : a.Holds t) (hroot : a.root? = some t.label)
    (hnodup : t.labels.Nodup) : a.markers = (t.subtrees.filter Tree.isMarker).map Tree.label := by
  have hids : a.reachable.map (·.1) = t.labels := by
    rw [h.reachable hroot hnodup, List.map_map]
    rfl
  rw [markers, hids, Tree.labels, List.filter_map]
  congr 1
  refine List.filter_congr fun s hs => ?_
  rw [Function.comp_apply, (h.subtree hs).marker?, Tree.isMarker]

end Arena

namespace Survey

open Tree

variable {a : Arena} {s : Survey} {t : Tree NodeId} {p : Position} {root d : NodeId}
  {r : Role} {c : Candidate}

/-- What a survey owes to an arena: each marker is the mark of one candidate or parameter, or there
is one warning of it. -/
structure Accounts (a : Arena) (root : NodeId) (s : Survey) : Prop where
  marks : ∃ misplaced : List Misplaced,
    s.warnings = misplaced.map (Misplaced.warning a) ∧
    (∀ m ∈ misplaced, a.marker? m.mark = some m.marker) ∧
    (s.candidates.map (·.2.mark) ++ s.parameters.map (·.2.mark) ++ misplaced.map (·.mark)).Perm
      a.markers ∧ a.markers.Nodup
  applies : ∀ q ∈ s.candidates, ∃ marker, a.marker? q.2.mark = some marker ∧
    marker.role? q.1.site = some q.1
  appliesThere : ∀ q ∈ s.parameters, ∃ marker, a.marker? q.2.mark = some marker ∧
    marker.role? .parameter = some .injectParameter
  /-- The candidates come in the order of their nodes. -/
  ordered : s.candidates.Pairwise fun p q =>
    (a.reachable.map (·.1)).idxOf p.2.node ≤ (a.reachable.map (·.1)).idxOf q.2.node
  reached : ∀ q ∈ s.candidates, a.Reaches root q.2.node
  owner : ∀ q ∈ s.parameters, a.Owns root q.1 q.2.node
  declaration : ∀ q ∈ s.candidates, q.1.site = .variableChain → ∀ d,
    q.2.declaration? = some d ↔ a.Reaches root d ∧ a.Declares d q.2.node

theorem mem_filedMark {site? : Option Site} {bearer : NodeId} {declaration? : Option NodeId}
    {mark : Tree NodeId} (h : (r, c) ∈ filedMark site? bearer declaration? mark) :
    ∃ marker site, mark.marker? = some marker ∧ site? = some site ∧ marker.role? site = some r ∧
      c = ⟨bearer, mark.label, declaration?⟩ := by
  unfold filedMark at h
  split at h
  · exact absurd h nofun
  · rename_i marker hmarker
    split at h
    · rename_i role hrole
      obtain ⟨site, hsite, hrole⟩ := Option.bind_eq_some_iff.mp hrole
      obtain ⟨rfl, rfl⟩ := Prod.mk.inj (List.mem_singleton.mp h)
      exact ⟨marker, site, hmarker, hsite, hrole, rfl⟩
    · exact absurd h nofun

theorem mem_misplacedMark {site? : Option Site} {bearer : NodeId} {mark : Tree NodeId}
    {m : Misplaced} (h : m ∈ misplacedMark site? bearer mark) :
    mark.marker? = some m.marker ∧ m.mark = mark.label := by
  unfold misplacedMark at h
  split at h
  · exact absurd h nofun
  · rename_i marker hmarker
    split at h
    · exact absurd h nofun
    · obtain rfl := List.mem_singleton.mp h
      exact ⟨hmarker, rfl⟩

/-- Whatever nodes are in some positions, each marker among their marks becomes one thing. -/
theorem accounts_perm (ps : List Position) :
    ((ps.flatMap Position.candidates).map (·.2.mark) ++
      (ps.flatMap Position.parameters).map (·.2.mark) ++
        (ps.flatMap Position.misplaced).map (·.mark)).Perm
      (((ps.flatMap Position.marks).filter isMarker).map Tree.label) := by
  rw [List.map_flatMap, List.map_flatMap, List.map_flatMap, List.filter_flatMap, List.map_flatMap]
  refine ((List.flatMap_append_perm ps _ _).append_right _).trans ?_
  refine (List.flatMap_append_perm ps _ _).trans ?_
  exact List.Perm.flatMap_left _ fun p _ => p.accounts_perm

/-- A candidate comes from a mark of its node. -/
theorem mem_candidates (h : (r, c) ∈ p.candidates) : ∃ m ∈ p.marks, ∃ marker,
    m.marker? = some marker ∧ marker.role? r.site = some r ∧ p.site? = some r.site ∧
      r.site ≠ .parameter ∧ c = ⟨p.tree.label, m.label, p.declaration?⟩ := by
  rw [Position.candidates] at h
  split at h
  · exact absurd h List.not_mem_nil
  · rename_i hparameter
    obtain ⟨m, hm, h⟩ := List.mem_flatMap.mp h
    obtain ⟨marker, site, hmarker, hsite, hrole, rfl⟩ := mem_filedMark h
    obtain rfl := Marker.site_of_role? hrole
    rw [p.bearer_of_site? (by rw [hsite]; rfl)]
    exact ⟨m, hm, marker, hmarker, hrole, hsite, fun hs => hparameter (hs ▸ hsite), rfl⟩

theorem mem_parameters (h : (root, c) ∈ p.parameters) : ∃ m ∈ p.marks, ∃ marker,
    m.marker? = some marker ∧ marker.role? .parameter = some .injectParameter ∧ root = p.owner ∧
      c = ⟨p.tree.label, m.label, p.declaration?⟩ := by
  rw [Position.parameters] at h
  split at h
  · rename_i hparameter
    obtain ⟨⟨r, c⟩, hfiled, heq⟩ := List.mem_map.mp h
    obtain ⟨rfl, rfl⟩ := Prod.mk.inj heq
    obtain ⟨m, hm, hmark⟩ := List.mem_flatMap.mp hfiled
    obtain ⟨marker, site, hmarker, hsite, hrole, rfl⟩ := mem_filedMark hmark
    obtain rfl : site = .parameter := Option.some.inj (hsite.symm.trans hparameter)
    have hr : r = .injectParameter := by
      cases r with
      | injectParameter => rfl
      | _ => cases Marker.site_of_role? hrole
    rw [p.bearer_of_site? (by rw [hsite]; rfl)]
    exact ⟨m, hm, marker, hmarker, hr ▸ hrole, rfl, rfl⟩
  · exact absurd h List.not_mem_nil

/-- What declares a chain is two nodes above it, or one. -/
theorem declared_iff (hnodup : t.labels.Nodup) (hp : p ∈ t.positions root .free) :
    p.standing = .declared d ↔ ∃ q ∈ t.positions root .free, q.tree.label = d ∧
      ((∃ e, q.tree.node = .pipeline [e] ∧ e.node = .commandExpression p.tree) ∨
        ∃ operator right, q.tree.node = .assignment p.tree operator right) := by
  constructor
  · intro hdeclared
    rcases eq_child_of_mem_positions hp with rfl | ⟨q, hq, c, hc, rfl⟩
    · exact absurd hdeclared nofun
    have hreason := Standing.reason_of_below hc
    rw [show c.1 = .declared d from hdeclared] at hreason
    generalize hn : q.tree.node = n at hreason
    cases hreason with
    | left left operator right => exact ⟨q, hq, rfl, .inr ⟨operator, right, hn⟩⟩
    | expression statement x hsole =>
      rcases eq_child_of_mem_positions hq with rfl | ⟨q', hq', c', hc', rfl⟩
      · exact absurd hsole nofun
      have hreason' := Standing.reason_of_below hc'
      rw [show c'.1 = .sole d from hsole] at hreason'
      generalize hn' : q'.tree.node = n' at hreason'
      cases hreason' with
      | sole element => exact ⟨q', hq', rfl, .inl ⟨c'.2, hn', hn⟩⟩
  · rintro ⟨q, hq, rfl, ⟨e, hn, he⟩ | ⟨operator, right, hn⟩⟩
    · have hc : (.sole q.tree.label, e) ∈ q.below := by
        rw [Position.below, hn]
        exact List.mem_singleton_self _
      have hchild := child_mem_positions hq hc
      have hc' : (.declared q.tree.label, p.tree) ∈ (q.child (.sole q.tree.label, e)).below := by
        rw [Position.below, Position.child, he]
        exact List.mem_singleton_self _
      rw [position_unique hnodup hp (child_mem_positions hchild hc') rfl]
      rfl
    · have hc : (.declared q.tree.label, p.tree) ∈ q.below := by
        rw [Position.below, hn]
        exact List.mem_cons_self
      rw [position_unique hnodup hp (child_mem_positions hq hc) rfl]
      rfl

/-- A declaration in the tree is one in the arena. -/
theorem declares_iff (h : a.Holds t) (hp : p ∈ t.positions root .free)
    (hc : p.tree.isChain = true) : (a.Reaches t.label d ∧ a.Declares d p.tree.label) ↔
      ∃ q ∈ t.positions root .free, q.tree.label = d ∧
      ((∃ e, q.tree.node = .pipeline [e] ∧ e.node = .commandExpression p.tree) ∨
        ∃ operator right, q.tree.node = .assignment p.tree operator right) := by
  have hheld {q : Position} (hq : q ∈ t.positions root .free) : a.Holds q.tree :=
    h.subtree (tree_mem_subtrees hq)
  constructor
  · rintro ⟨hreach, -, hdeclares⟩
    obtain ⟨s, hs, rfl⟩ := h.reaches_iff.mp hreach
    obtain ⟨q, hq, rfl⟩ := exists_position root .free hs
    have hsame {x : Tree NodeId} (hx : a.Holds x) (hl : x.label = p.tree.label) : x = p.tree :=
      hx.unique (hheld hp) hl
    refine ⟨q, hq, rfl, ?_⟩
    rcases hdeclares with ⟨element, hget, helement⟩ | ⟨operator, right, hget⟩
    · rw [(hheld hq).get?, Option.some.injEq] at hget
      obtain ⟨e, hn, rfl⟩ := Node.map_eq_pipeline hget
      have heheld : a.Holds e := (hheld hq).child (by simp [hn, Node.children])
      rw [heheld.get?, Option.some.injEq] at helement
      obtain ⟨x, he, hx⟩ := Node.map_eq_commandExpression helement
      rw [hsame (heheld.child (by simp [he, Node.children])) hx] at he
      exact .inl ⟨e, hn, he⟩
    · rw [(hheld hq).get?, Option.some.injEq] at hget
      obtain ⟨x, y, hn, hx⟩ := Node.map_eq_assignment hget
      rw [hsame ((hheld hq).child (by simp [hn, Node.children])) hx] at hn
      exact .inr ⟨operator, y, hn⟩
  · rintro ⟨q, hq, rfl, hdeclares⟩
    refine ⟨h.reaches_iff.mpr ⟨q.tree, tree_mem_subtrees hq, rfl⟩, ?_, ?_⟩
    · rw [isChain_eq (hheld hp)]
      exact hc
    · rcases hdeclares with ⟨e, hn, he⟩ | ⟨operator, right, hn⟩
      · have heheld : a.Holds e := (hheld hq).child (by simp [hn, Node.children])
        refine .inl ⟨e.label, ?_, ?_⟩
        · rw [(hheld hq).get?, hn]
          rfl
        · rw [heheld.get?, he]
          rfl
      · refine .inr ⟨operator, right.label, ?_⟩
        rw [(hheld hq).get?, hn]
        rfl

theorem owns_of_position (h : a.Holds t) (ha : a.Tidy) (hr : a.root? = some t.label)
    (hnodup : t.labels.Nodup) :
    ∀ p ∈ t.positions t.label .free, a.Owns t.label p.owner p.tree.label := by
  have hwell := Arena.wellFormed_of_holds ha h hr hnodup
  refine positions_induct ?_ fun q hq howns c hc => ?_
  · refine .inr ⟨rfl, fun scope hscope => hscope.2.2.1 ?_⟩
    exact Nat.le_antisymm (hscope.1.le ha) (hscope.2.2.2.le ha)
  · have hmem := tree_mem_subtrees hq
    have hchild : c.2.label ∈ (q.tree.node.map Tree.label).children := by
      rw [Node.children_map]
      exact List.mem_map_of_mem (Standing.mem_children_of_below hc)
    exact howns.child hwell ha hr (h.reaches_iff.mpr ⟨q.tree, hmem, rfl⟩) (h.subtree hmem).get? hchild

theorem ordered_of_nodup {ids : List NodeId} (h : ids.Nodup) :
    ids.Pairwise fun i j => ids.idxOf i ≤ ids.idxOf j := by
  rw [List.pairwise_iff_getElem]
  intro i j hi hj hij
  rw [h.idxOf_getElem, h.idxOf_getElem]
  exact Nat.le_of_lt hij

theorem accounts_of_tree (ha : a.Tidy) (h : a.Holds t) (hr : a.root? = some t.label)
    (hm : t.All MarksPlaced) (htop : t.isMarker = false) (hnodup : t.labels.Nodup) :
    (({} : Survey).plus a (t.positions t.label .free)).Accounts a t.label := by
  have hids : a.reachable.map (·.1) = t.labels := by
    rw [h.reachable hr hnodup, List.map_map]
    rfl
  let ps := t.positions t.label .free
  have hcandidate {q : Role × Candidate} (hq : q ∈ [] ++ ps.flatMap Position.candidates) :
      ∃ p ∈ ps, q ∈ p.candidates := List.mem_flatMap.mp hq
  have hparameter {q : NodeId × Candidate} (hq : q ∈ [] ++ ps.flatMap Position.parameters) :
      ∃ p ∈ ps, q ∈ p.parameters := List.mem_flatMap.mp hq
  have hheld {p : Position} (hp : p ∈ ps) : a.Holds p.tree := h.subtree (tree_mem_subtrees hp)
  constructor
  case marks =>
    refine ⟨ps.flatMap Position.misplaced, List.nil_append _, fun m hm => ?_, ?_, ?_⟩
    · obtain ⟨p, hp, hm⟩ := List.mem_flatMap.mp hm
      obtain ⟨mark, hmark, hm⟩ := List.mem_flatMap.mp hm
      obtain ⟨hmarker, hlabel⟩ := mem_misplacedMark hm
      rw [hlabel, ((hheld hp).subtree (p.marks_subset mark hmark)).marker?, hmarker]
    · rw [h.markers_eq hr hnodup]
      exact (accounts_perm ps).trans ((marks_perm_markers hm htop).map _)
    · rw [h.markers_eq hr hnodup]
      exact hnodup.sublist (List.filter_sublist.map _)
  case applies =>
    intro q hq
    obtain ⟨p, hp, hq⟩ := hcandidate hq
    obtain ⟨m, hm, marker, hmarker, hrole, -, -, hc⟩ := mem_candidates hq
    refine ⟨marker, ?_, hrole⟩
    rw [hc, ((hheld hp).subtree (p.marks_subset m hm)).marker?, hmarker]
  case appliesThere =>
    intro q hq
    obtain ⟨p, hp, hq⟩ := hparameter hq
    obtain ⟨m, hm, marker, hmarker, hrole, -, hc⟩ := mem_parameters hq
    refine ⟨marker, ?_, hrole⟩
    rw [hc, ((hheld hp).subtree (p.marks_subset m hm)).marker?, hmarker]
  case ordered =>
    have hlabels : ps.map (fun p => p.tree.label) = t.labels := map_label_positions ..
    rw [hids, plus, List.nil_append, List.pairwise_flatMap]
    have hnode {p : Position} {q : Role × Candidate} (hq : q ∈ p.candidates) :
        q.2.node = p.tree.label := by
      obtain ⟨m, hm, marker, hmarker, hrole, -, -, hc⟩ := mem_candidates hq
      rw [hc]
    constructor
    · intro p hp
      exact List.pairwise_of_forall_mem_list fun q hq q' hq' =>
        Nat.le_of_eq (by rw [hnode hq, hnode hq'])
    · have hpairs := ordered_of_nodup hnodup
      rw [← hlabels, List.pairwise_map, hlabels] at hpairs
      refine hpairs.imp fun {p p'} hle q hq q' hq' => ?_
      rw [hnode hq, hnode hq']
      exact hle
  case reached =>
    intro q hq
    obtain ⟨p, hp, hq⟩ := hcandidate hq
    obtain ⟨m, hm, marker, hmarker, hrole, -, -, hc⟩ := mem_candidates hq
    rw [hc]
    exact h.reaches_iff.mpr ⟨p.tree, tree_mem_subtrees hp, rfl⟩
  case owner =>
    intro q hq
    obtain ⟨p, hp, hq⟩ := hparameter hq
    obtain ⟨m, hm, marker, hmarker, hrole, howner, hc⟩ := mem_parameters hq
    rw [howner, hc]
    exact owns_of_position h ha hr hnodup p hp
  case declaration =>
    intro q hq hsite d
    obtain ⟨p, hp, hq⟩ := hcandidate hq
    obtain ⟨m, hm, marker, hmarker, hrole, hsite', -, hc⟩ := mem_candidates hq
    rw [hsite] at hsite'
    rw [hc, declares_iff h hp (p.isChain_of_site? hsite'), ← declared_iff hnodup hp]
    exact p.declaration?_eq_iff hsite'

end Survey

namespace Script

/-- The survey of a script that was read, whether or not with recovery, accounts for its markers;
where nothing could be read, there are none. -/
theorem survey_accounts (source : String) (maxDepth : Nat) :
    (match parseWithin maxDepth source with
      | .ok a => ∃ root s, a.root? = some root ∧ Survey.ofArena? a = .ok s ∧ s.Accounts a root
      | .error _ => True) ∧
    match parseRecovering source with
    | .ok (a, _) =>
      (∃ root s, a.root? = some root ∧ Survey.ofArena? a = .ok s ∧ s.Accounts a root) ∨
        a.root? = none ∧ a.markers = []
    | .error _ => True := by
  have haccounts {recovering : Bool} {a : Arena} {t : Tree NodeId} (h : Forms recovering a t) :
      ∃ root s, a.root? = some root ∧ Survey.ofArena? a = .ok s ∧ s.Accounts a root := by
    have hplaced : t.All Tree.MarksPlaced := h.proper.mono fun _ hn => hn.toMarksPlaced
    exact ⟨t.label, _, h.root, Survey.ofArena?_eq h.tidy h.holds h.root hplaced h.nodup,
      Survey.accounts_of_tree h.tidy h.holds h.root hplaced h.plain h.nodup⟩
  constructor
  · cases h : parseWithin maxDepth source with
    | error f => trivial
    | ok a =>
      obtain ⟨t, ht⟩ := forms_of_parseWithin h
      exact haccounts ht
  · cases h : parseRecovering source with
    | error f => trivial
    | ok r =>
      obtain ⟨a, errors⟩ := r
      rcases forms_of_parseRecovering h with ⟨t, ht⟩ | ⟨hroot, -⟩
      · exact .inl (haccounts ht)
      · exact .inr ⟨hroot, by rw [Arena.markers, Arena.reachable, hroot]; rfl⟩

end Script

end ScriptInject
