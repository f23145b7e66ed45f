import Mathlib.Data.List.Nodup
import Mathlib.Data.List.Perm.Basic
import Mathlib.Logic.ExistsUnique
import ScriptInject.Proofs.Parsing.Script
/-! Whatever a parser returns is a tree: each node comes after its children and below one node only. -/
namespace ScriptInject

namespace Tree

variable {ι : Type} {s s' c c' t : Tree ι} {k k' : Nat}

/-- Where each node but the top one stands: the node above it, and its place among the children of
that. -/
def places (t : Tree ι) : List ((ι × Nat) × ι) :=
  t.subtrees.flatMap fun s => s.node.children.zipIdx.map fun (c, k) => ((s.label, k), c.label)

theorem places_mk (label : ι) (n : Node (Tree ι)) : (mk label n).places =
    n.children.zipIdx.map (fun (c, k) => ((label, k), c.label)) ++ n.children.flatMap places := by
  rw [places, subtrees_mk, List.flatMap_cons, List.flatMap_assoc]
  rfl

/-- Every node but the top one has one place. -/
theorem places_perm (t : Tree ι) : (t.places.map (·.2)).Perm t.labels.tail := by
  induction t using induct with
  | h label n ih =>
    have htop : (n.children.zipIdx.map fun (c, k) => ((label, k), c.label)).map (·.2) =
        n.children.map Tree.label := by
      rw [← List.zipIdx_map_fst 0 n.children, List.map_map, List.map_map, List.zipIdx_map_fst]
      rfl
    have hbelow : (n.children.flatMap fun c => c.places.map (·.2)).Perm
        (n.children.flatMap fun c => c.labels.tail) := List.Perm.flatMap_left _ ih
    have hlabels : n.children.flatMap (fun c => c.label :: c.labels.tail) =
        n.children.flatMap labels := by
      refine List.flatMap_congr fun c _ => ?_
      obtain ⟨l, m⟩ := c
      rw [labels_mk, label_mk, List.tail_cons]
    rw [places_mk, labels_mk, List.tail_cons, List.map_append, htop, List.map_flatMap, ← hlabels]
    exact (hbelow.append_left _).trans (List.map_append_flatMap_perm ..)

theorem mem_places (hs : s ∈ t.subtrees) (hc : s.node.children[k]? = some c) :
    ((s.label, k), c.label) ∈ t.places :=
  List.mem_flatMap.mpr ⟨s, hs, List.mem_map.mpr ⟨(c, k), List.mem_zipIdx_iff_getElem?.mpr hc, rfl⟩⟩

/-- With labels of their own, nodes stand in one place only. -/
theorem place_unique (h : t.labels.Nodup) (hs : s ∈ t.subtrees) (hs' : s' ∈ t.subtrees)
    (hc : s.node.children[k]? = some c) (hc' : s'.node.children[k']? = some c')
    (hl : c.label = c'.label) : s.label = s'.label ∧ k = k' := by
  have hnodup : (t.places.map (·.2)).Nodup :=
    t.places_perm.nodup_iff.mpr (h.sublist (List.tail_sublist _))
  have heq := List.inj_on_of_nodup_map hnodup (mem_places hs hc) (mem_places hs' hc') hl
  exact Prod.mk.inj (Prod.mk.inj heq).1

end Tree

namespace Arena

variable {a : Arena} {t : Tree NodeId} {root id p : NodeId} {k : Nat}

/-- From one node, children lead to the other one. -/
inductive Reaches (a : Arena) (root : NodeId) : NodeId → Prop
  | root : Reaches a root root
  | child {p n c} : Reaches a root p → a.get? p = some n → c ∈ n.children → Reaches a root c

/-- The child at a place. -/
def childAt? (a : Arena) (place : NodeId × Nat) : Option NodeId :=
  (a.get? place.1).bind (·.children[place.2]?)

/-- The arena mentions nothing that it does not have, each node comes after its children, and what
the root leads to stands below one node, in one place. -/
structure WellFormed (a : Arena) : Prop where
  validate : a.validate = .ok ()
  child_lt : ∀ (id : NodeId) (n : Node NodeId), a.get? id = some n → ∀ c ∈ n.children, c < id
  place : ∀ root, a.root? = some root → ∀ id, a.Reaches root id → id ≠ root →
    ∃! place : NodeId × Nat, a.Reaches root place.1 ∧ a.childAt? place = some id

theorem Holds.reaches_iff (h : a.Holds t) :
    a.Reaches t.label id ↔ ∃ s ∈ t.subtrees, s.label = id := by
  constructor
  · intro hid
    induction hid with
    | root => exact ⟨t, t.self_mem_subtrees, rfl⟩
    | child _ hn hc ih =>
      obtain ⟨s, hs, rfl⟩ := ih
      obtain ⟨x, hx, rfl⟩ := (h.subtree hs).exists_child hn hc
      exact ⟨x, Tree.subtrees_trans (Tree.mem_subtrees_of_child hx x.self_mem_subtrees) hs, rfl⟩
  · rintro ⟨s, hs, rfl⟩
    induction t using Tree.induct generalizing s with
    | h label n ih =>
      rcases Tree.mem_subtrees_mk.mp hs with rfl | ⟨c, hc, hs⟩
      · exact .root
      · have hbelow := ih c hc (h.child hc) s hs
        have hchild : a.Reaches label c.label := by
          refine .child .root h.get? ?_
          rw [Node.children_map]
          exact List.mem_map_of_mem hc
        generalize s.label = i at hbelow
        induction hbelow with
        | root => exact hchild
        | child _ hn hc' ih' => exact .child ih' hn hc'

theorem Holds.childAt? {s : Tree NodeId} (h : a.Holds s) (hid : a.childAt? (s.label, k) = some id) :
    ∃ c, s.node.children[k]? = some c ∧ c.label = id := by
  simp only [Arena.childAt?, h.get?, Option.bind_some, Node.children_map, List.getElem?_map,
    Option.map_eq_some_iff] at hid
  exact hid

theorem validate_of_tidy (h : a.Tidy) (hroot : ∀ root, a.root? = some root → (a.get? root).isSome) :
    a.validate = .ok () := by
  have hrequire {id : NodeId} (hid : (a.get? id).isSome) : a.require id = .ok () := by
    have hcontains : a.nodes.contains id = true := by
      rwa [Arena.get?, ← Std.TreeMap.contains_eq_isSome_getElem?] at hid
    simp [Arena.require, hcontains]
  have hforM {ids : List NodeId} (hids : ∀ id ∈ ids, (a.get? id).isSome) :
      ids.forM a.require = .ok () := by
    induction ids with
    | nil => rfl
    | cons id ids ih =>
      change (a.require id).bind (fun _ => ids.forM a.require) = .ok ()
      rw [hrequire (hids id (by simp))]
      exact ih fun i hi => hids i (by simp [hi])
  refine hforM fun id hid => ?_
  simp only [mentioned, List.mem_append, Option.mem_toList, List.mem_flatMap, List.mem_map] at hid
  rcases hid with (hid | ⟨⟨i, n⟩, hn, hid⟩) | ⟨⟨i, span⟩, hspan, rfl⟩
  · exact hroot id hid
  · exact h.child_get? (Std.TreeMap.mem_toList_iff_getElem?_eq_some.mp hn) id hid
  · have hsome : a.span? i = some span := Std.TreeMap.mem_toList_iff_getElem?_eq_some.mp hspan
    cases hget : a.get? i with
    | some n => rfl
    | none =>
      rw [h.spanned hget] at hsome
      cases hsome

theorem wellFormed_of_holds (h : a.Tidy) (ht : a.Holds t) (hroot : a.root? = some t.label)
    (hnodup : t.labels.Nodup) : a.WellFormed where
  validate := by
    refine validate_of_tidy h fun root hr => ?_
    obtain rfl := Option.some.inj (hroot.symm.trans hr)
    rw [ht.get?]
    rfl
  child_lt _ _ hn := h.child_lt hn
  place root hr id hid hne := by
    obtain rfl := Option.some.inj (hroot.symm.trans hr)
    cases hid with
    | root => exact absurd rfl hne
    | @child p n _ hp hn hc =>
      obtain ⟨k, hk⟩ := List.mem_iff_getElem?.mp hc
      have hat : a.childAt? (p, k) = some id := by
        rw [Arena.childAt?, hn]
        exact hk
      refine ⟨(p, k), ⟨hp, hat⟩, ?_⟩
      rintro ⟨q, j⟩ ⟨hq, hat'⟩
      obtain ⟨s, hs, rfl⟩ := ht.reaches_iff.mp hp
      obtain ⟨s', hs', rfl⟩ := ht.reaches_iff.mp hq
      obtain ⟨c, hc, hcid⟩ := (ht.subtree hs).childAt? hat
      obtain ⟨c', hc', hcid'⟩ := (ht.subtree hs').childAt? hat'
      obtain ⟨hlabel, hkj⟩ := Tree.place_unique hnodup hs hs' hc hc' (hcid.trans hcid'.symm)
      exact Prod.ext hlabel.symm hkj.symm

theorem wellFormed_of_root?_eq_none (h : a.Tidy) (hroot : a.root? = none) : a.WellFormed where
  validate := validate_of_tidy h fun _ hr => absurd (hroot.symm.trans hr) nofun
  child_lt _ _ hn := h.child_lt hn
  place _ hr := absurd (hroot.symm.trans hr) nofun

end Arena

namespace Script

variable {a : Arena} {t : Tree NodeId} {recovering : Bool}

theorem Forms.wellFormed (h : Forms recovering a t) : a.WellFormed :=
  Arena.wellFormed_of_holds h.tidy h.holds h.root h.nodup

/-- Whether or not it recovers, a parser returns a well-formed arena, and without recovery the arena
has a root. -/
theorem parse_wellFormed (source : String) (maxDepth : Nat) :
    (match parseWithin maxDepth source with
      | .ok a => a.WellFormed ∧ a.root?.isSome = true
      | .error _ => True) ∧
    match parseRecovering source with
      | .ok (a, _) => a.WellFormed
      | .error _ => True := by
  constructor
  · cases h : parseWithin maxDepth source with
    | error f => trivial
    | ok a =>
      obtain ⟨t, ht⟩ := forms_of_parseWithin h
      exact ⟨ht.wellFormed, by rw [ht.root]; rfl⟩
  · cases h : parseRecovering source with
    | error f => trivial
    | ok r =>
      obtain ⟨a, errors⟩ := r
      rcases forms_of_parseRecovering h with ⟨t, ht⟩ | ⟨hroot, htidy⟩
      · exact ht.wellFormed
      · exact Arena.wellFormed_of_root?_eq_none htidy hroot

end Script

end ScriptInject
