import Mathlib.Algebra.GroupWithZero.Nat
import Std.Data.TreeSet.Lemmas
import ScriptInject.Proofs.Gains
/-! What is reachable in an arena that holds a tree: the nodes of the tree, in pre-order. -/
namespace ScriptInject

namespace Tree

variable {ι : Type}

/-- The number of children in a tree and in all the trees inside it. -/
def links (t : Tree ι) : Nat := (t.subtrees.map fun s => s.node.children.length).sum

theorem links_mk (label : ι) (n : Node (Tree ι)) :
    (mk label n).links = n.children.length + (n.children.map links).sum := by
  have hsum (cs : List (Tree ι)) :
      (cs.flatMap fun c => c.subtrees.map fun s => s.node.children.length).sum =
        (cs.map links).sum := by
    induction cs with
    | nil => rfl
    | cons c cs ih => rw [List.flatMap_cons, List.sum_append_nat, ih, List.map_cons, List.sum_cons, links]
  rw [links, subtrees_mk, List.map_cons, List.sum_cons, node_mk, List.map_flatMap, hsum]

/-- Every node of a tree but the root is the child of one node. -/
theorem length_subtrees (t : Tree ι) : t.subtrees.length = 1 + t.links := by
  induction t using induct with
  | h label n ih =>
    have hsum (cs : List (Tree ι)) (h : ∀ c ∈ cs, c.subtrees.length = 1 + c.links) :
        (cs.map fun c => c.subtrees.length).sum = cs.length + (cs.map links).sum := by
      induction cs with
      | nil => rfl
      | cons c cs ih =>
        have hc := h c (by simp)
        have hcs := ih fun d hd => h d (by simp [hd])
        simp only [List.map_cons, List.sum_cons, List.length_cons]
        omega
    rw [subtrees_mk, List.length_cons, List.length_flatMap, links_mk, hsum _ ih]
    omega

/-- What an arena tells of the node at the top of a tree. -/
def entry (t : Tree NodeId) : NodeId × Node NodeId := (t.label, t.node.map label)

end Tree

namespace Arena

variable {a : Arena} {t : Tree NodeId} {ts : List (Tree NodeId)}

theorem sum_le_of_subset {α : Type} [DecidableEq α] {f : α → Nat} {xs ys : List α}
    (hnodup : xs.Nodup) (hsub : ∀ x ∈ xs, x ∈ ys) : (xs.map f).sum ≤ (ys.map f).sum := by
  induction xs generalizing ys with
  | nil => exact Nat.zero_le _
  | cons x xs ih =>
    have hx : x ∈ ys := hsub x (by simp)
    have hrest : ∀ y ∈ xs, y ∈ ys.erase x := by
      intro y hy
      refine (List.mem_erase_of_ne ?_).mpr (hsub y (by simp [hy]))
      rintro rfl
      exact (List.nodup_cons.mp hnodup).1 hy
    have hle := ih (List.nodup_cons.mp hnodup).2 hrest
    have hperm := ((List.perm_cons_erase hx).map f).sum_nat
    simp only [List.map_cons, List.sum_cons] at hperm ⊢
    omega

theorem stackBound_eq (a : Arena) :
    a.stackBound = 1 + (a.toList.map fun p => p.2.children.length).sum := by
  have hfold (ps : List (NodeId × Node NodeId)) (k : Nat) :
      ps.foldl (fun sum p => sum + p.2.children.length) k =
        k + (ps.map fun p => p.2.children.length).sum := by
    induction ps generalizing k with
    | nil => rfl
    | cons p ps ih =>
      simp only [List.foldl_cons, ih, List.map_cons, List.sum_cons]
      omega
  rw [stackBound, Std.TreeMap.foldl_eq_foldl_toList]
  exact hfold _ _

theorem Holds.entry_mem (h : a.Holds t) {s : Tree NodeId} (hs : s ∈ t.subtrees) :
    s.entry ∈ a.toList :=
  Std.TreeMap.mem_toList_iff_getElem?_eq_some.mpr (h.subtree hs).get?

/-- The stack holds no more than the tree has nodes. -/
theorem Holds.length_le_stackBound (h : a.Holds t) (hnodup : t.labels.Nodup) :
    t.subtrees.length ≤ a.stackBound := by
  have hentries : (t.subtrees.map Tree.entry).Nodup := by
    have hlabels : ((t.subtrees.map Tree.entry).map Prod.fst).Nodup := by
      rw [List.map_map]
      exact hnodup
    exact List.Pairwise.of_map Prod.fst (fun p q hpq => mt (congrArg Prod.fst) hpq) hlabels
  have hle := sum_le_of_subset (f := fun p => p.2.children.length) hentries fun p hp => by
    obtain ⟨s, hs, rfl⟩ := List.mem_map.mp hp
    exact h.entry_mem hs
  rw [List.map_map] at hle
  have hlinks : (t.subtrees.map ((fun p => p.2.children.length) ∘ Tree.entry)).sum = t.links := by
    congr 1
    refine List.map_congr_left fun s _ => ?_
    simp [Tree.entry]
  rw [t.length_subtrees, a.stackBound_eq]
  omega

theorem preorderFrom_trees {steps : Nat} {seen : Std.TreeSet NodeId}
    (hheld : ∀ t ∈ ts, a.Holds t) (hnodup : (ts.flatMap Tree.labels).Nodup)
    (hseen : ∀ l ∈ ts.flatMap Tree.labels, seen.contains l = false)
    (hsteps : (ts.flatMap Tree.subtrees).length ≤ steps) :
    a.preorderFrom steps seen (ts.map Tree.label) = (ts.flatMap Tree.subtrees).map Tree.entry := by
  induction steps generalizing seen ts with
  | zero =>
    rw [List.eq_nil_of_length_eq_zero (Nat.le_zero.mp hsteps)]
    rfl
  | succ steps ih =>
    cases ts with
    | nil => rfl
    | cons t ts =>
      obtain ⟨id, n⟩ := t
      have hget : a.get? id = some (n.map Tree.label) := (hheld (.mk id n) (by simp)).get?
      have hnew : seen.contains id = false := hseen id (by simp [Tree.labels_mk])
      simp only [List.flatMap_cons, Tree.labels_mk, List.cons_append, List.nodup_cons] at hnodup
      have hlabels : (n.children ++ ts).flatMap Tree.labels =
          n.children.flatMap Tree.labels ++ ts.flatMap Tree.labels := List.flatMap_append
      have hrest := @ih (n.children ++ ts) (seen.insert id) ?_ ?_ ?_ ?_
      · rw [List.map_cons, Tree.label_mk, preorderFrom]
        simp only [hnew, Bool.false_eq_true, if_false, hget, Node.children_map, List.flatMap_cons,
          Tree.subtrees_mk, List.map_cons, List.cons_append, ← List.map_append, hrest]
        simp [Tree.entry]
      · intro u hu
        rcases List.mem_append.mp hu with hu | hu
        · exact (hheld (.mk id n) (by simp)).child hu
        · exact hheld u (by simp [hu])
      · rw [hlabels]
        exact hnodup.2
      · intro l hl
        rw [hlabels] at hl
        have hne : id ≠ l := by
          rintro rfl
          exact hnodup.1 hl
        have hold := hseen l (by
          simp only [List.flatMap_cons, Tree.labels_mk, List.cons_append]
          exact List.mem_cons_of_mem _ hl)
        simp [Std.TreeSet.contains_insert, hold, hne]
      · simp only [List.flatMap_cons, Tree.subtrees_mk, List.cons_append, List.length_cons,
          List.flatMap_append, List.length_append] at hsteps ⊢
        omega

/-- From the root of a tree its nodes are reached, each of them once. -/
theorem Holds.reachable (h : a.Holds t) (hroot : a.root? = some t.label)
    (hnodup : t.labels.Nodup) : a.reachable = t.subtrees.map Tree.entry := by
  have hrun := @preorderFrom_trees a [t] a.stackBound {}
  simp only [List.flatMap_cons, List.flatMap_nil, List.append_nil, List.mem_singleton,
    List.map_cons, List.map_nil, forall_eq] at hrun
  rw [Arena.reachable, hroot]
  exact hrun h hnodup (by simp) (h.length_le_stackBound hnodup)

end Arena

end ScriptInject
