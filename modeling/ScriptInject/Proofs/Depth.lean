import Mathlib.Data.List.Perm.Subperm
import ScriptInject.Proofs.Filling
import ScriptInject.Proofs.Gains
/-! The trees of an arena unfold: no path in them has more nodes than the arena. -/
namespace ScriptInject

namespace Tree

variable {ι : Type} {t c : Tree ι} {k l : Nat}

/-- No path from the top downwards has more nodes than that. -/
def Within : Nat → Tree ι → Prop
  | 0, _ => False
  | k + 1, t => ∀ c ∈ t.node.children, Within k c

theorem Within.mono (h : t.Within k) (hkl : k ≤ l) : t.Within l := by
  induction k generalizing t l with
  | zero => exact absurd h id
  | succ k ih =>
    obtain _ | l := l
    · omega
    · intro c hc
      exact ih (h c hc) (by omega)

theorem within_map {κ : Type} (f : ι → κ) : (t.map f).Within k ↔ t.Within k := by
  induction k generalizing t with
  | zero => exact Iff.rfl
  | succ k ih =>
    simp only [Within, node_map, Node.children_map, List.forall_mem_map, ih]

theorem length_labels_lt (hc : c ∈ t.node.children) : c.labels.length < t.labels.length := by
  obtain ⟨label, n⟩ := t
  have hsub : c.labels.Sublist (n.children.map labels).flatten :=
    List.sublist_flatten_of_mem (List.mem_map_of_mem hc)
  have hle := hsub.length_le
  rw [labels_mk, List.length_cons, List.flatMap_def]
  omega

end Tree

namespace Arena

variable {a : Arena} {t c : Tree NodeId} {i : NodeId} {k : Nat}

/-- A tree is not found below itself. -/
theorem Holds.label_notMem (h : a.Holds t) (hc : c ∈ t.node.children) : t.label ∉ c.labels := by
  intro hmem
  obtain ⟨s, hs, hlabel⟩ := List.mem_map.mp hmem
  have heq : s = t := ((h.child hc).subtree hs).unique h hlabel
  have hle := (Tree.labels_sublist hs).length_le
  have hlt := Tree.length_labels_lt hc
  rw [heq] at hle
  omega

theorem length_le_size {ids : List NodeId} (hnodup : ids.Nodup)
    (hget : ∀ i ∈ ids, (a.get? i).isSome) : ids.length ≤ a.size := by
  have hkeys : ids ⊆ a.nodes.keys := by
    intro i hi
    rw [Std.TreeMap.mem_keys, Std.TreeMap.mem_iff_isSome_getElem?]
    exact hget i hi
  have hle := (hnodup.subperm hkeys).length_le
  rwa [Std.TreeMap.length_keys] at hle

/-- Below a path, a tree has as many levels at most as there are nodes off the path. -/
theorem Holds.within_below (h : a.Holds t) {path : List NodeId} (hnodup : path.Nodup)
    (hget : ∀ i ∈ path, (a.get? i).isSome) (hoff : ∀ i ∈ path, i ∉ t.labels)
    (hk : a.size ≤ path.length + k) : t.Within k := by
  induction t using Tree.induct generalizing path k with
  | h label n ih =>
    have hself : label ∉ path := by
      intro hmem
      exact hoff label hmem (by simp [Tree.labels_mk])
    have hnodup' : (label :: path).Nodup := List.nodup_cons.mpr ⟨hself, hnodup⟩
    have hget' : ∀ i ∈ label :: path, (a.get? i).isSome := by
      intro i hi
      rcases List.mem_cons.mp hi with rfl | hi
      · have htop := h.get?
        rw [Tree.label_mk] at htop
        rw [htop]
        rfl
      · exact hget i hi
    have hle := length_le_size hnodup' hget'
    rw [List.length_cons] at hle
    obtain _ | k := k
    · omega
    · intro c hc
      apply ih c hc (h.child hc) hnodup' hget'
      · intro i hi
        rcases List.mem_cons.mp hi with rfl | hi
        · exact h.label_notMem hc
        · intro hmem
          apply hoff i hi
          rw [Tree.labels_mk]
          exact List.mem_cons_of_mem _ (List.mem_flatMap.mpr ⟨c, hc, hmem⟩)
      · rw [List.length_cons]
        omega

theorem Holds.within (h : a.Holds t) : t.Within a.size :=
  h.within_below List.nodup_nil (by simp) (by simp) (by simp)

theorem Holds.within_depthBound (h : a.Holds t) : t.Within a.depthBound :=
  h.within.mono (Nat.le_succ _)

/-- The tree below an id down to the given depth, each child's id replaced by what stands there. -/
def unfoldUpTo (a : Arena) : Nat → NodeId → Option (Tree NodeId)
  | 0, _ => none
  | depth + 1, id => do
    let n ← a.get? id
    return .mk id (← n.mapM (a.unfoldUpTo depth))

/-- The tree below an id, if it is finite and nothing is missing. -/
def treeAt? (a : Arena) (id : NodeId) : Option (Tree NodeId) := a.unfoldUpTo a.size id

theorem holds_of_unfoldUpTo (h : a.unfoldUpTo k i = some t) : a.Holds t ∧ t.label = i := by
  induction k generalizing i t with
  | zero => cases h
  | succ k ih =>
    obtain ⟨n, hn, h⟩ := Option.bind_eq_some_iff.mp h
    obtain ⟨m, hm, h⟩ := Option.bind_eq_some_iff.mp h
    obtain rfl := Option.some.inj h
    rw [Node.mapM_eq] at hm
    obtain ⟨ts, hts, rfl⟩ := Option.map_eq_some_iff.mp hm
    have heach {cs : List NodeId} {ts : List (Tree NodeId)}
        (h : cs.mapM (a.unfoldUpTo k) = some ts) :
        (∀ t ∈ ts, a.Holds t) ∧ ts.map Tree.label = cs := by
      induction cs generalizing ts with
      | nil =>
        obtain rfl := Option.some.inj h
        simp
      | cons c cs ihcs =>
        rw [List.mapM_cons] at h
        obtain ⟨x, hx, h⟩ := Option.bind_eq_some_iff.mp h
        obtain ⟨xs, hxs, h⟩ := Option.bind_eq_some_iff.mp h
        obtain rfl := Option.some.inj h
        obtain ⟨hheld, hlabels⟩ := ihcs hxs
        obtain ⟨htop, rfl⟩ := ih hx
        refine ⟨?_, by rw [List.map_cons, hlabels]⟩
        intro t ht
        rcases List.mem_cons.mp ht with rfl | ht
        · exact htop
        · exact hheld t ht
    obtain ⟨hheld, hlabels⟩ := heach hts
    have hlength : ts.length = n.children.length := by
      rw [← hlabels, List.length_map]
    refine ⟨.mk ?_ ?_, rfl⟩
    · rw [Node.map_fill hlength, hlabels, Node.fill_eq rfl rfl]
      exact hn
    · rw [Node.children_fill hlength]
      exact hheld

theorem Holds.unfoldUpTo (h : a.Holds t) (hk : t.Within k) :
    a.unfoldUpTo k t.label = some t := by
  induction k generalizing t with
  | zero => exact absurd hk id
  | succ k ih =>
    obtain ⟨label, n⟩ := t
    have hchildren {cs : List (Tree NodeId)} (hcs : ∀ c ∈ cs, c ∈ n.children) :
        (cs.map Tree.label).mapM (a.unfoldUpTo k) = some cs := by
      induction cs with
      | nil => rfl
      | cons c cs ihcs =>
        have hc := hcs c (by simp)
        rw [List.map_cons, List.mapM_cons, ih (h.child hc) (hk c hc),
          ihcs fun d hd => hcs d (by simp [hd])]
        rfl
    have hnode : (n.map Tree.label).mapM (a.unfoldUpTo k) = some n := by
      rw [Node.mapM_eq, Node.children_map, hchildren fun c hc => hc]
      exact congrArg some (Node.fill_eq (Node.shell_map Tree.label n).symm rfl)
    rw [Arena.unfoldUpTo, h.get?, Tree.node_mk, Option.bind_eq_bind, Option.bind_some, hnode]
    rfl

/-- What an id unfolds to is the tree that stands there. -/
theorem treeAt?_eq_some_iff : a.treeAt? i = some t ↔ a.Holds t ∧ t.label = i := by
  constructor
  · exact holds_of_unfoldUpTo
  · rintro ⟨h, rfl⟩
    exact h.unfoldUpTo h.within

end Arena

end ScriptInject
