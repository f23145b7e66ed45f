import Mathlib.Algebra.Order.BigOperators.Group.List
import Mathlib.Algebra.Order.Group.Nat
import Mathlib.Data.List.GetD
import Mathlib.Data.List.Nodup
import ScriptInject.Proofs.Depth
/-! Trees of one shape: a tree is its shape with its labels. -/
namespace ScriptInject

namespace Tree

variable {ι κ : Type} {s : Tree ι} {t : Tree κ}

theorem shape_mk (label : ι) (n : Node (Tree ι)) : (mk label n).shape = .mk () (n.map shape) :=
  map_mk ..

theorem length_labels_shape (t : Tree ι) : t.shape.labels.length = t.labels.length := by
  rw [shape, labels_map, List.length_map]

/-- A tree of the same shape with its labels renamed is the renamed tree. -/
theorem eq_map_of_shape {f : ι → κ} (hshape : s.shape = t.shape)
    (hlabels : t.labels = s.labels.map f) : t = s.map f := by
  induction s using induct generalizing t with
  | h label n ih =>
    obtain ⟨l, m⟩ := t
    have hnode : n.map shape = m.map shape := by
      rw [shape_mk, shape_mk] at hshape
      exact (Tree.mk.inj hshape).2
    rw [labels_mk, labels_mk, List.map_cons] at hlabels
    obtain ⟨rfl, hbelow⟩ := List.cons.inj hlabels
    have heach {xs : List (Tree ι)} {ys : List (Tree κ)} (hxs : ∀ x ∈ xs, x ∈ n.children)
        (hshapes : xs.map shape = ys.map shape)
        (hl : ys.flatMap labels = (xs.flatMap labels).map f) : ys = xs.map (map f) := by
      induction xs generalizing ys with
      | nil => simpa using hshapes
      | cons x xs ihs =>
        obtain _ | ⟨y, ys⟩ := ys
        · exact absurd hshapes nofun
        obtain ⟨hx, hrest⟩ := List.cons.inj hshapes
        rw [List.flatMap_cons, List.flatMap_cons, List.map_append] at hl
        have hlength : y.labels.length = (x.labels.map f).length := by
          rw [List.length_map, ← length_labels_shape x, hx, length_labels_shape]
        obtain ⟨hl, hls⟩ := List.append_inj hl hlength
        rw [List.map_cons, ih x (hxs x (by simp)) hx hl,
          ihs (fun z hz => hxs z (by simp [hz])) hrest hls]
    rw [map_mk]
    congr 1
    refine Node.eq_of_shell ?_ ?_
    · rw [Node.shell_map, ← Node.shell_map shape m, ← hnode, Node.shell_map]
    · rw [Node.children_map]
      refine heach (fun _ hx => hx) ?_ hbelow
      rw [← Node.children_map, ← Node.children_map, hnode]

/-- Of two lists of one length, each without repetition, the first one can be renamed to the
second. -/
theorem exists_injective {xs ys : List Nat} (hxs : xs.Nodup) (hys : ys.Nodup)
    (hlength : xs.length = ys.length) : ∃ f : Nat → Nat, Function.Injective f ∧ ys = xs.map f := by
  -- What is no member goes above all members.
  let f (i : Nat) : Nat := ys.getD (xs.idxOf i) (i + ys.sum + 1)
  have hmem {i : Nat} (hi : i ∈ xs) : ∃ h : xs.idxOf i < ys.length, f i = ys[xs.idxOf i] := by
    have h := hlength ▸ List.idxOf_lt_length_iff.mpr hi
    exact ⟨h, List.getD_eq_getElem _ _ h⟩
  have hnotMem {i : Nat} (hi : i ∉ xs) : f i = i + ys.sum + 1 := by
    refine List.getD_eq_default _ _ ?_
    rw [List.idxOf_eq_length hi, hlength]
  have hlt {i j : Nat} (hi : i ∈ xs) (hj : j ∉ xs) : f i < f j := by
    obtain ⟨h, hfi⟩ := hmem hi
    have hle := List.le_sum_of_mem (List.getElem_mem h)
    rw [hfi, hnotMem hj]
    omega
  refine ⟨f, fun i j hij => ?_, List.ext_getElem (by simp [hlength]) fun k hk hk' => ?_⟩
  · by_cases hi : i ∈ xs <;> by_cases hj : j ∈ xs
    · obtain ⟨h, hfi⟩ := hmem hi
      obtain ⟨h', hfj⟩ := hmem hj
      rw [hfi, hfj] at hij
      exact (List.idxOf_inj hi).mp ((List.Nodup.getElem_inj_iff hys).mp hij)
    · exact absurd hij (Nat.ne_of_lt (hlt hi hj))
    · exact absurd hij.symm (Nat.ne_of_lt (hlt hj hi))
    · rw [hnotMem hi, hnotMem hj] at hij
      omega
  · rw [List.length_map] at hk'
    obtain ⟨h, hfk⟩ := hmem (List.getElem_mem hk')
    rw [List.getElem_map, hfk]
    congr 1
    exact (List.Nodup.idxOf_getElem hxs k hk').symm

/-- Of two trees of one shape, each with different labels, the second one is the first one with its
labels renamed. -/
theorem exists_renaming {s t : Tree Nat} (hs : s.labels.Nodup) (ht : t.labels.Nodup)
    (hshape : s.shape = t.shape) : ∃ f : Nat → Nat, Function.Injective f ∧ t = s.map f := by
  obtain ⟨f, hf, hlabels⟩ := exists_injective hs ht (by
    rw [← length_labels_shape s, hshape, length_labels_shape])
  exact ⟨f, hf, eq_map_of_shape hshape hlabels⟩

end Tree

namespace Arena

variable {a b : Arena} {s t : Tree NodeId} {k : Nat}

/-- What is compared alike stands for one tree, with two ids for each node. -/
theorem exists_holds_of_sameShapeUpTo {i j : NodeId} (h : sameShapeUpTo k a i b j = true) :
    ∃ z : Tree (NodeId × NodeId), z.label = (i, j) ∧ a.Holds (z.map Prod.fst) ∧
      b.Holds (z.map Prod.snd) := by
  induction k generalizing i j with
  | zero => exact absurd h nofun
  | succ k ih =>
    rw [Arena.sameShapeUpTo] at h
    split at h
    · rename_i m n hm hn
      simp only [Bool.and_eq_true, beq_iff_eq, List.all_eq_true] at h
      obtain ⟨hshell, hchildren⟩ := h
      have heach {is js : List NodeId} (hlength : is.length = js.length)
          (h : ∀ p ∈ is.zip js, sameShapeUpTo k a p.1 b p.2 = true) :
          ∃ zs : List (Tree (NodeId × NodeId)), zs.map Tree.label = is.zip js ∧
            ∀ z ∈ zs, a.Holds (z.map Prod.fst) ∧ b.Holds (z.map Prod.snd) := by
        induction is generalizing js with
        | nil => exact ⟨[], rfl, nofun⟩
        | cons i is ihs =>
          obtain _ | ⟨j, js⟩ := js
          · exact absurd hlength nofun
          obtain ⟨z, hz, hheld⟩ := ih (h (i, j) (by simp))
          obtain ⟨zs, hzs, hall⟩ := ihs (Nat.succ.inj hlength) fun p hp => h p (by simp [hp])
          refine ⟨z :: zs, by rw [List.map_cons, hz, hzs, List.zip_cons_cons], ?_⟩
          intro y hy
          rcases List.mem_cons.mp hy with rfl | hy
          · exact hheld
          · exact hall y hy
      have hlength : m.children.length = n.children.length := by
        rw [← m.length_children_shell, hshell, n.length_children_shell]
      obtain ⟨zs, hlabels, hheld⟩ := heach hlength hchildren
      have hfits : zs.length = m.children.length := by
        have hcount := congrArg List.length hlabels
        rwa [List.length_map, List.length_zip, ← hlength, Nat.min_self] at hcount
      have hnode {f : NodeId × NodeId → NodeId} : ((m.fill zs).map (Tree.map f)).map Tree.label =
          m.fill ((m.children.zip n.children).map f) := by
        rw [Node.map_map, Node.map_fill hfits, ← hlabels, List.map_map]
        congr 1
        exact List.map_congr_left fun z _ => Tree.label_map f z
      refine ⟨.mk (i, j) (m.fill zs), rfl, ?_, ?_⟩
      · rw [Tree.map_mk]
        refine .mk ?_ fun t ht => ?_
        · rw [hnode, List.map_fst_zip (Nat.le_of_eq hlength), Node.fill_eq rfl rfl]
          exact hm
        · rw [Node.children_map, Node.children_fill hfits] at ht
          obtain ⟨z, hz, rfl⟩ := List.mem_map.mp ht
          exact (hheld z hz).1
      · rw [Tree.map_mk]
        refine .mk ?_ fun t ht => ?_
        · rw [hnode, List.map_snd_zip (Nat.le_of_eq hlength.symm), Node.fill_eq hshell.symm rfl]
          exact hn
        · rw [Node.children_map, Node.children_fill hfits] at ht
          obtain ⟨z, hz, rfl⟩ := List.mem_map.mp ht
          exact (hheld z hz).2
    · exact absurd h nofun

/-- What is compared alike has one shape. -/
theorem Holds.shape_eq (hs : a.Holds s) (ht : b.Holds t)
    (h : Arena.sameShapeUpTo k a s.label b t.label = true) : s.shape = t.shape := by
  obtain ⟨z, hz, hfst, hsnd⟩ := exists_holds_of_sameShapeUpTo h
  have hs' : z.map Prod.fst = s := hfst.unique hs (by rw [Tree.label_map, hz])
  have ht' : z.map Prod.snd = t := hsnd.unique ht (by rw [Tree.label_map, hz])
  rw [← hs', ← ht', Tree.shape, Tree.shape, Tree.map_comp, Tree.map_comp]
  rfl

/-- Trees of one shape are compared alike, as deep as the bound allows. -/
theorem Holds.sameShapeUpTo (hs : a.Holds s) (ht : b.Holds t) (hk : s.Within k)
    (hshape : s.shape = t.shape) : sameShapeUpTo k a s.label b t.label = true := by
  induction k generalizing s t with
  | zero => exact absurd hk id
  | succ k ih =>
    obtain ⟨i, m⟩ := s
    obtain ⟨j, n⟩ := t
    rw [Tree.shape_mk, Tree.shape_mk] at hshape
    have hnode : m.map Tree.shape = n.map Tree.shape := (Tree.mk.inj hshape).2
    have hshell : m.shell = n.shell := by
      rw [← Node.shell_map Tree.shape m, hnode, Node.shell_map]
    have hchildren : m.children.map Tree.shape = n.children.map Tree.shape := by
      rw [← Node.children_map, hnode, Node.children_map]
    simp only [Arena.sameShapeUpTo, hs.get?, ht.get?, Tree.node_mk, Node.shell_map, hshell,
      Node.children_map, beq_self_eq_true, Bool.true_and, List.all_eq_true, List.zip_map,
      List.mem_map, forall_exists_index, and_imp, forall_apply_eq_imp_iff₂, Prod.map_fst,
      Prod.map_snd]
    intro p hp
    obtain ⟨hx, hy⟩ := List.of_mem_zip hp
    refine ih (hs.child hx) (ht.child hy) (hk p.1 hx) ?_
    obtain ⟨l, hl, hpl⟩ := List.mem_iff_getElem.mp hp
    simp only [List.length_zip, Nat.lt_min] at hl
    rw [List.getElem_zip] at hpl
    have hl' := List.getElem_of_eq hchildren (i := l) (by simpa using hl.1)
    simpa [← hpl] using hl'

/-- The comparison decides whether two trees have one shape. -/
theorem Holds.sameShape_iff (hs : a.Holds s) (ht : b.Holds t) :
    a.sameShape s.label b t.label = true ↔ s.shape = t.shape := by
  constructor
  · exact hs.shape_eq ht
  · exact hs.sameShapeUpTo ht hs.within_depthBound

end Arena

end ScriptInject
