import ScriptInject.Proofs.Unfolding
/-! Arenas that grow by whole trees, each with nodes of its own. -/
namespace ScriptInject

namespace Tree

variable {ι : Type} {s t : Tree ι}

theorem subtrees_sublist (h : s ∈ t.subtrees) : s.subtrees.Sublist t.subtrees := by
  induction t using induct with
  | h label n ih =>
    rcases mem_subtrees_mk.mp h with rfl | ⟨c, hc, hs⟩
    · exact List.Sublist.refl _
    · rw [subtrees_mk]
      have hchild : c.subtrees.Sublist (n.children.flatMap subtrees) := by
        obtain ⟨pre, post, hsplit⟩ := List.append_of_mem hc
        rw [hsplit]
        simp only [List.flatMap_append, List.flatMap_cons]
        exact (List.sublist_append_left ..).trans (List.sublist_append_right ..)
      exact ((ih c hc hs).trans hchild).trans (List.sublist_cons_self ..)

theorem labels_sublist (h : s ∈ t.subtrees) : s.labels.Sublist t.labels :=
  (subtrees_sublist h).map label

end Tree

namespace Arena

variable {a b c : Arena} {ts us : List (Tree NodeId)} {x y : Tree NodeId} {id : NodeId}
  {span : Option Span}

/-- From one arena to the other, certain trees have been added. -/
structure Gains (a b : Arena) (ts : List (Tree NodeId)) : Prop where
  grows : a.Grows b
  tidy : b.Tidy
  held : ∀ x ∈ ts, b.Holds x
  fresh : ∀ x ∈ ts, ∀ l ∈ x.labels, a.nextId ≤ l
  nodup : (ts.flatMap Tree.labels).Nodup

namespace Gains

theorem refl (h : a.Tidy) : a.Gains a [] := ⟨.refl a, h, nofun, nofun, List.nodup_nil⟩

theorem trans (h : a.Gains b ts) (k : b.Gains c us) : a.Gains c (ts ++ us) where
  grows := h.grows.trans k.grows
  tidy := k.tidy
  held x hx := by
    rcases List.mem_append.mp hx with hx | hx
    · exact (h.held x hx).grows k.grows
    · exact k.held x hx
  fresh x hx l hl := by
    rcases List.mem_append.mp hx with hx | hx
    · exact h.fresh x hx l hl
    · exact Nat.le_trans h.grows.nextId_le (k.fresh x hx l hl)
  nodup := by
    rw [List.flatMap_append]
    refine List.nodup_append.mpr ⟨h.nodup, k.nodup, fun i hi j hj hij => ?_⟩
    obtain ⟨x, hx, hix⟩ := List.mem_flatMap.mp hi
    obtain ⟨y, hy, hjy⟩ := List.mem_flatMap.mp hj
    obtain ⟨z, hz, rfl⟩ := List.mem_map.mp hix
    have hlt := ((h.held x hx).subtree hz).label_lt h.tidy
    rw [hij] at hlt
    exact absurd (k.fresh y hy j hjy) (Nat.not_le.mpr hlt)

theorem perm (h : a.Gains b ts) (hp : us.Perm ts) : a.Gains b us where
  grows := h.grows
  tidy := h.tidy
  held x hx := h.held x (hp.subset hx)
  fresh x hx := h.fresh x (hp.subset hx)
  nodup := (hp.flatMap_right Tree.labels).nodup_iff.mpr h.nodup

theorem drop (h : a.Gains b (ts ++ us)) : a.Gains b ts where
  grows := h.grows
  tidy := h.tidy
  held x hx := h.held x (List.mem_append_left _ hx)
  fresh x hx := h.fresh x (List.mem_append_left _ hx)
  nodup := by
    have := h.nodup
    rw [List.flatMap_append] at this
    exact (List.nodup_append.mp this).1

theorem subtree (h : a.Gains b (ts ++ [x])) (hy : y ∈ x.subtrees) : a.Gains b (ts ++ [y]) where
  grows := h.grows
  tidy := h.tidy
  held z hz := by
    rcases List.mem_append.mp hz with hz | hz
    · exact h.held z (List.mem_append_left _ hz)
    · obtain rfl := List.mem_singleton.mp hz
      exact (h.held x (by simp)).subtree hy
  fresh z hz := by
    rcases List.mem_append.mp hz with hz | hz
    · exact h.fresh z (List.mem_append_left _ hz)
    · obtain rfl := List.mem_singleton.mp hz
      exact fun l hl => h.fresh x (by simp) l ((Tree.labels_sublist hy).subset hl)
  nodup := by
    have := h.nodup
    simp only [List.flatMap_append, List.flatMap_cons, List.flatMap_nil, List.append_nil] at this ⊢
    exact this.sublist ((List.Sublist.refl _).append (Tree.labels_sublist hy))

/-- A new node stands on the trees that its children are. -/
theorem add {n : Node (Tree NodeId)} (h : a.Gains b (ts ++ us)) (hc : n.children.Perm us)
    (hadd : b.add (n.map Tree.label) span = .ok (id, c)) : a.Gains c (ts ++ [.mk id n]) := by
  have hmem {x : Tree NodeId} (hx : x ∈ n.children) : x ∈ ts ++ us :=
    List.mem_append_right _ (hc.subset hx)
  have hgrows := add_grows hadd h.tidy
  have hid : id = b.nextId := add_id hadd
  constructor
  · exact h.grows.trans hgrows
  · apply add_tidy hadd h.tidy
    intro l hl
    rw [Node.children_map] at hl
    obtain ⟨x, hx, rfl⟩ := List.mem_map.mp hl
    rw [(h.held x (hmem hx)).get?]
    rfl
  · intro x hx
    rcases List.mem_append.mp hx with hx | hx
    · exact (h.held x (List.mem_append_left _ hx)).grows hgrows
    · obtain rfl := List.mem_singleton.mp hx
      exact add_holds hadd h.tidy fun x hx => h.held x (hmem hx)
  · intro x hx l hl
    rcases List.mem_append.mp hx with hx | hx
    · exact h.fresh x (List.mem_append_left _ hx) l hl
    · obtain rfl := List.mem_singleton.mp hx
      rw [Tree.labels_mk, List.mem_cons, List.mem_flatMap] at hl
      rcases hl with rfl | ⟨d, hdn, hl⟩
      · rw [hid]
        exact h.grows.nextId_le
      · exact h.fresh d (hmem hdn) l hl
  · have hnew {x : Tree NodeId} (hx : x ∈ ts ++ us) : id ∉ x.labels := by
      intro hl
      obtain ⟨y, hy, hyl⟩ := List.mem_map.mp hl
      have hlt := ((h.held x hx).subtree hy).label_lt h.tidy
      rw [hyl, hid] at hlt
      exact absurd hlt (Nat.lt_irrefl _)
    have hperm : (n.children.flatMap Tree.labels).Perm (us.flatMap Tree.labels) :=
      hc.flatMap_right _
    have hnd := h.nodup
    simp only [List.flatMap_append, List.flatMap_cons, List.flatMap_nil, List.append_nil,
      Tree.labels_mk] at hnd ⊢
    have hall := ((List.Perm.refl (ts.flatMap Tree.labels)).append hperm).nodup_iff.mpr hnd
    refine (List.perm_middle.nodup_iff).mpr (List.nodup_cons.mpr ⟨?_, hall⟩)
    intro hl
    rcases List.mem_append.mp hl with hl | hl
    · obtain ⟨x, hx, hxl⟩ := List.mem_flatMap.mp hl
      exact hnew (List.mem_append_left _ hx) hxl
    · obtain ⟨x, hx, hxl⟩ := List.mem_flatMap.mp hl
      exact hnew (hmem hx) hxl

end Gains

end Arena

end ScriptInject
