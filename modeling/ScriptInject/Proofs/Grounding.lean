import Mathlib.Data.Fintype.EquivFin
import Mathlib.Order.WellFounded
import ScriptInject.Proofs.Accounting
import ScriptInject.Proofs.Shape
/-! Which ids of an arena stand for trees: those that lead to no missing node and back to no node.
On these, the comparison of shapes is the equality of what the ids unfold to. -/
namespace ScriptInject.Arena

variable {a b : Arena} {t : Tree NodeId} {i j c : NodeId} {n : Node NodeId}

/-- All that the id leads to is there, and nothing there leads back to where it comes from. -/
structure Grounded (a : Arena) (id : NodeId) : Prop where
  present : ∀ i, a.Reaches id i → (a.get? i).isSome
  acyclic : ∀ i n c, a.Reaches id i → a.get? i = some n → c ∈ n.children → ¬ a.Reaches c i

theorem Grounded.child (h : a.Grounded i) (hn : a.get? i = some n) (hc : c ∈ n.children) :
    a.Grounded c := by
  have hic : a.Reaches i c := Reaches.root.child hn hc
  constructor
  · intro j hj
    exact h.present j (hic.trans hj)
  · intro j m d hj
    exact h.acyclic j m d (hic.trans hj)

theorem Holds.grounded (h : a.Holds t) : a.Grounded t.label := by
  constructor
  · intro i hi
    obtain ⟨s, hs, rfl⟩ := h.reaches_iff.mp hi
    rw [(h.subtree hs).get?]
    rfl
  · intro i n c hi hn hc hback
    obtain ⟨s, hs, rfl⟩ := h.reaches_iff.mp hi
    have hheld := h.subtree hs
    obtain ⟨x, hx, rfl⟩ := hheld.exists_child hn hc
    obtain ⟨y, hy, hlabel⟩ := (hheld.child hx).reaches_iff.mp hback
    exact hheld.label_notMem hx (List.mem_map.mpr ⟨y, hy, hlabel⟩)

/-- Below a grounded id, whatever holds of a node if it holds of its children holds of all. -/
theorem Grounded.induct {P : NodeId → Prop} (h : a.Grounded i)
    (hstep : ∀ i n, a.get? i = some n → (∀ c ∈ n.children, P c) → P i) : P i := by
  -- One node is below another one if a child of that leads to it.
  let below (p q : { j // j ∈ a.nodes.keys }) : Prop :=
    a.Reaches i q.1 ∧ ∃ n c, a.get? q.1 = some n ∧ c ∈ n.children ∧ a.Reaches c p.1
  have : Finite { j // j ∈ a.nodes.keys } := Finite.of_fintype _
  have : IsTrans _ below := by
    constructor
    rintro p q r ⟨-, m, d, hm, hd, hdp⟩ ⟨hr, n, c, hn, hc, hcq⟩
    exact ⟨hr, n, c, hn, hc, (hcq.child hm hd).trans hdp⟩
  have : Std.Irrefl below := by
    constructor
    rintro p ⟨hp, n, c, hn, hc, hcp⟩
    exact h.acyclic p.1 n c hp hn hc hcp
  have hkey {j : NodeId} (hj : a.Reaches i j) : j ∈ a.nodes.keys := by
    rw [Std.TreeMap.mem_keys, Std.TreeMap.mem_iff_isSome_getElem?]
    exact h.present j hj
  have hall (q : { j // j ∈ a.nodes.keys }) : a.Reaches i q.1 → P q.1 := by
    induction q using (Finite.wellFounded_of_trans_of_irrefl below).induction with
    | _ q ih =>
      intro hq
      obtain ⟨n, hn⟩ := Option.isSome_iff_exists.mp (h.present q.1 hq)
      apply hstep q.1 n hn
      intro c hc
      have hic := hq.child hn hc
      exact ih ⟨c, hkey hic⟩ ⟨hq, n, c, hn, hc, .root⟩ hic
  exact hall ⟨i, hkey .root⟩ .root

/-- What is grounded unfolds. -/
theorem Grounded.exists_holds (h : a.Grounded i) : ∃ t, a.Holds t ∧ t.label = i := by
  classical
  refine h.induct (P := fun i => ∃ t, a.Holds t ∧ t.label = i) fun i n hn hbelow => ?_
  let find (c : NodeId) : Tree NodeId :=
    if h : ∃ t, a.Holds t ∧ t.label = c then h.choose else .mk c (.error "")
  have hfind {c : NodeId} (hc : c ∈ n.children) : a.Holds (find c) ∧ (find c).label = c := by
    rw [show find c = (hbelow c hc).choose from dif_pos (hbelow c hc)]
    exact (hbelow c hc).choose_spec
  refine ⟨.mk i (n.map find), .mk ?_ ?_, rfl⟩
  · rw [hn, Node.map_map]
    congr 1
    exact ((Node.map_congr fun c hc => (hfind hc).2).trans (Node.map_id n)).symm
  · intro t ht
    rw [Node.children_map] at ht
    obtain ⟨c, hc, rfl⟩ := List.mem_map.mp ht
    exact (hfind hc).1

theorem grounded_iff : a.Grounded i ↔ (a.treeAt? i).isSome := by
  rw [Option.isSome_iff_exists]
  constructor
  · intro h
    obtain ⟨t, ht, hlabel⟩ := h.exists_holds
    exact ⟨t, treeAt?_eq_some_iff.mpr ⟨ht, hlabel⟩⟩
  · rintro ⟨t, ht⟩
    obtain ⟨hheld, rfl⟩ := treeAt?_eq_some_iff.mp ht
    exact hheld.grounded

/-- Where children have smaller ids and none is missing, each node is grounded. -/
theorem grounded_of_child_lt (hi : (a.get? i).isSome)
    (hlt : ∀ j n, a.get? j = some n → ∀ c ∈ n.children, c < j ∧ (a.get? c).isSome) :
    a.Grounded i := by
  have hle {i j : NodeId} (h : a.Reaches i j) : j ≤ i := by
    induction h with
    | root => exact Nat.le_refl _
    | child _ hn hc ih => exact Nat.le_trans (Nat.le_of_lt (hlt _ _ hn _ hc).1) ih
  constructor
  · intro j hj
    cases hj with
    | root => exact hi
    | child _ hn hc => exact (hlt _ _ hn _ hc).2
  · intro j n c _ hn hc hback
    exact absurd (Nat.lt_of_lt_of_le (hlt j n hn c hc).1 (hle hback)) (Nat.lt_irrefl _)

/-- A grounded id, with the arena that it is of. -/
structure Top where
  arena : Arena
  id : NodeId
  grounded : arena.Grounded id

namespace Top

/-- What the id unfolds to. -/
def tree (p : Top) : Tree NodeId := (p.arena.treeAt? p.id).get (grounded_iff.mp p.grounded)

theorem holds_tree (p : Top) : p.arena.Holds p.tree ∧ p.tree.label = p.id :=
  treeAt?_eq_some_iff.mp (Option.some_get _).symm

end Top

/-- What an id unfolds to has the ids of the arena for labels. The comparison of two ids looks for
one shape of what they unfold to: it sees neither ids nor spans, nor what is out of reach. -/
theorem sameShape_decides :
    (∀ p : Top, p.arena.Holds p.tree ∧ p.tree.label = p.id) ∧
    (∀ p q : Top, p.arena.sameShape p.id q.arena q.id = true ↔ p.tree.shape = q.tree.shape) ∧
    Equivalence fun p q : Top => p.arena.sameShape p.id q.arena q.id = true := by
  have hiff (p q : Top) :
      p.arena.sameShape p.id q.arena q.id = true ↔ p.tree.shape = q.tree.shape := by
    obtain ⟨hp, hpid⟩ := p.holds_tree
    obtain ⟨hq, hqid⟩ := q.holds_tree
    rw [← hpid, ← hqid]
    exact hp.sameShape_iff hq
  refine ⟨Top.holds_tree, hiff, ?_, ?_, ?_⟩
  · intro p
    exact (hiff p p).mpr rfl
  · intro p q hpq
    exact (hiff q p).mpr ((hiff p q).mp hpq).symm
  · intro p q r hpq hqr
    exact (hiff p r).mpr (((hiff p q).mp hpq).trans ((hiff q r).mp hqr))

/-- A sum of which the operands are one node, and one of which they are two nodes. -/
theorem sameShape_decides_shared : ∃ p q : Top,
    p.arena.get? p.id = some (.binary .add 1 1) ∧ q.arena.get? q.id = some (.binary .add 7 4) ∧
    p.arena.sameShape p.id q.arena q.id = true ∧ p.tree.shape = q.tree.shape := by
  let nodes (entries : List (NodeId × Node NodeId)) : Arena :=
    { nodes := Std.TreeMap.ofList entries compare }
  let a := nodes [(1, .number "1"), (2, .binary .add 1 1)]
  let b := nodes [(3, .binary .add 7 4), (4, .number "1"), (5, .error "x"), (7, .number "1")]
  have ha : a.Grounded 2 := grounded_iff.mpr (by decide +kernel)
  have hb : b.Grounded 3 := grounded_iff.mpr (by decide +kernel)
  have hsum : a.get? 2 = some (.binary .add 1 1) := by decide +kernel
  have hsum' : b.get? 3 = some (.binary .add 7 4) := by decide +kernel
  have hsame : a.sameShape 2 b 3 = true := by decide +kernel
  refine ⟨⟨a, 2, ha⟩, ⟨b, 3, hb⟩, hsum, hsum', hsame, ?_⟩
  exact (sameShape_decides.2.1 ⟨a, 2, ha⟩ ⟨b, 3, hb⟩).mp hsame

end ScriptInject.Arena
