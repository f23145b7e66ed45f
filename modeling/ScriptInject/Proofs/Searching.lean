import Mathlib.Data.Finset.Card
import Mathlib.Data.Finset.Dedup
import Mathlib.Data.List.Nodup
import ScriptInject.Proofs.Accounting
import ScriptInject.Proofs.Reach
/-! Pre-order on any arena, whether it holds trees or has cycles and missing nodes: the walk with a
stack ends, and visits what a recursive search visits, in the same order. -/
namespace ScriptInject.Arena

variable {a : Arena} {id : NodeId} {n : Node NodeId} {seen : Finset NodeId} {k l : Nat}

/-- The nodes that have not been seen. -/
def unseen (a : Arena) (seen : Finset NodeId) : Finset NodeId := a.nodes.keys.toFinset \ seen

theorem mem_unseen : id ∈ a.unseen seen ↔ (a.get? id).isSome ∧ id ∉ seen := by
  rw [unseen, Finset.mem_sdiff, List.mem_toFinset, Std.TreeMap.mem_keys,
    Std.TreeMap.mem_iff_isSome_getElem?]
  rfl

/-- Seeing a node leaves fewer to see. -/
theorem card_unseen_lt {after : Finset NodeId} (hn : a.get? id = some n) (hid : id ∉ seen)
    (h : insert id seen ⊆ after) : (a.unseen after).card < (a.unseen seen).card := by
  have hsub : a.unseen after ⊆ a.unseen seen :=
    Finset.sdiff_subset_sdiff (Finset.Subset.refl _) ((Finset.subset_insert _ _).trans h)
  apply Finset.card_lt_card
  rw [Finset.ssubset_iff_of_subset hsub]
  refine ⟨id, mem_unseen.mpr ⟨by rw [hn]; rfl, hid⟩, fun hmem => ?_⟩
  exact (mem_unseen.mp hmem).2 (h (Finset.mem_insert_self _ _))

/-- The recursive search from some ids, one after the other: a node that has not been seen is
visited, then what its children lead to, in their order. Returns the visits, and what has been seen
in the end. -/
def search (a : Arena) (seen : Finset NodeId) :
    List NodeId → List (NodeId × Node NodeId) × { after : Finset NodeId // seen ⊆ after }
  | [] => ([], ⟨seen, Finset.Subset.refl _⟩)
  | id :: ids =>
    if _hid : id ∈ seen then a.search seen ids
    else match _hn : a.get? id with
      | none => a.search seen ids
      | some n =>
        let (below, ⟨mid, hmid⟩) := a.search (insert id seen) n.children
        let (behind, ⟨after, hafter⟩) := a.search mid ids
        ((id, n) :: below ++ behind,
          ⟨after, (Finset.subset_insert _ _).trans (hmid.trans hafter)⟩)
termination_by ids => ((a.unseen seen).card, ids.length)
decreasing_by
  · exact Prod.Lex.right _ (Nat.lt_succ_self _)
  · exact Prod.Lex.right _ (Nat.lt_succ_self _)
  · exact Prod.Lex.left _ _ (card_unseen_lt _hn _hid (Finset.Subset.refl _))
  · exact Prod.Lex.left _ _ (card_unseen_lt _hn _hid hmid)

variable {visits below behind : List (NodeId × Node NodeId)} {ids : List NodeId}
  {mid after : Finset NodeId}

/-- What holds of a search if it holds of the searches that it is made of. -/
theorem search_induct
    {P : Finset NodeId → List NodeId → List (NodeId × Node NodeId) → Finset NodeId → Prop}
    (nil : ∀ seen, P seen [] [] seen)
    (skip : ∀ {seen id ids visits after}, id ∈ seen ∨ a.get? id = none →
      P seen ids visits after → P seen (id :: ids) visits after)
    (visit : ∀ {seen id n ids below mid behind after}, id ∉ seen → a.get? id = some n →
      insert id seen ⊆ mid → mid ⊆ after → P (insert id seen) n.children below mid →
      P mid ids behind after → P seen (id :: ids) ((id, n) :: below ++ behind) after)
    (seen : Finset NodeId) (ids : List NodeId) :
    P seen ids (a.search seen ids).1 (a.search seen ids).2.1 := by
  induction seen, ids using search.induct a with
  | case1 seen =>
    rw [search]
    exact nil seen
  | case2 seen id ids hid ih =>
    rw [search, dif_pos hid]
    exact skip (.inl hid) ih
  | case3 seen id ids hid hn ih =>
    rw [search, dif_neg hid]
    split
    · exact skip (.inr hn) ih
    · simp_all
  | case4 seen id ids hid n hn below mid hmid hbelow behind after hafter hbehind ihbelow ihbehind =>
    obtain rfl : (a.search (insert id seen) n.children).2.1 = mid := by rw [hbelow]
    rw [search, dif_neg hid]
    split
    · simp_all
    · rename_i m hm
      obtain rfl := Option.some.inj (hn.symm.trans hm)
      exact visit hid hn (a.search _ _).2.2 (a.search _ _).2.2 ihbelow ihbehind

/-- What a search has come to: the visits are the nodes newly seen, each of them once, on a way from
one of the ids. Nothing that they or the ids lead to is left out. -/
structure Searched (a : Arena) (seen : Finset NodeId) (ids : List NodeId)
    (visits : List (NodeId × Node NodeId)) (after : Finset NodeId) : Prop where
  mem_after : ∀ i, i ∈ after ↔ i ∈ seen ∨ i ∈ visits.map Prod.fst
  fresh : ∀ p ∈ visits, p.1 ∉ seen
  nodup : (visits.map Prod.fst).Nodup
  get? : ∀ p ∈ visits, a.get? p.1 = some p.2
  reaches : ∀ p ∈ visits, ∃ id ∈ ids, a.Reaches id p.1
  starts : ∀ id ∈ ids, (a.get? id).isSome → id ∈ after
  closed : ∀ p ∈ visits, ∀ c ∈ p.2.children, (a.get? c).isSome → c ∈ after

theorem Searched.nil (seen : Finset NodeId) : a.Searched seen [] [] seen := by
  constructor <;> simp

theorem Searched.skip (h : a.Searched seen ids visits after) (hid : id ∈ seen ∨ a.get? id = none) :
    a.Searched seen (id :: ids) visits after where
  mem_after := h.mem_after
  fresh := h.fresh
  nodup := h.nodup
  get? := h.get?
  reaches p hp := by
    obtain ⟨i, hi, hreach⟩ := h.reaches p hp
    exact ⟨i, List.mem_cons_of_mem _ hi, hreach⟩
  starts := by
    intro i hi hsome
    rcases List.mem_cons.mp hi with rfl | hi
    · rcases hid with hid | hid
      · exact (h.mem_after _).mpr (.inl hid)
      · simp [hid] at hsome
    · exact h.starts i hi hsome
  closed := h.closed

theorem Searched.visit (hid : id ∉ seen) (hn : a.get? id = some n)
    (hbelow : a.Searched (insert id seen) n.children below mid)
    (hbehind : a.Searched mid ids behind after) :
    a.Searched seen (id :: ids) ((id, n) :: below ++ behind) after where
  mem_after i := by
    rw [hbehind.mem_after, hbelow.mem_after, Finset.mem_insert]
    simp only [List.map_cons, List.map_append, List.cons_append, List.mem_cons, List.mem_append]
    tauto
  fresh := by
    simp only [List.cons_append, List.mem_cons, List.mem_append]
    rintro p (rfl | hp | hp)
    · exact hid
    · exact fun hseen => hbelow.fresh p hp (Finset.mem_insert_of_mem hseen)
    · exact fun hseen => hbehind.fresh p hp
        ((hbelow.mem_after _).mpr (.inl (Finset.mem_insert_of_mem hseen)))
  nodup := by
    have hnew {p : NodeId × Node NodeId} (hp : p ∈ behind) :
        p.1 ≠ id ∧ p.1 ∉ below.map Prod.fst := by
      have hp := hbehind.fresh p hp
      rw [hbelow.mem_after, Finset.mem_insert] at hp
      tauto
    rw [List.cons_append, List.map_cons, List.map_append]
    refine List.nodup_cons.mpr ⟨?_, List.nodup_append.mpr ⟨hbelow.nodup, hbehind.nodup, ?_⟩⟩
    · intro hmem
      rcases List.mem_append.mp hmem with hmem | hmem
      · obtain ⟨p, hp, rfl⟩ := List.mem_map.mp hmem
        exact hbelow.fresh p hp (Finset.mem_insert_self _ _)
      · obtain ⟨p, hp, hpid⟩ := List.mem_map.mp hmem
        exact (hnew hp).1 hpid
    · rintro i hi j hj rfl
      obtain ⟨p, hp, rfl⟩ := List.mem_map.mp hj
      exact (hnew hp).2 hi
  get? := by
    simp only [List.cons_append, List.mem_cons, List.mem_append]
    rintro p (rfl | hp | hp)
    · exact hn
    · exact hbelow.get? p hp
    · exact hbehind.get? p hp
  reaches := by
    simp only [List.cons_append, List.mem_cons, List.mem_append]
    rintro p (rfl | hp | hp)
    · exact ⟨id, .inl rfl, .root⟩
    · obtain ⟨c, hc, hreach⟩ := hbelow.reaches p hp
      exact ⟨id, .inl rfl, (Reaches.root.child hn hc).trans hreach⟩
    · obtain ⟨i, hi, hreach⟩ := hbehind.reaches p hp
      exact ⟨i, .inr hi, hreach⟩
  starts := by
    intro i hi hsome
    rcases List.mem_cons.mp hi with rfl | hi
    · exact (hbehind.mem_after _).mpr (.inl ((hbelow.mem_after _).mpr
        (.inl (Finset.mem_insert_self _ _))))
    · exact hbehind.starts i hi hsome
  closed := by
    have hmid {i : NodeId} (hi : i ∈ mid) : i ∈ after := (hbehind.mem_after i).mpr (.inl hi)
    simp only [List.cons_append, List.mem_cons, List.mem_append]
    rintro p (rfl | hp | hp) c hc hsome
    · exact hmid (hbelow.starts c hc hsome)
    · exact hmid (hbelow.closed p hp c hc hsome)
    · exact hbehind.closed p hp c hc hsome

theorem searched (a : Arena) (seen : Finset NodeId) (ids : List NodeId) :
    a.Searched seen ids (a.search seen ids).1 (a.search seen ids).2.1 := by
  induction seen, ids using search_induct with
  | nil seen => exact .nil seen
  | skip hid ih => exact ih.skip hid
  | visit hid hn _ _ hbelow hbehind => exact .visit hid hn hbelow hbehind

/-- A search that starts with nothing seen visits what the id leads to. -/
theorem Searched.mem_iff {start : NodeId} (h : a.Searched ∅ [start] visits after) :
    (id, n) ∈ visits ↔ a.Reaches start id ∧ a.get? id = some n := by
  have hafter {i : NodeId} : i ∈ after ↔ i ∈ visits.map Prod.fst := by
    simp [h.mem_after i]
  have hall {i : NodeId} (hi : a.Reaches start i) (hsome : (a.get? i).isSome) : i ∈ after := by
    induction hi with
    | root => exact h.starts _ (by simp) hsome
    | child _ hm hc ih =>
      obtain ⟨p, hp, rfl⟩ := List.mem_map.mp (hafter.mp (ih (by rw [hm]; rfl)))
      obtain rfl := Option.some.inj (hm.symm.trans (h.get? p hp))
      exact h.closed p hp _ hc hsome
  constructor
  · intro hp
    obtain ⟨i, hi, hreach⟩ := h.reaches _ hp
    rw [List.mem_singleton.mp hi] at hreach
    exact ⟨hreach, h.get? _ hp⟩
  · rintro ⟨hreach, hn⟩
    obtain ⟨p, hp, rfl⟩ := List.mem_map.mp (hafter.mp (hall hreach (by rw [hn]; rfl)))
    obtain rfl := Option.some.inj (hn.symm.trans (h.get? p hp))
    exact hp

/-! The walk with a stack. -/

/-- The walk takes some ids off the stack and visits some nodes. It goes from the ids seen and the
stack that are named first to those named last. -/
inductive Walks (a : Arena) : Nat → List (NodeId × Node NodeId) →
    Std.TreeSet NodeId → List NodeId → Std.TreeSet NodeId → List NodeId → Prop
  | stay {seen stack} : Walks a 0 [] seen stack seen stack
  | again {k visits seen id stack seen' stack'} (hid : seen.contains id = true) :
    Walks a k visits seen stack seen' stack' →
    Walks a (k + 1) visits seen (id :: stack) seen' stack'
  | missing {k visits seen id stack seen' stack'} (hid : seen.contains id = false)
    (hn : a.get? id = none) : Walks a k visits (seen.insert id) stack seen' stack' →
    Walks a (k + 1) visits seen (id :: stack) seen' stack'
  | visit {k visits seen id n stack seen' stack'} (hid : seen.contains id = false)
    (hn : a.get? id = some n) :
    Walks a k visits (seen.insert id) (n.children ++ stack) seen' stack' →
    Walks a (k + 1) ((id, n) :: visits) seen (id :: stack) seen' stack'

/-- How many ids may still be put on the stack: the children of the nodes not seen. -/
def owed (a : Arena) (cs : Std.TreeSet NodeId) : Nat :=
  (a.toList.map fun p => if cs.contains p.1 then 0 else p.2.children.length).sum

section Owed

variable {cs : Std.TreeSet NodeId}

theorem owed_empty (a : Arena) : a.stackBound = 1 + a.owed {} := by
  rw [stackBound_eq, owed]
  simp

theorem sum_insert_of_ne {ps : List (NodeId × Node NodeId)} (h : ∀ p ∈ ps, p.1 ≠ id) :
    (ps.map fun p => if (cs.insert id).contains p.1 then 0 else p.2.children.length).sum =
      (ps.map fun p => if cs.contains p.1 then 0 else p.2.children.length).sum := by
  congr 1
  refine List.map_congr_left fun p hp => ?_
  have hne : id ≠ p.1 := (h p hp).symm
  simp [Std.TreeSet.contains_insert, hne]

theorem owed_insert_missing (hn : a.get? id = none) : a.owed (cs.insert id) = a.owed cs := by
  refine sum_insert_of_ne fun p hp hid => ?_
  have hp := Std.TreeMap.mem_toList_iff_getElem?_eq_some.mp hp
  rw [hid] at hp
  exact absurd (hn.symm.trans hp) (by simp)

/-- A node that is seen puts its children on the stack, and nothing later. -/
theorem owed_insert (hid : cs.contains id = false) (hn : a.get? id = some n) :
    a.owed cs = n.children.length + a.owed (cs.insert id) := by
  obtain ⟨before, behind, hsplit⟩ := List.append_of_mem
    (Std.TreeMap.mem_toList_iff_getElem?_eq_some.mpr hn)
  have hdistinct := Std.TreeMap.distinct_keys_toList (t := a.nodes)
  rw [hsplit, List.pairwise_append, List.pairwise_cons] at hdistinct
  have hbefore : ∀ p ∈ before, p.1 ≠ id := fun p hp => by
    simpa using hdistinct.2.2 p hp (id, n) (by simp)
  have hbehind : ∀ p ∈ behind, p.1 ≠ id := fun p hp => by
    have hne : id ≠ p.1 := by simpa using hdistinct.2.1.1 p hp
    exact hne.symm
  rw [owed, owed, toList, hsplit]
  simp only [List.map_append, List.map_cons, List.sum_append_nat, List.sum_cons,
    sum_insert_of_ne hbefore, sum_insert_of_ne hbehind]
  simp [hid]
  omega

end Owed

namespace Walks

variable {cs cs' cs'' : Std.TreeSet NodeId} {stack stack' stack'' : List NodeId}

theorem trans (h : a.Walks k visits cs stack cs' stack')
    (hl : a.Walks l behind cs' stack' cs'' stack'') :
    a.Walks (k + l) (visits ++ behind) cs stack cs'' stack'' := by
  induction h with
  | stay => rwa [Nat.zero_add]
  | again hid _ ih =>
    rw [Nat.succ_add]
    exact .again hid (ih hl)
  | missing hid hn _ ih =>
    rw [Nat.succ_add]
    exact .missing hid hn (ih hl)
  | visit hid hn _ ih =>
    rw [Nat.succ_add]
    exact .visit hid hn (ih hl)

/-- With steps enough, the walk is what the definition computes. -/
theorem preorderFrom (h : a.Walks k visits cs stack cs' stack') (l : Nat) :
    a.preorderFrom (k + l) cs stack = visits ++ a.preorderFrom l cs' stack' := by
  induction h with
  | stay => rw [Nat.zero_add, List.nil_append]
  | again hid _ ih => rw [Nat.succ_add, Arena.preorderFrom, if_pos hid, ih]
  | missing hid hn _ ih => simp [Nat.succ_add, Arena.preorderFrom, hid, hn, ih]
  | visit hid hn _ ih => simp [Nat.succ_add, Arena.preorderFrom, hid, hn, ih]

/-- Each step takes one of the ids that are on the stack or may still be put there. -/
theorem length_add_owed (h : a.Walks k visits cs stack cs' stack') :
    k + (stack'.length + a.owed cs') = stack.length + a.owed cs := by
  induction h with
  | stay => rw [Nat.zero_add]
  | again _ _ ih =>
    rw [List.length_cons]
    omega
  | missing _ hn _ ih =>
    rw [owed_insert_missing hn] at ih
    rw [List.length_cons]
    omega
  | visit hid hn _ ih =>
    rw [List.length_append] at ih
    rw [List.length_cons, owed_insert hid hn]
    omega

end Walks

/-- The same nodes have been seen. -/
def Agree (a : Arena) (cs : Std.TreeSet NodeId) (seen : Finset NodeId) : Prop :=
  ∀ i, (a.get? i).isSome → (cs.contains i = true ↔ i ∈ seen)

/-- What a search visits from some ids is what the walk visits until they are off the stack. -/
theorem walks_search (a : Arena) (seen : Finset NodeId) (ids : List NodeId) :
    ∀ cs stack, a.Agree cs seen → ∃ k cs', a.Agree cs' (a.search seen ids).2.1 ∧
      a.Walks k (a.search seen ids).1 cs (ids ++ stack) cs' stack := by
  induction seen, ids using search_induct with
  | nil seen => exact fun cs stack h => ⟨0, cs, h, .stay⟩
  | @skip seen id ids visits after hid ih =>
    intro cs stack h
    cases hcs : cs.contains id with
    | true =>
      obtain ⟨k, cs', hafter, hwalk⟩ := ih cs stack h
      exact ⟨k + 1, cs', hafter, .again hcs hwalk⟩
    | false =>
      have hn : a.get? id = none := by
        rcases hid with hid | hid
        · cases hn : a.get? id with
          | none => rfl
          | some n =>
            have := (h id (by rw [hn]; rfl)).mpr hid
            simp [hcs] at this
        · exact hid
      have hinsert : a.Agree (cs.insert id) seen := by
        intro i hi
        have hne : id ≠ i := by
          rintro rfl
          simp [hn] at hi
        simp [Std.TreeSet.contains_insert, hne, h i hi]
      obtain ⟨k, cs', hafter, hwalk⟩ := ih _ stack hinsert
      exact ⟨k + 1, cs', hafter, .missing hcs hn hwalk⟩
  | @visit seen id n ids below mid behind after hid hn _ _ ihbelow ihbehind =>
    intro cs stack h
    have hcs : cs.contains id = false := by
      rw [Bool.eq_false_iff, ne_eq, h id (by rw [hn]; rfl)]
      exact hid
    have hinsert : a.Agree (cs.insert id) (insert id seen) := by
      intro i hi
      rw [Finset.mem_insert, ← h i hi, Std.TreeSet.contains_insert, eq_comm (a := i)]
      simp
    obtain ⟨k, cs', hmid, hbelow⟩ := ihbelow _ (ids ++ stack) hinsert
    obtain ⟨l, cs'', hafter, hbehind⟩ := ihbehind _ stack hmid
    exact ⟨k + l + 1, cs'', hafter, .visit hcs hn (hbelow.trans hbehind)⟩

/-- The walk with a stack comes to an end, whatever the nodes lead to. Pre-order is the order in
which it visits them, and in which a recursive search does: each node that can be reached from the
start through nodes is visited, once. -/
theorem preorder_searches (a : Arena) (start : NodeId) :
    (∃ k ≤ a.stackBound, ∃ seen, a.Walks k (a.preorder start) {} [start] seen []) ∧
    a.preorder start = (a.search ∅ [start]).1 ∧
    ((a.preorder start).map Prod.fst).Nodup ∧
    ∀ id n, (id, n) ∈ a.preorder start ↔ a.Reaches start id ∧ a.get? id = some n := by
  obtain ⟨k, seen, -, hwalk⟩ := a.walks_search ∅ [start] {} [] (by intro i _; simp)
  rw [List.append_nil] at hwalk
  have hle : k ≤ a.stackBound := by
    have := hwalk.length_add_owed
    rw [owed_empty]
    simp only [List.length_nil, List.length_singleton] at this
    omega
  have heq : a.preorder start = (a.search ∅ [start]).1 := by
    have hrun := hwalk.preorderFrom (a.stackBound - k)
    rw [Nat.add_sub_cancel' hle] at hrun
    have hend (m : Nat) : a.preorderFrom m seen [] = [] := by cases m <;> rfl
    rw [preorder, hrun, hend, List.append_nil]
  have hsearched := a.searched ∅ [start]
  rw [← heq] at hsearched hwalk
  exact ⟨⟨k, hle, seen, hwalk⟩, heq, hsearched.nodup, fun id n => hsearched.mem_iff⟩

/-- Two nodes in a circle, a node that both lead to, and a missing one. -/
example :
    let nodes : List (NodeId × Node NodeId) :=
      [(1, .binary .add 2 3), (2, .ternary 3 9 1), (3, .number "0")]
    (preorder { nodes := .ofList nodes } 1).map Prod.fst = [1, 2, 3] := by decide +kernel

end ScriptInject.Arena
