import ScriptInject.Proofs.Lockstep.Basic
/-! Arenas with the same nodes, where one of them has some nodes before these. -/
namespace ScriptInject

/-- The second arena has the nodes of a list as well, with ids one after the other. -/
structure Arena.Appends (a b : Arena) (ns : List (Node NodeId)) : Prop where
  nextId : b.nextId = a.nextId + ns.length
  get?_new : ∀ j < ns.length, b.get? (a.nextId + j) = ns[j]?
  get?_old : ∀ i, i < a.nextId ∨ a.nextId + ns.length ≤ i → b.get? i = a.get? i
  span?_old : ∀ i, i < a.nextId ∨ a.nextId + ns.length ≤ i → b.span? i = a.span? i

namespace Arena

variable {a b c : Arena} {n : Node NodeId} {ns : List (Node NodeId)} {id : NodeId}
  {span : Option Span}

theorem Appends.refl (a : Arena) : a.Appends a [] := ⟨rfl, nofun, fun _ _ => rfl, fun _ _ => rfl⟩

theorem Appends.cons (h : a.add n span = .ok (id, b)) (k : b.Appends c ns) :
    a.Appends c (n :: ns) := by
  have hid := add_id h
  have hnext := add_nextId h
  have hold (i : Nat) (hi : i < a.nextId ∨ a.nextId + (n :: ns).length ≤ i) :
      i < b.nextId ∨ b.nextId + ns.length ≤ i := by
    simp only [List.length_cons] at hi
    omega
  have hne (i : Nat) (hi : i < a.nextId ∨ a.nextId + (n :: ns).length ≤ i) : i ≠ id := by
    simp only [List.length_cons] at hi
    omega
  constructor
  · rw [k.nextId, hnext, hid, List.length_cons]
    omega
  · intro j hj
    cases j with
    | zero =>
      rw [Nat.add_zero, k.get?_old _ (.inl (by omega)), ← hid, add_get? h]
      rfl
    | succ j =>
      rw [List.length_cons] at hj
      have := k.get?_new j (by omega)
      rw [hnext, hid] at this
      rw [show a.nextId + (j + 1) = a.nextId + 1 + j by omega, this]
      rfl
  · exact fun i hi => (k.get?_old i (hold i hi)).trans (add_get?_of_ne h (hne i hi))
  · exact fun i hi => (k.span?_old i (hold i hi)).trans (add_span?_of_ne h (hne i hi))

/-- There is room for a node as long as the limit is not reached. -/
theorem exists_add (hpos : 0 < a.nextId) (h : a.nextId ≠ idLimit) (n : Node NodeId)
    (span : Option Span) : a.add n span = .ok (a.nextId, a.extended n span) := by
  have hfresh : a.fresh? = some a.nextId := by
    rw [fresh?, if_neg]
    omega
  simp only [add, hfresh]
  rfl

/-- The second arena has the nodes of a list, and then those of the first one. Their spans are `o`
bytes further on. -/
structure Prepends (o : Nat) (ns : List (Node NodeId)) (a b : Arena) : Prop where
  positive : 0 < a.nextId
  nextId : b.nextId = a.nextId + ns.length
  first : ∀ j < ns.length, b.get? (j + 1) = ns[j]?
  get?_shift : ∀ i, b.get? (NodeId.shift ns.length i) =
    (a.get? i).map (Node.map (NodeId.shift ns.length))
  span?_shift : ∀ i, b.span? (NodeId.shift ns.length i) = (a.span? i).map (Span.shift o)

variable {k o i j : Nat} {m m' : Node NodeId}

theorem shift_of_pos (h : 0 < i) : NodeId.shift k i = i + k := if_neg (Nat.ne_of_gt h)

theorem shift_ne (h : 0 < i) (hj : j ≠ i) : NodeId.shift k j ≠ i + k := by
  cases j with
  | zero => exact Nat.ne_of_lt (Nat.add_pos_left h k)
  | succ j => exact fun h => hj (Nat.add_right_cancel h)

/-- What is appended to an empty arena stands in front of an empty one. -/
theorem Appends.prepends (h : Appends {} b ns) (o : Nat) : Prepends o ns {} b where
  positive := Nat.one_pos
  nextId := h.nextId
  first j hj := by
    rw [Nat.add_comm]
    exact h.get?_new j hj
  get?_shift i := by
    rw [h.get?_old _ (shift_outside i)]
    simp [Arena.get?]
  span?_shift i := by
    rw [h.span?_old _ (shift_outside i)]
    simp [Arena.span?]
where
  shift_outside (i : Nat) : NodeId.shift ns.length i < 1 ∨
      1 + ns.length ≤ NodeId.shift ns.length i := by
    cases i with
    | zero => exact .inl Nat.one_pos
    | succ i => exact .inr (by rw [shift_of_pos i.succ_pos]; omega)

namespace Prepends

/-- A node that is added to both arenas. -/
theorem add {s : Span} (h : Prepends o ns a b)
    (hroom : c.nextId + ns.length ≤ idLimit ∨ ns.length = 0)
    (hadd : a.add m (some s) = .ok (id, c)) :
    ∃ d, Prepends o ns c d ∧ b.add (m.map (NodeId.shift ns.length)) (some (s.shift o)) =
      .ok (NodeId.shift ns.length id, d) := by
  have hpos := h.positive
  have hnext := h.nextId
  have hid := add_id hadd
  have hc := add_nextId hadd
  have hfull := add_ne_idLimit hadd
  have hadd' := exists_add (a := b) (by omega) (by omega) (m.map (NodeId.shift ns.length))
    (some (s.shift o))
  have hshift : NodeId.shift ns.length id = b.nextId := by
    rw [shift_of_pos (by omega), hid, hnext]
  have hne {i : Nat} (hi : i ≠ id) : NodeId.shift ns.length i ≠ b.nextId := by
    rw [hnext, ← hid]
    exact shift_ne (by omega) hi
  refine ⟨_, ⟨by omega, ?_, ?_, ?_, ?_⟩, by rw [hshift, hadd']⟩
  · rw [add_nextId hadd', hc, hnext, hid]
    omega
  · intro j hj
    rw [add_get?_of_ne hadd' (by omega)]
    exact h.first j hj
  · intro i
    by_cases hi : i = id
    · rw [hi, hshift, add_get? hadd', add_get? hadd]
      rfl
    · rw [add_get?_of_ne hadd' (hne hi), add_get?_of_ne hadd hi]
      exact h.get?_shift i
  · intro i
    by_cases hi : i = id
    · rw [hi, hshift, add_span?_some hadd', add_span?_some hadd]
      rfl
    · rw [add_span?_of_ne hadd' (hne hi), add_span?_of_ne hadd hi]
      exact h.span?_shift i

/-- Where there is no room in the first arena, there is none in the second one. -/
theorem add_error {span' : Option Span} {e : ArenaError} (h : Prepends o ns a b)
    (hroom : a.nextId + ns.length ≤ idLimit ∨ ns.length = 0) (hadd : a.add m span = .error e) :
    b.add m' span' = .error e := by
  have hnext := h.nextId
  have hfull : a.nextId = idLimit := by
    refine Decidable.byContradiction fun hne => ?_
    rw [exists_add h.positive hne] at hadd
    exact absurd hadd nofun
  have hb : b.fresh? = none := if_pos (.inr (by omega))
  rw [Arena.add, hb, Arena.add_error hadd]

end Prepends

end Arena

end ScriptInject
