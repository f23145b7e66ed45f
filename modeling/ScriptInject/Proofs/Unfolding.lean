import Std.Data.TreeMap.Lemmas
import ScriptInject.Arena.Shape
import ScriptInject.Arena.Traversal
import ScriptInject.Proofs.Tree
/-! Arenas and the trees they hold. An arena that is built by adding nodes whose children are there
already keeps every tree it holds. -/
namespace ScriptInject.Arena

variable {a b c : Arena} {id : Nat} {n : Node NodeId} {span : Option Span}
  {s t : Tree NodeId}

/-- The tree stands in the arena below its label. -/
inductive Holds (a : Arena) : Tree NodeId → Prop
  | mk {id : NodeId} {n : Node (Tree NodeId)} : a.get? id = some (n.map Tree.label) →
      (∀ t ∈ n.children, Holds a t) → Holds a (.mk id n)

theorem Holds.get? (h : a.Holds t) : a.get? t.label = some (t.node.map Tree.label) := by
  cases h
  assumption

theorem Holds.child (h : a.Holds t) (hs : s ∈ t.node.children) : a.Holds s := by
  cases h with
  | mk _ hc => exact hc s hs

theorem Holds.exists_child {i : NodeId} (h : a.Holds t) (hn : a.get? t.label = some n)
    (hi : i ∈ n.children) : ∃ c ∈ t.node.children, c.label = i := by
  rw [h.get?, Option.some.injEq] at hn
  rw [← hn, Node.children_map] at hi
  exact List.mem_map.mp hi

theorem Holds.subtree (h : a.Holds t) (hs : s ∈ t.subtrees) : a.Holds s := by
  induction t using Tree.induct with
  | h label n ih =>
    rcases Tree.mem_subtrees_mk.mp hs with rfl | ⟨c, hc, hsc⟩
    · exact h
    · exact ih c hc (h.child hc) hsc

/-- A label stands for one tree only. -/
theorem Holds.unique (hs : a.Holds s) (ht : a.Holds t) (h : s.label = t.label) : s = t := by
  classical
  induction hs generalizing t with
  | @mk id n hn held ih =>
    obtain ⟨i, m⟩ := t
    obtain rfl : id = i := h
    have hlabels : n.map Tree.label = m.map Tree.label :=
      Option.some.inj (hn.symm.trans ht.get?)
    -- The trees below are found again by their labels.
    let find (i : NodeId) : Tree NodeId :=
      if h : ∃ c ∈ n.children, c.label = i then h.choose else .mk i (.error "")
    have hfind {c d : Tree NodeId} (hc : c ∈ n.children) (hd : a.Holds d)
        (hcd : c.label = d.label) : find d.label = d := by
      have h : ∃ c ∈ n.children, c.label = d.label := ⟨c, hc, hcd⟩
      rw [show find d.label = h.choose from dif_pos h]
      exact ih _ h.choose_spec.1 hd h.choose_spec.2
    have hn : (n.map Tree.label).map find = n := by
      rw [Node.map_map]
      refine (Node.map_congr fun c hc => ?_).trans (Node.map_id n)
      exact hfind hc (held c hc) rfl
    have hm : (m.map Tree.label).map find = m := by
      rw [Node.map_map]
      refine (Node.map_congr fun d hd => ?_).trans (Node.map_id m)
      have hlabel : d.label ∈ (m.map Tree.label).children := by
        rw [Node.children_map]
        exact List.mem_map_of_mem hd
      rw [← hlabels, Node.children_map] at hlabel
      obtain ⟨c, hc, hcd⟩ := List.mem_map.mp hlabel
      exact hfind hc (ht.child hd) hcd
    rw [← hn, ← hm, hlabels]

/-- The tree below the root of an arena, with a span for each of its nodes. -/
def Unfolds (a : Arena) (x : Tree (Option Span)) : Prop :=
  ∃ t, a.root? = some t.label ∧ a.Holds t ∧ t.map a.span? = x

theorem Unfolds.unique {x y : Tree (Option Span)} (hx : a.Unfolds x) (hy : a.Unfolds y) :
    x = y := by
  obtain ⟨s, hs, hsx, rfl⟩ := hx
  obtain ⟨t, ht, hty, rfl⟩ := hy
  rw [hsx.unique hty (Option.some.inj (hs.symm.trans ht))]

/-- The nodes of an arena are numbered without gaps, each after its children, and only nodes have
spans. -/
structure Tidy (a : Arena) : Prop where
  positive : 0 < a.nextId
  nextId_le : a.nextId ≤ idLimit
  size_succ : a.size + 1 = a.nextId
  bound : ∀ {id : Nat} {n}, a.get? id = some n → 0 < id ∧ id < a.nextId
  child_lt : ∀ {id : Nat} {n}, a.get? id = some n → ∀ c ∈ n.children, c < id
  child_get? : ∀ {id : Nat} {n}, a.get? id = some n → ∀ c ∈ n.children, (a.get? c).isSome
  spanned : ∀ {id}, a.get? id = none → a.span? id = none

theorem tidy_empty : Tidy {} := by
  constructor
  · exact Nat.one_pos
  · decide
  · rfl
  · intro id n h
    simp [Arena.get?] at h
  · intro id n h
    simp [Arena.get?] at h
  · intro id n h
    simp [Arena.get?] at h
  · intro id _
    simp [span?]

/-- Every node of the arena was read from a text. -/
def Spanned (a : Arena) : Prop := ∀ id n, a.get? id = some n → (a.span? id).isSome

/-- The second arena has all the nodes of the first one where they were. -/
structure Grows (a b : Arena) : Prop where
  nextId_le : a.nextId ≤ b.nextId
  get? : ∀ {id n}, a.get? id = some n → b.get? id = some n
  span? : ∀ {id n}, a.get? id = some n → b.span? id = a.span? id

theorem Grows.refl (a : Arena) : Grows a a := ⟨Nat.le_refl _, id, fun _ => rfl⟩

theorem Grows.trans (h : Grows a b) (k : Grows b c) : Grows a c where
  nextId_le := Nat.le_trans h.nextId_le k.nextId_le
  get? hn := k.get? (h.get? hn)
  span? hn := (k.span? (h.get? hn)).trans (h.span? hn)

theorem Holds.grows (h : a.Holds t) (g : Grows a b) : b.Holds t := by
  induction h with
  | mk hn _ ih => exact .mk (g.get? hn) ih

theorem Holds.label_lt (h : a.Holds t) (ha : Tidy a) : t.label < a.nextId := (ha.bound h.get?).2

theorem Holds.child_lt (h : a.Holds t) (ha : Tidy a) (hs : s ∈ t.node.children) :
    s.label < t.label := by
  apply ha.child_lt h.get?
  rw [Node.children_map]
  exact List.mem_map_of_mem hs

theorem Holds.label_lt_depthBound (h : a.Holds t) (ha : Tidy a) : t.label < a.depthBound := by
  rw [depthBound, ha.size_succ]
  exact h.label_lt ha

theorem spanned_empty : Spanned {} := by
  intro id n h
  simp [Arena.get?] at h

theorem Tidy.withRoot {root : NodeId} (h : Tidy a) : Tidy (a.withRoot root) :=
  ⟨h.positive, h.nextId_le, h.size_succ, h.bound, h.child_lt, h.child_get?, h.spanned⟩

theorem Holds.withRoot {root : NodeId} (h : a.Holds t) : (a.withRoot root).Holds t :=
  h.grows ⟨Nat.le_refl _, fun hn => hn, fun _ => rfl⟩

/-! Adding a node. -/

/-- The arena with one more node. -/
def extended (a : Arena) (n : Node NodeId) (span : Option Span) : Arena :=
  { a with
    nodes := a.nodes.insert a.nextId n
    nextId := a.nextId + 1
    spans := match span with
      | some s => a.spans.insert a.nextId s
      | none => a.spans }

theorem add_ne_idLimit (h : a.add n span = .ok (id, b)) : a.nextId ≠ idLimit := by
  intro hfull
  simp [add, fresh?, hfull] at h

theorem add_eq (h : a.add n span = .ok (id, b)) : id = a.nextId ∧ b = a.extended n span := by
  unfold add fresh? at h
  split at h
  · exact absurd h nofun
  · rename_i i hi
    obtain ⟨rfl, rfl⟩ := Prod.mk.inj (Except.ok.inj h)
    split at hi
    · exact absurd hi nofun
    · obtain rfl := Option.some.inj hi
      exact ⟨rfl, rfl⟩

theorem add_id (h : a.add n span = .ok (id, b)) : id = a.nextId := (add_eq h).1

theorem add_nextId (h : a.add n span = .ok (id, b)) : b.nextId = id + 1 := by
  obtain ⟨rfl, rfl⟩ := add_eq h
  rfl

theorem add_get? (h : a.add n span = .ok (id, b)) : b.get? id = some n := by
  obtain ⟨rfl, rfl⟩ := add_eq h
  simp [Arena.get?, extended]

theorem add_get?_of_ne {i : Nat} (h : a.add n span = .ok (id, b)) (hi : i ≠ id) :
    b.get? i = a.get? i := by
  obtain ⟨rfl, rfl⟩ := add_eq h
  simp [Arena.get?, extended, Std.TreeMap.getElem?_insert, hi.symm]

theorem add_span?_of_ne {i : Nat} (h : a.add n span = .ok (id, b)) (hi : i ≠ id) :
    b.span? i = a.span? i := by
  obtain ⟨rfl, rfl⟩ := add_eq h
  cases span <;> simp [Arena.span?, extended, Std.TreeMap.getElem?_insert, hi.symm]

theorem add_span?_some {s : Span} (h : a.add n (some s) = .ok (id, b)) : b.span? id = some s := by
  obtain ⟨rfl, rfl⟩ := add_eq h
  simp [Arena.span?, extended]

theorem get?_nextId (ha : Tidy a) : a.get? a.nextId = none := by
  cases h : a.get? a.nextId with
  | none => rfl
  | some n => exact absurd (ha.bound h).2 (Nat.lt_irrefl _)

theorem add_span? (h : a.add n span = .ok (id, b)) (ha : Tidy a) : b.span? id = span := by
  cases span with
  | none =>
    have hnone := ha.spanned (get?_nextId ha)
    obtain ⟨rfl, rfl⟩ := add_eq h
    exact hnone
  | some s => exact add_span?_some h

theorem add_grows (h : a.add n span = .ok (id, b)) (ha : Tidy a) : Grows a b := by
  have hne {i : NodeId} {m : Node NodeId} (hm : a.get? i = some m) : i ≠ id := by
    rintro rfl
    rw [add_id h, get?_nextId ha] at hm
    exact absurd hm nofun
  refine ⟨?_, ?_, ?_⟩
  · rw [add_nextId h, add_id h]
    omega
  · intro i m hm
    rw [add_get?_of_ne h (hne hm)]
    exact hm
  · intro i m hm
    exact add_span?_of_ne h (hne hm)

theorem add_size (h : a.add n span = .ok (id, b)) (ha : Tidy a) : b.size = a.size + 1 := by
  have hnone := get?_nextId ha
  obtain ⟨rfl, rfl⟩ := add_eq h
  have hmem : a.nextId ∉ a.nodes := by
    simpa [Arena.get?] using hnone
  simp [size, extended, Std.TreeMap.size_insert, hmem]

theorem add_tidy (h : a.add n span = .ok (id, b)) (ha : Tidy a)
    (hc : ∀ c ∈ n.children, (a.get? c).isSome) : Tidy b := by
  have hid := add_id h
  have hnext := add_nextId h
  constructor
  · omega
  · have := add_ne_idLimit h
    have := ha.nextId_le
    omega
  · rw [add_size h ha, ha.size_succ]
    omega
  · intro i m hm
    by_cases hi : i = id
    · have := ha.positive
      omega
    · rw [add_get?_of_ne h hi] at hm
      have := ha.bound hm
      omega
  · intro i m hm
    by_cases hi : i = id
    · subst hi
      rw [add_get? h, Option.some.injEq] at hm
      subst hm
      intro c hcn
      obtain ⟨m, hm⟩ := Option.isSome_iff_exists.mp (hc c hcn)
      exact Nat.lt_of_lt_of_eq (ha.bound hm).2 hid.symm
    · rw [add_get?_of_ne h hi] at hm
      exact ha.child_lt hm
  · have hgrows := add_grows h ha
    have hkept {c : Nat} (hget : (a.get? c).isSome) : (b.get? c).isSome := by
      obtain ⟨m, hm⟩ := Option.isSome_iff_exists.mp hget
      rw [hgrows.get? hm]
      rfl
    intro i m hm c hcm
    by_cases hi : i = id
    · subst hi
      rw [add_get? h, Option.some.injEq] at hm
      subst hm
      exact hkept (hc c hcm)
    · rw [add_get?_of_ne h hi] at hm
      exact hkept (ha.child_get? hm c hcm)
  · intro i hnone
    have hi : i ≠ id := by
      rintro rfl
      rw [add_get? h] at hnone
      exact absurd hnone nofun
    rw [add_get?_of_ne h hi] at hnone
    rw [add_span?_of_ne h hi]
    exact ha.spanned hnone

theorem add_spanned {s : Span} (h : a.add n (some s) = .ok (id, b)) (hs : Spanned a) :
    Spanned b := by
  intro i m hm
  by_cases hi : i = id
  · subst hi
    simp [add_span?_some h]
  · rw [add_get?_of_ne h hi] at hm
    rw [add_span?_of_ne h hi]
    exact hs i m hm

theorem add_holds {n : Node (Tree NodeId)} (h : a.add (n.map Tree.label) span = .ok (id, b))
    (ha : Tidy a) (hc : ∀ t ∈ n.children, a.Holds t) : b.Holds (.mk id n) :=
  .mk (add_get? h) fun t ht => (hc t ht).grows (add_grows h ha)

/-- Adding a node fails for one reason only. -/
theorem add_error {e : ArenaError} (h : a.add n span = .error e) : e = .full := by
  unfold add at h
  split at h
  · exact (Except.error.inj h).symm
  · exact absurd h nofun

end ScriptInject.Arena
