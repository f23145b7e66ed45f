import ScriptInject.Label
import ScriptInject.Proofs.Shape
/-! The spelling of markers. An attribute's type marks by the name that it comes down to, so that
two scripts that differ in the spelling of their markers become one when each marker is written by
its own name. -/
namespace ScriptInject

theorem Marker.ofTypeName?_name (m : Marker) : Marker.ofTypeName? m.name = some m := by
  cases m <;> decide +kernel

namespace TypeName

variable {s t : TypeName}

/-- A marker is written by its own name, another type as it is. -/
def respelled (t : TypeName) : TypeName :=
  ((Marker.ofTypeName? t.fullName).map fun m => .simple m.name).getD t

theorem respelled_of_some {m : Marker} (h : Marker.ofTypeName? t.fullName = some m) :
    t.respelled = .simple m.name := by
  rw [respelled, h, Option.map_some, Option.getD_some]

theorem respelled_of_none (h : Marker.ofTypeName? t.fullName = none) : t.respelled = t := by
  rw [respelled, h, Option.map_none, Option.getD_none]

theorem ofTypeName?_respelled (t : TypeName) :
    Marker.ofTypeName? t.respelled.fullName = Marker.ofTypeName? t.fullName := by
  cases h : Marker.ofTypeName? t.fullName with
  | none => rw [respelled_of_none h, h]
  | some m =>
    rw [respelled_of_some h, fullName]
    exact m.ofTypeName?_name

/-- Only the spellings of one marker become the same. -/
theorem respelled_eq_iff : s.respelled = t.respelled ↔ s = t ∨ ∃ m,
    Marker.ofTypeName? s.fullName = some m ∧ Marker.ofTypeName? t.fullName = some m := by
  constructor
  · intro h
    have hmarker := ofTypeName?_respelled s
    rw [h, ofTypeName?_respelled] at hmarker
    cases hs : Marker.ofTypeName? s.fullName with
    | some m => exact .inr ⟨m, rfl, hmarker.trans hs⟩
    | none =>
      rw [respelled_of_none hs, respelled_of_none (hmarker.trans hs)] at h
      exact .inl h
  · rintro (rfl | ⟨m, hs, ht⟩)
    · rfl
    · rw [respelled_of_some hs, respelled_of_some ht]

end TypeName

namespace Node

variable {α β : Type} {m n : Node α}

/-- The node with its marker, if it is one, written by its own name. -/
def respelled : Node α → Node α
  | .attributeSpec type positional named => .attributeSpec type.respelled positional named
  | n => n

theorem respelled_map (f : α → β) (n : Node α) : (n.map f).respelled = n.respelled.map f := by
  cases n <;> simp only [respelled, map]

@[simp] theorem children_respelled (n : Node α) : n.respelled.children = n.children := by
  cases n <;> simp only [respelled, children]

theorem respelled_eq_or (n : Node α) :
    n.respelled = n ∨ ∃ type positional named, n = .attributeSpec type positional named := by
  cases n with
  | attributeSpec type positional named => exact .inr ⟨type, positional, named, rfl⟩
  | _ => exact .inl rfl

/-- The nodes are the same, or one marker in two spellings. -/
inductive Respells : Node α → Node α → Prop
  | same (n : Node α) : Respells n n
  | marker {s t : TypeName} {marker : Marker} (positional named : List α)
    (hs : Marker.ofTypeName? s.fullName = some marker)
    (ht : Marker.ofTypeName? t.fullName = some marker) :
    Respells (.attributeSpec s positional named) (.attributeSpec t positional named)

theorem respells_attribute {s t : TypeName} {positional positional' named named' : List α}
    (h : (attributeSpec s positional named).respelled =
      (attributeSpec t positional' named').respelled) :
    Respells (.attributeSpec s positional named) (.attributeSpec t positional' named') := by
  obtain ⟨htype, rfl, rfl⟩ := Node.attributeSpec.inj h
  rcases TypeName.respelled_eq_iff.mp htype with rfl | ⟨marker, hs, ht⟩
  · exact .same _
  · exact .marker positional named hs ht

theorem respells_of_respelled (h : m.respelled = n.respelled) : Respells m n := by
  rcases m.respelled_eq_or with hm | ⟨s, positional, named, rfl⟩ <;>
    rcases n.respelled_eq_or with hn | ⟨t, positional', named', rfl⟩
  · obtain rfl : m = n := hm.symm.trans (h.trans hn)
    exact .same m
  · obtain rfl : m = .attributeSpec t.respelled positional' named' := hm.symm.trans h
    exact respells_attribute h
  · obtain rfl : n = .attributeSpec s.respelled positional named := hn.symm.trans h.symm
    exact respells_attribute h
  · exact respells_attribute h

end Node

namespace Tree

variable {ι κ : Type} {s t : Tree ι}

/-- The tree with its markers written by their own names. -/
def respelled : Tree ι → Tree ι := para fun label n => .mk label (n.map (·.2)).respelled

theorem respelled_mk (label : ι) (n : Node (Tree ι)) :
    (mk label n).respelled = .mk label (n.respelled.map respelled) := by
  rw [respelled, para_mk, Node.map_map, ← Node.respelled_map]
  rfl

@[simp] theorem label_respelled (t : Tree ι) : t.respelled.label = t.label := by
  cases t
  rw [respelled_mk, label_mk, label_mk]

theorem node_respelled (t : Tree ι) : t.respelled.node = t.node.respelled.map respelled := by
  cases t
  rw [respelled_mk, node_mk, node_mk]

theorem subtrees_respelled (t : Tree ι) : t.respelled.subtrees = t.subtrees.map respelled := by
  induction t using induct with
  | h label n ih =>
    rw [subtrees_mk, List.map_cons, respelled_mk, subtrees_mk, Node.children_map,
      Node.children_respelled, List.flatMap_map, List.map_flatMap, List.flatMap_def,
      List.flatMap_def, List.map_congr_left ih]

theorem labels_respelled (t : Tree ι) : t.respelled.labels = t.labels := by
  rw [labels, subtrees_respelled, List.map_map, labels]
  exact List.map_congr_left fun s _ => s.label_respelled

end Tree

namespace Arena

variable {a b : Arena} {s t : Tree NodeId}

/-- The arena with its markers written by their own names. -/
def respelled (a : Arena) : Arena := { a with nodes := a.nodes.map fun _ n => n.respelled }

theorem get?_respelled (a : Arena) (i : NodeId) :
    a.respelled.get? i = (a.get? i).map Node.respelled := by
  simp [Arena.get?, respelled]

theorem Holds.respelled (h : a.Holds t) : a.respelled.Holds t.respelled := by
  induction h with
  | @mk id n hn _ ih =>
    rw [Tree.respelled_mk]
    refine .mk ?_ fun c hc => ?_
    · rw [get?_respelled, hn, Option.map_some, Node.map_map, Node.respelled_map]
      congr 1
      exact Node.map_congr fun c _ => c.label_respelled.symm
    · rw [Node.children_map, Node.children_respelled] at hc
      obtain ⟨d, hd, rfl⟩ := List.mem_map.mp hc
      exact ih d hd

end Arena

end ScriptInject
