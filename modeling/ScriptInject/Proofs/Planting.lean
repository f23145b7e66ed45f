import ScriptInject.Proofs.Copying
import ScriptInject.Proofs.Grounding
/-! Copying a script with some of its nodes replaced by leaves. The copy has one node for each place
of its tree, numbered in post-order. -/
namespace ScriptInject

namespace Tree

variable {ι : Type}

/-- The labels of a tree, each after those below it. -/
def postorder : Tree ι → List ι :=
  para fun label n => n.children.flatMap (·.2) ++ [label]

theorem postorder_mk (label : ι) (n : Node (Tree ι)) :
    (mk label n).postorder = n.children.flatMap postorder ++ [label] := by
  rw [postorder, para_mk, Node.children_map, List.flatMap_map]

/-- A tree with some of the trees inside of it replaced, the outermost ones first, and with a span
for each node that is kept. -/
def overlay (span? : NodeId → Option Span)
    (put : NodeId → Node NodeId → Option (Tree (Option Span))) : Tree NodeId → Tree (Option Span) :=
  para fun id n => (put id (n.map fun c => c.1.label)).getD (.mk (span? id) (n.map (·.2)))

variable {span? : NodeId → Option Span} {put : NodeId → Node NodeId → Option (Tree (Option Span))}

theorem overlay_mk (id : NodeId) (n : Node (Tree NodeId)) : (mk id n).overlay span? put =
    (put id (n.map label)).getD (.mk (span? id) (n.map (overlay span? put))) := by
  rw [overlay, para_mk, Node.map_map, Node.map_map]
  rfl

theorem overlay_none (t : Tree NodeId) : t.overlay span? (fun _ _ => none) = t.map span? := by
  induction t using induct with
  | h id n ih =>
    rw [overlay_mk, map_mk, Option.getD_none, Node.map_congr ih]

/-- With leaves in the places of nodes, there are not more nodes than before. -/
theorem size_overlay_le (hput : ∀ id n x, put id n = some x → x.size = 1) (t : Tree NodeId) :
    (t.overlay span? put).size ≤ t.size := by
  induction t using induct with
  | h id n ih =>
    rw [overlay_mk, size_mk]
    cases hp : put id (n.map label) with
    | some x =>
      rw [Option.getD_some, hput id _ x hp]
      omega
    | none =>
      rw [Option.getD_none, size_mk, Node.children_map, List.map_map]
      have hle {cs : List (Tree NodeId)} (hcs : ∀ c ∈ cs, (c.overlay span? put).size ≤ c.size) :
          (cs.map (size ∘ overlay span? put)).sum ≤ (cs.map size).sum := by
        induction cs with
        | nil => exact Nat.le_refl _
        | cons c cs ihcs =>
          have hc := hcs c (by simp)
          have hrest := ihcs fun d hd => hcs d (by simp [hd])
          rw [List.map_cons, List.map_cons, List.sum_cons, List.sum_cons]
          exact Nat.add_le_add hc hrest
      exact Nat.succ_le_succ (hle ih)

end Tree

namespace Copying

/-- Adds all nodes of a tree, each after its children. -/
def plant : Tree (Option Span) → Copying NodeId :=
  Tree.para fun span n => do add (← n.mapM (·.2)) span

theorem plant_mk (span : Option Span) (n : Node (Tree (Option Span))) :
    plant (.mk span n) = n.mapM plant >>= fun k => add k span := by
  rw [plant, Tree.para_mk, Node.mapM_map]

end Copying

namespace Arena

variable {a b c : Arena} {t : Tree NodeId} {us vs : List (Tree NodeId)}
  {xs ys : List (Tree (Option Span))} {id : NodeId} {span : Option Span}

theorem Holds.map_span? (h : a.Holds t) (hg : a.Grows b) : t.map b.span? = t.map a.span? := by
  apply Tree.map_congr
  intro l hl
  obtain ⟨s, hs, rfl⟩ := List.mem_map.mp hl
  exact hg.span? (h.subtree hs).get?

/-- From one arena to the other, certain trees have been added, the nodes of each one in
post-order. -/
structure Planted (a b : Arena) (us : List (Tree NodeId)) (xs : List (Tree (Option Span))) :
    Prop where
  grows : a.Grows b
  tidy : b.Tidy
  held : ∀ u ∈ us, b.Holds u
  spans : us.map (Tree.map b.span?) = xs
  order : us.flatMap Tree.postorder = List.range' a.nextId (xs.map Tree.size).sum
  nextId : b.nextId = a.nextId + (xs.map Tree.size).sum

namespace Planted

theorem refl (h : a.Tidy) : a.Planted a [] [] := ⟨.refl a, h, nofun, rfl, rfl, rfl⟩

theorem trans (h : a.Planted b us xs) (k : b.Planted c vs ys) :
    a.Planted c (us ++ vs) (xs ++ ys) where
  grows := h.grows.trans k.grows
  tidy := k.tidy
  held u hu := by
    rcases List.mem_append.mp hu with hu | hu
    · exact (h.held u hu).grows k.grows
    · exact k.held u hu
  spans := by
    have hkept : us.map (Tree.map c.span?) = us.map (Tree.map b.span?) := by
      apply List.map_congr_left
      intro u hu
      exact (h.held u hu).map_span? k.grows
    rw [List.map_append, hkept, h.spans, k.spans]
  order := by
    rw [List.flatMap_append, h.order, k.order, h.nextId, List.map_append, List.sum_append_nat,
      List.range'_append_1]
  nextId := by
    rw [k.nextId, h.nextId, List.map_append, List.sum_append_nat, Nat.add_assoc]

/-- A node goes on top of the trees that are its children. -/
theorem add {n : Node (Tree (Option Span))} (h : a.Planted b us n.children)
    (hadd : b.add (n.fill (us.map Tree.label)) span = .ok (id, c)) :
    a.Planted c [.mk id (n.fill us)] [.mk span n] := by
  have hlength : us.length = n.children.length := by
    rw [← h.spans, List.length_map]
  have hgrows := add_grows hadd h.tidy
  have hchildren : (n.fill us).children = us := Node.children_fill hlength
  rw [← Node.map_fill hlength] at hadd
  have hheld : c.Holds (.mk id (n.fill us)) := by
    apply add_holds hadd h.tidy
    intro u hu
    rw [hchildren] at hu
    exact h.held u hu
  constructor
  · exact h.grows.trans hgrows
  · apply add_tidy hadd h.tidy
    intro l hl
    rw [Node.children_map, hchildren] at hl
    obtain ⟨u, hu, rfl⟩ := List.mem_map.mp hl
    rw [(h.held u hu).get?]
    rfl
  · intro u hu
    obtain rfl := List.mem_singleton.mp hu
    exact hheld
  · have hkept : us.map (Tree.map c.span?) = n.children := by
      rw [← h.spans]
      apply List.map_congr_left
      intro u hu
      exact (h.held u hu).map_span? hgrows
    rw [List.map_singleton, Tree.map_mk, add_span? hadd h.tidy, Node.map_fill hlength, hkept,
      Node.fill_eq rfl rfl]
  · rw [List.flatMap_singleton, Tree.postorder_mk, hchildren, h.order, List.map_singleton,
      List.sum_singleton, Tree.size_mk, List.range'_1_concat, add_id hadd, h.nextId]
  · rw [add_nextId hadd, add_id hadd, h.nextId, List.map_singleton, List.sum_singleton,
      Tree.size_mk, Nat.add_assoc]

end Planted

end Arena

namespace Copying

variable {c : Arena}

theorem plant_all {xs : List (Tree (Option Span))}
    (h : ∀ x ∈ xs, ∀ c : Arena, c.Tidy → c.nextId + x.size ≤ Arena.idLimit →
      ∃ u b, plant x c = .ok (Tree.label u, b) ∧ c.Planted b [u] [x])
    (hc : c.Tidy) (hlimit : c.nextId + (xs.map Tree.size).sum ≤ Arena.idLimit) :
    ∃ us b, xs.mapM plant c = .ok (us.map Tree.label, b) ∧ c.Planted b us xs := by
  induction xs generalizing c with
  | nil => exact ⟨[], c, rfl, .refl hc⟩
  | cons x xs ih =>
    rw [List.map_cons, List.sum_cons] at hlimit
    obtain ⟨u, b, hrun, hb⟩ := h x (by simp) c hc (by omega)
    have hnext := hb.nextId
    rw [List.map_singleton, List.sum_singleton] at hnext
    obtain ⟨us, d, hrest, hd⟩ := ih (fun y hy => h y (by simp [hy])) hb.tidy (by omega)
    refine ⟨u :: us, d, ?_, hb.trans hd⟩
    rw [List.mapM_cons]
    change (plant x c).bind (fun q => (xs.mapM plant q.2).bind fun r => .ok (q.1 :: r.1, r.2)) = _
    rw [hrun]
    change (xs.mapM plant b).bind _ = _
    rw [hrest]
    rfl

/-- Where there are ids for all nodes of a tree, it is planted. -/
theorem plant_run (x : Tree (Option Span)) (hc : c.Tidy)
    (hlimit : c.nextId + x.size ≤ Arena.idLimit) :
    ∃ u b, plant x c = .ok (Tree.label u, b) ∧ c.Planted b [u] [x] := by
  induction x using Tree.induct generalizing c with
  | h span n ih =>
    rw [Tree.size_mk] at hlimit
    obtain ⟨us, b, hrun, hb⟩ := plant_all (fun x hx c hc hlimit => ih x hx hc hlimit) hc
      (by omega)
    have hnext := hb.nextId
    have hadd : ∃ id d, b.add (n.fill (us.map Tree.label)) span = .ok (id, d) := by
      have hpos := hb.tidy.positive
      rw [Arena.add, Arena.fresh?, if_neg (by omega)]
      exact ⟨_, _, rfl⟩
    obtain ⟨id, d, hadd⟩ := hadd
    refine ⟨.mk id (n.fill us), d, ?_, hb.add hadd⟩
    rw [plant_mk, Node.mapM_eq]
    change ((n.children.mapM plant c).bind fun q => .ok (n.fill q.1, q.2)).bind
      (fun q => add q.1 span q.2) = _
    rw [hrun]
    change add (n.fill (us.map Tree.label)) span b = _
    rw [add_run, hadd]
    rfl

theorem plant_leaf (leaf : Node Empty) (span : Option Span) :
    plant (.mk span (leaf.map Empty.elim)) = add (leaf.map Empty.elim) span := by
  have hnone : leaf.children = [] := List.eq_nil_iff_forall_not_mem.mpr fun c => c.elim
  have hfill := leaf.fill_map (Empty.elim : Empty → NodeId)
  rw [hnone, List.map_nil] at hfill
  rw [plant_mk, Node.mapM_map, Node.mapM_eq, hnone, List.mapM_nil, map_pure, pure_bind, hfill]

end Copying

namespace Replacement

variable {rule : Replacement} {a : Arena} {t : Tree NodeId} {k : Nat}
  {put : NodeId → Node NodeId → Option (Tree (Option Span))}

/-- The rule replaces nothing: where it applies, it declines. -/
def Declines (rule : Replacement) (a : Arena) : Prop :=
  ∀ k id n, rule.applies a id n = true → rule.replace a k id n = pure none

/-- At each node, the rule plants what is to stand there, or the node is copied. -/
def Puts (rule : Replacement) (a : Arena)
    (put : NodeId → Node NodeId → Option (Tree (Option Span))) : Prop :=
  ∀ copy id n, rule.copyNode a copy id n =
    match put id n with
    | some x => Copying.plant x
    | none => rebuildWith a copy id

theorem Declines.puts (h : rule.Declines a) : rule.Puts a fun _ _ => none := by
  intro copy id n
  rw [copyNode]
  split
  · rename_i happlies
    rw [h _ id n happlies, pure_bind]
  · rfl

/-- What is copied is planted. -/
theorem Puts.copyUpTo_eq (h : rule.Puts a put) (ht : a.Holds t) (hk : t.Within k) :
    rule.copyUpTo a k t.label = Copying.plant (t.overlay a.span? put) := by
  induction k generalizing t with
  | zero => exact absurd hk id
  | succ k ih =>
    obtain ⟨id, n⟩ := t
    have hnode := ht.node
    rw [Tree.label_mk, Tree.node_mk] at hnode
    rw [copyUpTo_succ, Tree.label_mk, hnode, Tree.overlay_mk]
    change rule.copyNode a (rule.copyUpTo a k) id (n.map Tree.label) = _
    rw [h]
    cases put id (n.map Tree.label) with
    | some x => rfl
    | none =>
      have hbelow : (n.map Tree.label).mapM (rule.copyUpTo a k) =
          n.mapM fun c => Copying.plant (c.overlay a.span? put) := by
        rw [Node.mapM_map]
        exact Node.mapM_congr fun c hc => ih (ht.child hc) (hk c hc)
      rw [Option.getD_none, Copying.plant_mk, Node.mapM_map, ← hbelow, rebuildWith, hnode]
      rfl

theorem Puts.apply_run (h : rule.Puts a put) (ht : a.Holds t) (hroot : a.root? = some t.label)
    (hlimit : (t.overlay a.span? put).size < Arena.idLimit) :
    ∃ b u, rule.apply a = .ok (b.withRoot (Tree.label u)) ∧
      Arena.Planted {} b [u] [t.overlay a.span? put] := by
  have hfits : ({} : Arena).nextId + (t.overlay a.span? put).size ≤ Arena.idLimit := by
    change 1 + _ ≤ _
    omega
  obtain ⟨u, b, hrun, hb⟩ := Copying.plant_run _ Arena.tidy_empty hfits
  refine ⟨b, u, ?_, hb⟩
  rw [apply_eq hroot, h.copyUpTo_eq ht ht.within_depthBound, hrun]
  rfl

end Replacement

/-- A leaf that takes the place of certain nodes. -/
structure Graft where
  picks : Arena → NodeId → Node NodeId → Bool
  leaf : Node Empty
  span? : Arena → NodeId → Option Span

namespace Graft

variable (g : Graft)

def rule : Replacement where
  applies := g.picks
  replace a _ id _ := do return some (← Copying.add (g.leaf.map Empty.elim) (g.span? a id))

def put? (a : Arena) (id : NodeId) (n : Node NodeId) : Option (Tree (Option Span)) :=
  if g.picks a id n then some (.mk (g.span? a id) (g.leaf.map Empty.elim)) else none

theorem rule_puts (a : Arena) : g.rule.Puts a (g.put? a) := by
  intro copy id n
  rw [Replacement.copyNode, put?]
  cases hpick : g.picks a id n with
  | false => simp [rule, hpick]
  | true => simp [rule, hpick, Copying.plant_leaf]

end Graft

namespace Arena

variable {a b : Arena} {u : Tree NodeId} {x : Tree (Option Span)}

/-- What has been planted into an empty arena. -/
theorem Planted.script (h : Planted {} b [u] [x]) :
    (b.withRoot u.label).validate = .ok () ∧ (b.withRoot u.label).root? = some u.label ∧
    (b.withRoot u.label).Holds u ∧ u.map (b.withRoot u.label).span? = x ∧
    (b.withRoot u.label).size = x.size ∧ u.postorder = List.range' 1 x.size := by
  have hheld := h.held u (by simp)
  have hspans := h.spans
  have horder := h.order
  have hnext := h.nextId
  have hsize := h.tidy.size_succ
  simp only [List.map_cons, List.map_nil, List.cons.injEq, and_true, List.flatMap_cons,
    List.flatMap_nil, List.append_nil, List.sum_cons, List.sum_nil, Nat.add_zero] at hspans horder hnext
  refine ⟨?_, rfl, hheld.withRoot, hspans, ?_, horder⟩
  · apply validate_of_tidy h.tidy.withRoot
    intro root hroot
    obtain rfl := Option.some.inj hroot
    rw [hheld.withRoot.get?]
    rfl
  · change b.size = _
    change b.nextId = 1 + _ at hnext
    omega

end Arena

open Arena in
/-- Rewriting puts a leaf in the place of the topmost nodes of a kind, and copies the rest as it is.
A rewriting that replaces nothing makes one node for each place of the script, in post-order. -/
theorem Replacement.apply_substitutes (p : Top) (hroot : p.arena.root? = some p.id)
    (hlimit : p.tree.size < idLimit) :
    (∀ g : Graft, ∃ out, g.rule.apply p.arena = .ok out ∧ out.validate = .ok () ∧
      out.Unfolds (p.tree.overlay p.arena.span? (g.put? p.arena))) ∧
    ∀ rule : Replacement, rule.Declines p.arena → ∃ out, rule.apply p.arena = .ok out ∧
      out.validate = .ok () ∧ out.sameShapeAs p.arena = true ∧
      ∃ u, out.root? = some u.label ∧ out.Holds u ∧
        u.map out.span? = p.tree.map p.arena.span? ∧
        out.size = p.tree.size ∧ u.postorder = List.range' 1 p.tree.size := by
  obtain ⟨hheld, hlabel⟩ := p.holds_tree
  rw [← hlabel] at hroot
  constructor
  · intro g
    have hleaf (id : NodeId) (n : Node NodeId) (x : Tree (Option Span))
        (hx : g.put? p.arena id n = some x) : x.size = 1 := by
      obtain ⟨-, hx⟩ := Option.ite_none_right_eq_some.mp hx
      obtain rfl := Option.some.inj hx
      have hnone : g.leaf.children = [] := List.eq_nil_iff_forall_not_mem.mpr fun c => c.elim
      rw [Tree.size_mk, Node.children_map, hnone]
      rfl
    have hsize := @Tree.size_overlay_le p.arena.span? _ hleaf p.tree
    obtain ⟨b, u, hrun, hb⟩ := (g.rule_puts p.arena).apply_run hheld hroot (by omega)
    obtain ⟨hvalid, htop, hu, hspans, -⟩ := hb.script
    exact ⟨_, hrun, hvalid, u, htop, hu, hspans⟩
  · intro rule hrule
    have hsame := @Tree.overlay_none p.arena.span? p.tree
    have hsize : (p.tree.map p.arena.span?).size = p.tree.size := by
      rw [Tree.size, Tree.labels_map, List.length_map, Tree.size]
    obtain ⟨b, u, hrun, hb⟩ := hrule.puts.apply_run hheld hroot (by rw [hsame, hsize]; exact hlimit)
    rw [hsame] at hb
    obtain ⟨hvalid, htop, hu, hspans, hnodes, horder⟩ := hb.script
    rw [hsize] at hnodes horder
    refine ⟨_, hrun, hvalid, ?_, u, htop, hu, hspans, hnodes, horder⟩
    have hshape : u.shape = p.tree.shape := by
      have hmap := congrArg (Tree.map fun _ => ()) hspans
      rwa [Tree.map_comp, Tree.map_comp] at hmap
    rw [sameShapeAs, htop, hroot]
    exact (hu.sameShape_iff hheld).mpr hshape

open Arena in
/-- The two operands of a sum are one node, and each of them is replaced. -/
theorem Replacement.apply_substitutes_shared : ∃ (p : Top) (g : Graft) (out : Arena),
    p.arena.get? p.id = some (.binary .add 1 1) ∧ g.rule.apply p.arena = .ok out ∧
    out.Unfolds (.mk (some ⟨0, 3⟩)
      (.binary .add (.mk none (.number "0")) (.mk none (.number "0")))) := by
  let a : Arena :=
    { nodes := Std.TreeMap.ofList [(1, .number "1"), (2, .binary .add 1 1)] compare
      root? := some 2
      spans := Std.TreeMap.ofList [(1, ⟨2, 3⟩), (2, ⟨0, 3⟩)] compare }
  let g : Graft :=
    { picks := fun _ _ n => n.children.isEmpty, leaf := .number "0", span? := fun _ _ => none }
  have hsum : a.get? 2 = some (.binary .add 1 1) := by decide +kernel
  let p : Top := ⟨a, 2, grounded_iff.mpr (by decide +kernel)⟩
  obtain ⟨out, hrun, -, hout⟩ := (apply_substitutes p rfl (by decide +kernel)).1 g
  exact ⟨p, g, out, hsum, hrun, hout⟩

end ScriptInject
