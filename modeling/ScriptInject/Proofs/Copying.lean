import ScriptInject.Proofs.Filling
import ScriptInject.Proofs.Gains
import ScriptInject.Replacement
/-! What a copying leaves in the arena of the copy. Copying fails for want of ids only. -/
namespace ScriptInject

/-- A tree with the id and the span of each node. -/
abbrev Located := Tree (NodeId × Option Span)

namespace Located

variable {a b : Arena} {z : Located}

def id (z : Located) : NodeId := z.label.1

def ids (z : Located) : Tree NodeId := z.map Prod.fst

def spans (z : Located) : Tree (Option Span) := z.map Prod.snd

theorem label_ids (z : Located) : z.ids.label = z.id := Tree.label_map ..

theorem ids_mk {l : NodeId × Option Span} {n : Node Located} :
    ids (.mk l n) = .mk l.1 (n.map ids) := Tree.map_mk ..

theorem spans_mk {l : NodeId × Option Span} {n : Node Located} :
    spans (.mk l n) = .mk l.2 (n.map spans) := Tree.map_mk ..

/-- The arena has the spans that the tree tells. -/
def Agrees (z : Located) (a : Arena) : Prop := ∀ l ∈ z.labels, a.span? l.1 = l.2

theorem Agrees.grows (h : z.Agrees a) (hz : a.Holds z.ids) (hg : a.Grows b) : z.Agrees b := by
  intro l hl
  have hmem : l.1 ∈ z.ids.labels := by
    rw [ids, Tree.labels_map]
    exact List.mem_map_of_mem hl
  obtain ⟨s, hs, hid⟩ := List.mem_map.mp hmem
  have hget := (hz.subtree hs).get?
  rw [hid] at hget
  rw [hg.span? hget]
  exact h l hl

theorem Agrees.map_ids (h : z.Agrees a) : z.ids.map a.span? = z.spans := by
  rw [ids, Tree.map_comp]
  exact Tree.map_congr h

end Located

namespace Replacement

variable (rule : Replacement) {a : Arena} {root : NodeId}

/-- What copying does at one node. -/
def copyNode (a : Arena) (copy : NodeId → Copying NodeId) (id : NodeId) (n : Node NodeId) :
    Copying NodeId := do
  if rule.applies a id n then
    match ← rule.replace a ⟨copy, rebuildWith a copy⟩ id n with
    | some replaced => return replaced
    | none => rebuildWith a copy id
  else rebuildWith a copy id

theorem copyUpTo_succ (a : Arena) (depth : Nat) (id : NodeId) :
    rule.copyUpTo a (depth + 1) id =
      (do rule.copyNode a (rule.copyUpTo a depth) id (← a.node id)) := rfl

theorem apply_eq {rule : Replacement} (hroot : a.root? = some root) :
    rule.apply a = (rule.copyUpTo a a.depthBound root {}).bind fun q =>
      .ok (q.2.withRoot q.1) := by
  rw [apply, Arena.root, hroot]
  rfl

end Replacement

namespace Copying

variable {α β : Type} {m : Copying α} {f : α → Copying β} {us vs zs : List Located}
  {P P' : α → List Located → Prop} {Q : β → List Located → Prop}

/-- From some trees on, a run yields a value and trees for it, or there are no more ids. -/
def Gives (us : List Located) (m : Copying α) (P : α → List Located → Prop) : Prop :=
  ∀ ⦃r c : Arena⦄ ⦃ts : List (Tree NodeId)⦄, r.Gains c (ts ++ us.map Located.ids) →
    (∀ z ∈ us, z.Agrees c) → match m c with
    | .ok (v, b) => c.Grows b ∧ ∃ zs : List Located, r.Gains b (ts ++ zs.map Located.ids) ∧
        (∀ z ∈ zs, z.Agrees b) ∧ P v zs
    | .error e => e = .arena .full

theorem add_run (node : Node NodeId) (span : Option Span) (c : Arena) :
    add node span c = (c.add node span).mapError ScriptError.arena := by
  change ((c.add node span : Except ArenaError _) >>= fun x => set x.2 >>= fun _ => pure x.1 :
    Copying NodeId) c = _
  cases h : c.add node span <;> rfl

namespace Gives

theorem pure {a : α} (h : P a us) : Gives us (pure a) P := by
  intro r c ts hr hus
  exact ⟨.refl c, us, hr, hus, h⟩

theorem bind (h : Gives us m P) (hf : ∀ a zs, P a zs → Gives zs (f a) Q) :
    Gives us (m >>= f) Q := by
  intro r c ts hr hus
  have hrun := h hr hus
  change match (m c >>= fun q => f q.1 q.2) with
    | .ok (v, b) => _
    | .error e => _
  cases hm : m c with
  | error e =>
    rw [hm] at hrun
    exact hrun
  | ok q =>
    obtain ⟨a, b⟩ := q
    rw [hm] at hrun
    obtain ⟨hgrows, zs, hb, hz, ha⟩ := hrun
    have hrest := hf a zs ha hb hz
    change match f a b with
      | .ok (v, d) => _
      | .error e => _
    cases hfa : f a b with
    | error e =>
      rw [hfa] at hrest
      exact hrest
    | ok q =>
      obtain ⟨v, d⟩ := q
      rw [hfa] at hrest
      exact ⟨hgrows.trans hrest.1, hrest.2⟩

theorem imp (h : Gives us m P) (hp : ∀ a zs, P a zs → P' a zs) : Gives us m P' := by
  intro r c ts hr hus
  have hrun := h hr hus
  cases hm : m c with
  | error e =>
    rw [hm] at hrun
    exact hrun
  | ok q =>
    rw [hm] at hrun
    obtain ⟨hgrows, zs, hb, hz, ha⟩ := hrun
    exact ⟨hgrows, zs, hb, hz, hp _ zs ha⟩

/-- What is there already stays. -/
theorem frame (h : Gives us m P) (vs : List Located) :
    Gives (vs ++ us) m fun a zs => ∃ ws, zs = vs ++ ws ∧ P a ws := by
  intro r c ts hr hus
  have hr' : r.Gains c ((ts ++ vs.map Located.ids) ++ us.map Located.ids) := by
    simpa using hr
  have hrun := h hr' fun z hz => hus z (List.mem_append_right _ hz)
  cases hm : m c with
  | error e =>
    rw [hm] at hrun
    exact hrun
  | ok q =>
    rw [hm] at hrun
    obtain ⟨hgrows, zs, hb, hz, ha⟩ := hrun
    refine ⟨hgrows, vs ++ zs, by simpa using hb, ?_, zs, rfl, ha⟩
    intro z hzs
    rcases List.mem_append.mp hzs with hzs | hzs
    · have hheld : c.Holds z.ids := hr.held z.ids (by simp [List.mem_map_of_mem hzs])
      exact (hus z (List.mem_append_left _ hzs)).grows hheld hgrows
    · exact hz z hzs

/-- Trees that nothing refers to do not matter. -/
theorem forget (h : Gives us m fun a zs => ∃ vs ws, zs = vs ++ ws ∧ P a ws) : Gives us m P := by
  intro r c ts hr hus
  have hrun := h hr hus
  cases hm : m c with
  | error e =>
    rw [hm] at hrun
    exact hrun
  | ok q =>
    rw [hm] at hrun
    obtain ⟨hgrows, _, hb, hz, vs, ws, rfl, ha⟩ := hrun
    refine ⟨hgrows, ws, ?_, fun z hzw => hz z (List.mem_append_right _ hzw), ha⟩
    have hperm : (ts ++ ws.map Located.ids ++ vs.map Located.ids).Perm
        (ts ++ (vs ++ ws).map Located.ids) := by
      rw [List.map_append, List.append_assoc]
      exact (List.Perm.refl ts).append List.perm_append_comm
    exact (hb.perm hperm).drop

theorem reorder (h : Gives us m P) (hp : us.Perm vs) : Gives vs m P := by
  intro r c ts hr hvs
  have hperm : (ts ++ us.map Located.ids).Perm (ts ++ vs.map Located.ids) :=
    (List.Perm.refl ts).append (hp.map _)
  exact h (hr.perm hperm) fun z hz => hvs z (hp.subset hz)

/-- A run that uses the last of the trees that are there. -/
theorem onto (h : Gives us m P) (hf : ∀ a zs, P a zs → Gives (vs ++ zs) (f a) Q) :
    Gives (vs ++ us) (m >>= f) Q := by
  refine (h.frame vs).bind ?_
  rintro a _ ⟨zs, rfl, ha⟩
  exact hf a zs ha

/-- Another part of a whole, next to those that are there. -/
theorem step (h : Gives [] m P) (hf : ∀ a zs, P a zs → Gives (vs ++ zs) (f a) Q) :
    Gives vs (m >>= f) Q := by
  have honto := h.onto hf
  rwa [List.append_nil] at honto

/-- What is there already does not matter to another whole. -/
theorem after (h : Gives [] m P) : Gives vs m P := by
  have hframe := h.frame vs
  rw [List.append_nil] at hframe
  exact (hframe.imp fun a zs ⟨ws, hzs, ha⟩ => ⟨vs, ws, hzs, ha⟩).forget

theorem add {n : Node Located} {node : Node NodeId} {span : Option Span} (hc : n.children = us)
    (hn : node = n.map Located.id) :
    Gives us (add node span) fun id zs => zs = [.mk (id, span) n] := by
  intro r c ts hr hus
  have hnode : node = (n.map Located.ids).map Tree.label := by
    rw [hn, Node.map_map]
    exact Node.map_congr fun z _ => (Located.label_ids z).symm
  rw [hnode, add_run]
  cases hadd : c.add ((n.map Located.ids).map Tree.label) span with
  | error e =>
    obtain rfl := Arena.add_error hadd
    rfl
  | ok q =>
    obtain ⟨id, b⟩ := q
    have hchildren : (n.map Located.ids).children.Perm (us.map Located.ids) := by
      rw [Node.children_map, hc]
    have htidy : c.Tidy := hr.tidy
    have hgrows := Arena.add_grows hadd htidy
    refine ⟨hgrows, [.mk (id, span) n], ?_, ?_, rfl⟩
    · rw [List.map_singleton, Located.ids_mk]
      exact hr.add hchildren hadd
    · intro z hz l hl
      obtain rfl := List.mem_singleton.mp hz
      rw [Tree.labels_mk, List.mem_cons, List.mem_flatMap, hc] at hl
      rcases hl with rfl | ⟨y, hy, hl⟩
      · exact Arena.add_span? hadd htidy
      · have hheld : c.Holds (Located.ids y) :=
          hr.held _ (List.mem_append_right _ (List.mem_map_of_mem hy))
        exact (hus y hy).grows hheld hgrows l hl

end Gives

/-- A run that yields one tree with certain spans. -/
def Copies (m : Copying NodeId) (x : Tree (Option Span)) : Prop :=
  Gives [] m fun id zs => ∃ z : Located, zs = [z] ∧ z.id = id ∧ z.spans = x

/-- A new node on top of the trees that are there. -/
theorem Gives.made {n : Node Located} {node : Node NodeId} {span : Option Span}
    {spans : Node (Tree (Option Span))} (hc : n.children = us) (hn : node = n.map Located.id)
    (hspans : n.map Located.spans = spans) :
    Gives us (Copying.add node span) fun id zs =>
      ∃ z : Located, zs = [z] ∧ z.id = id ∧ z.spans = .mk span spans := by
  refine (Gives.add hc hn).imp ?_
  rintro id _ rfl
  refine ⟨_, rfl, rfl, ?_⟩
  rw [Located.spans_mk, hspans]

variable {copy : NodeId → Copying NodeId} {g : Tree NodeId → Tree (Option Span)}
  {xs : List (Tree NodeId)} {ps : List (Tree NodeId × Tree NodeId)}

theorem copies_each {f : α → Copying NodeId} {g : α → Tree (Option Span)} {as : List α}
    (h : ∀ a ∈ as, Copies (f a) (g a)) : Gives [] (as.mapM f) fun ids zs =>
      ids = zs.map Located.id ∧ zs.map Located.spans = as.map g := by
  induction as with
  | nil => exact .pure ⟨rfl, rfl⟩
  | cons a as ih =>
    rw [List.mapM_cons]
    refine (h a (by simp)).step fun _ _ ⟨z, hzs, hid, hz⟩ => ?_
    refine (ih fun b hb => h b (by simp [hb])).step fun _ zs ⟨hids, hz'⟩ => .pure ⟨?_, ?_⟩
    · simp [hzs, hid, hids]
    · simp [hzs, hz, hz']

theorem copies_list (h : ∀ x ∈ xs, Copies (copy x.label) (g x)) :
    Gives [] ((xs.map Tree.label).mapM copy) fun ids zs =>
      ids = zs.map Located.id ∧ zs.map Located.spans = xs.map g := by
  rw [List.mapM_map]
  exact copies_each h

theorem copies_option {x : Option (Tree NodeId)}
    (h : ∀ y ∈ x.toList, Copies (copy y.label) (g y)) :
    Gives [] ((x.map Tree.label).mapM copy) fun id zs => ∃ z : Option Located,
      zs = z.toList ∧ id = z.map Located.id ∧ z.map Located.spans = x.map g := by
  cases x with
  | none => exact .pure ⟨none, rfl, rfl, rfl⟩
  | some x =>
    refine (h x (by simp)).step fun _ _ ⟨z, hzs, hid, hz⟩ => .pure ⟨some z, hzs, ?_, ?_⟩
    · exact congrArg some hid.symm
    · exact congrArg some hz

/-- The copy of a node is the node of the copies of its children. -/
theorem copies_node {n : Node (Tree NodeId)} (h : ∀ x ∈ n.children, Copies (copy x.label) (g x)) :
    Gives [] ((n.map Tree.label).mapM copy) fun n' zs => ∃ w : Node Located,
      w.children = zs ∧ n' = w.map Located.id ∧ w.map Located.spans = n.map g := by
  rw [Node.mapM_eq, Node.children_map, map_eq_pure_bind]
  refine (copies_list h).bind fun ids zs ⟨hids, hspans⟩ => ?_
  have hlength : zs.length = n.children.length := by
    simpa using congrArg List.length hspans
  refine .pure ⟨n.fill zs, Node.children_fill hlength, ?_, ?_⟩
  · rw [Node.map_fill hlength, hids, Node.fill_congr (Node.shell_map Tree.label n)]
  · rw [Node.map_fill hlength, hspans, Node.fill_map]

end Copying

end ScriptInject
