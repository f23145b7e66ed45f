import ScriptInject.Injection
import ScriptInject.Proofs.Copying
import ScriptInject.Proofs.Mirror.Building
/-! Rewritings of arenas that mirror each other make the same copy, up to the spelling of
markers. -/
namespace ScriptInject

/-- Arenas with the same nodes at the same ids, up to the spelling of markers. -/
structure Arena.Twins (c c' : Arena) : Prop where
  nextId : c'.nextId = c.nextId
  get? : ∀ i, (c'.get? i).map Node.respelled = (c.get? i).map Node.respelled

namespace Copying

variable {α β : Type} {ρ : NodeId → NodeId} {ids : List NodeId} {a b : Arena}
  {copy copy' : NodeId → Copying NodeId}

theorem add_alike {n m : Node NodeId} (h : m.respelled = n.respelled) (span span' : Option Span) :
    Alike Arena.Twins (add n span) (add m span') := by
  intro c c' hc
  have hfresh : c'.fresh? = c.fresh? := by rw [Arena.fresh?, Arena.fresh?, hc.nextId]
  rw [add_run, add_run, Arena.add, Arena.add, hfresh]
  cases c.fresh? with
  | none => exact .error _
  | some id =>
    refine .ok ⟨rfl, rfl, fun i => ?_⟩
    have hget := hc.get? i
    rw [Arena.get?, Arena.get?] at hget ⊢
    dsimp only
    rw [Std.TreeMap.getElem?_insert, Std.TreeMap.getElem?_insert]
    split
    · rw [Option.map_some, Option.map_some, h]
    · exact hget

theorem addNew_alike (n : Node NodeId) : Alike Arena.Twins (addNew n) (addNew n) :=
  add_alike rfl none none

/-! Nodes with their children copied. -/

theorem option_alike {x : Option NodeId} (h : ∀ c ∈ x, Alike Arena.Twins (copy c) (copy' (ρ c))) :
    Alike Arena.Twins (x.mapM copy) ((x.map ρ).mapM copy') := by
  cases x with
  | none => exact .pure _
  | some c =>
    change Alike _ (some <$> copy c) (some <$> copy' (ρ c))
    rw [map_eq_pure_bind, map_eq_pure_bind]
    exact (h c rfl).bind fun _ => .pure _

theorem mapM_alike {n : Node NodeId}
    (h : ∀ c ∈ n.children, Alike Arena.Twins (copy c) (copy' (ρ c))) :
    Alike Arena.Twins (n.mapM copy) ((n.map ρ).mapM copy') := by
  rw [Node.mapM_eq, Node.mapM_eq, Node.children_map, map_eq_pure_bind, map_eq_pure_bind]
  refine (Alike.mapM h).bind fun vs => ?_
  rw [Node.fill_congr (Node.shell_map ρ n)]
  exact .pure _

end Copying

/-! Injections. -/

namespace Injection
open Copying

variable {ρ : NodeId → NodeId} {ids : List NodeId} {a b : Arena} {inj : Injection} {i : NodeId}
  {n : Node NodeId} {k k' : Copier}

/-- The same calls at other ids. -/
def renamed (ρ : NodeId → NodeId) (inj : Injection) : Injection :=
  { inj with root? := inj.root?.map ρ, fetches := inj.fetches.map fun (i, f) => (ρ i, f) }

theorem ofBindings_renamed {d : Definition} (h : d.arena.Mirrors ρ ids b) (hd : d.Within ids)
    (hroot : b.root? = d.arena.root?.map ρ) (bindings : List Binding) (contextVariable : String)
    (namespaces : List String) :
    ofBindings (d.renamed ρ b) bindings contextVariable namespaces =
      (ofBindings d bindings contextVariable namespaces).renamed ρ := by
  have hfetch (binding : Binding) : fetchOf? (d.renamed ρ b) binding =
      (fetchOf? d binding).map fun (i, f) => (ρ i, f) := by
    rw [fetchOf?, fetchOf?, Definition.element?_renamed]
    cases binding.provider? with
    | none => rfl
    | some provider =>
      cases he : d.element? binding.element with
      | none => rfl
      | some e =>
        have hpath : (d.renamed ρ b).arena.declaredVariable? (e.renamed ρ).node =
            d.arena.declaredVariable? e.node := h.declaredVariable?_eq (hd.element? he).1
        simp only [Option.bind_eq_bind, Option.bind_some, Option.map_some, hpath]
        obtain ⟨role, node, mark, declaration?⟩ := e
        cases role <;> cases declaration? <;> rfl
  have hroot' : (d.renamed ρ b).arena.root? = d.arena.root?.map ρ := hroot
  rw [ofBindings, ofBindings, renamed, hroot', List.map_reverse, List.map_filterMap]
  congr 3
  funext binding
  rw [hfetch]

theorem fetch?_renamed (hρ : Function.Injective ρ) (i : NodeId) :
    (inj.renamed ρ).fetch? (ρ i) = inj.fetch? i :=
  (Arena.lookup_map hρ id inj.fetches i).trans Option.map_id'

theorem isRoot_renamed (hρ : Function.Injective ρ) (i : NodeId) :
    (inj.renamed ρ).root? = some (ρ i) ↔ inj.root? = some i := by
  rw [renamed, Option.map_eq_some_iff]
  constructor
  · rintro ⟨j, hj, hij⟩
    rw [hj, hρ hij]
  · exact fun hi => ⟨i, hi, rfl⟩

theorem call_alike (f : Fetch) :
    Alike Arena.Twins (inj.call f) ((inj.renamed ρ).call f) := by
  refine (addNew_alike _).bind fun target => (addNew_alike _).bind fun name => ?_
  refine Alike.bind ?_ fun arguments => addNew_alike _
  have hmapM : Alike Arena.Twins
      (f.arguments.mapM fun value => addNew (.stringConstant value .singleQuoted))
      ((f.arguments.map id).mapM fun value => addNew (.stringConstant value .singleQuoted)) :=
    .mapM fun value _ => addNew_alike _
  rwa [List.map_id] at hmapM

variable (h : a.Mirrors ρ ids b)
include h

theorem keptAttributes_alike {attributes : List NodeId}
    (hids : ∀ c ∈ attributes, c ∈ ids)
    (hcopy : ∀ c ∈ attributes, Alike Arena.Twins (k.copy c) (k'.copy (ρ c))) :
    Alike Arena.Twins (keptAttributes a k attributes) (keptAttributes b k' (attributes.map ρ)) := by
  have hfilter : (attributes.map ρ).filter (!isMarker b ·) =
      (attributes.filter (!isMarker a ·)).map ρ := by
    rw [List.filter_map]
    congr 1
    refine List.filter_congr fun c hc => ?_
    simp [isMarker, h.marker?_eq (hids c hc)]
  rw [keptAttributes, keptAttributes, hfilter]
  exact .mapM fun c hc => hcopy c (List.mem_filter.mp hc).1

theorem isPrepared_eq (hi : i ∈ ids) : (inj.renamed ρ).isPrepared b (ρ i) = inj.isPrepared a i := by
  cases h.pair hi with
  | same n hn hm =>
    rw [isPrepared, isPrepared, hn, hm]
    cases n <;> rfl
  | marker positional named hn hm => rw [isPrepared, isPrepared, hn, hm]

theorem hasMarker_eq (hids : ∀ c ∈ n.children, c ∈ ids) :
    hasMarker b (n.map ρ) = hasMarker a n := by
  have hany {attributes : List NodeId} (hattributes : ∀ c ∈ attributes, c ∈ ids) :
      (attributes.map ρ).any (isMarker b) = attributes.any (isMarker a) := by
    clear hids
    induction attributes with
    | nil => rfl
    | cons c cs ih =>
      rw [List.map_cons, List.any_cons, List.any_cons, ih fun d hd => hattributes d (by simp [hd]),
        isMarker, isMarker, h.marker?_eq (hattributes c (by simp))]
  cases n with
  | paramBlock attributes parameters =>
    exact hany fun c hc => hids c (List.mem_append_left _ hc)
  | parameter attributes name value =>
    exact hany fun c hc => hids c (by simp [Node.children, hc])
  | annotated mark child =>
    exact congrArg Option.isSome (h.marker?_eq (hids mark (by simp [Node.children])))
  | _ => rfl

omit h in
theorem rebuildWith_eq {copy : NodeId → Copying NodeId} (hn : a.get? i = some n) :
    Replacement.rebuildWith a copy i = n.mapM copy >>= fun m => add m (a.span? i) := by
  rw [Replacement.rebuildWith, Arena.node, hn]
  rfl

theorem rebuildWith_alike {copy copy' : NodeId → Copying NodeId} (hi : i ∈ ids)
    (hcopy : ∀ n, a.get? i = some n → ∀ c ∈ n.children, Alike Arena.Twins (copy c) (copy' (ρ c))) :
    Alike Arena.Twins (Replacement.rebuildWith a copy i)
      (Replacement.rebuildWith b copy' (ρ i)) := by
  cases h.pair hi with
  | same n hn hm =>
    rw [rebuildWith_eq hn, rebuildWith_eq hm]
    exact (mapM_alike (hcopy n hn)).bind fun m => add_alike rfl _ _
  | @marker s t marker positional named hn hm hs ht =>
    have hspelling : t.respelled = s.respelled :=
      TypeName.respelled_eq_iff.mpr (.inr ⟨marker, ht, hs⟩)
    have hchildren := hcopy _ hn
    rw [rebuildWith_eq hn, rebuildWith_eq hm]
    simp only [Node.mapM, bind_assoc, pure_bind]
    refine Alike.bind (.mapM fun c hc => hchildren c (List.mem_append_left _ hc)) fun ps => ?_
    refine Alike.bind (.mapM fun c hc => hchildren c (List.mem_append_right _ hc)) fun ns => ?_
    exact add_alike (by rw [Node.respelled, Node.respelled, hspelling]) _ _

omit h in
theorem contextParameter_alike :
    Alike Arena.Twins inj.contextParameter (inj.renamed ρ).contextParameter :=
  (addNew_alike _).bind fun _ => addNew_alike _

theorem rootParams_alike {params? : Option NodeId} (hids : ∀ p ∈ params?, p ∈ ids)
    (hcopy : ∀ p ∈ params?, ∀ n, a.get? p = some n →
      ∀ c ∈ n.children, Alike Arena.Twins (k.copy c) (k'.copy (ρ c)))
    (hrebuild : ∀ p ∈ params?, Alike Arena.Twins (k.rebuild p) (k'.rebuild (ρ p))) :
    Alike Arena.Twins (inj.rootParams a k params?)
      ((inj.renamed ρ).rootParams b k' (params?.map ρ)) := by
  refine contextParameter_alike.bind fun context => ?_
  cases params? with
  | none => exact addNew_alike _
  | some p =>
    refine .node h (hids p rfl) (fun n hn _ => ?_) fun _ _ _ _ _ => hrebuild p rfl
    cases n with
    | paramBlock attributes parameters =>
      have hchildren := hcopy p rfl _ hn
      have hattributes : ∀ c ∈ attributes, c ∈ attributes ++ parameters :=
        fun c hc => List.mem_append_left _ hc
      refine (keptAttributes_alike h (fun c hc => h.child (hids p rfl) hn (hattributes c hc))
        fun c hc => hchildren c (hattributes c hc)).bind fun _ => ?_
      refine Alike.bind (.mapM fun c hc => hchildren c (List.mem_append_right _ hc)) fun _ => ?_
      exact add_alike rfl _ _
    | _ => exact hrebuild p rfl

theorem applyFetch_alike (f : Fetch) (hn : a.get? i = some n) (hi : i ∈ ids)
    (hcopy : ∀ c ∈ n.children, Alike Arena.Twins (k.copy c) (k'.copy (ρ c))) :
    Alike Arena.Twins (inj.applyFetch a k f i n)
      ((inj.renamed ρ).applyFetch b k' f (ρ i) (n.map ρ)) := by
  refine (call_alike f).bind fun call => ?_
  obtain ⟨method, path?, arguments, placement⟩ := f
  cases placement with
  | expression => exact .pure _
  | statement =>
    cases path? with
    | none => exact .pure _
    | some path =>
      refine (addNew_alike _).bind fun _ => (addNew_alike _).bind fun _ => ?_
      exact (addNew_alike _).bind fun _ => (add_alike rfl _ _).bind fun _ => .pure _
  | parameter =>
    cases n with
    | parameter attributes name value =>
      have hattributes : ∀ c ∈ attributes, c ∈ (Node.parameter attributes name value).children :=
        fun c hc => by simp [Node.children, hc]
      refine (keptAttributes_alike h (fun c hc => h.child hi hn (hattributes c hc))
        fun c hc => hcopy c (hattributes c hc)).bind fun _ => ?_
      refine (hcopy name (by simp [Node.children])).bind fun _ => ?_
      exact (add_alike rfl _ _).bind fun _ => .pure _
    | _ => exact .pure _

theorem strip_alike (hn : a.get? i = some n) (hi : i ∈ ids)
    (hcopy : ∀ c ∈ n.children, Alike Arena.Twins (k.copy c) (k'.copy (ρ c)))
    (hcopy' : ∀ p ∈ n.children, ∀ m, a.get? p = some m →
      ∀ c ∈ m.children, Alike Arena.Twins (k.copy c) (k'.copy (ρ c)))
    (hrebuild : ∀ c ∈ n.children, Alike Arena.Twins (k.rebuild c) (k'.rebuild (ρ c))) :
    Alike Arena.Twins (inj.strip a k i n) ((inj.renamed ρ).strip b k' (ρ i) (n.map ρ)) := by
  have hids {c : NodeId} (hc : c ∈ n.children) : c ∈ ids := h.child hi hn hc
  cases n with
  | scriptBlock usings params? blocks =>
    have husings : ∀ c ∈ usings, c ∈ (Node.scriptBlock usings params? blocks).children :=
      fun c hc => by simp [Node.children, hc]
    have hparams : ∀ c ∈ params?, c ∈ (Node.scriptBlock usings params? blocks).children :=
      fun c hc => by simp [Node.children, Option.mem_def.mp hc]
    have hprepared : (usings.map ρ).filter (!(inj.renamed ρ).isPrepared b ·) =
        (usings.filter (!inj.isPrepared a ·)).map ρ := by
      rw [List.filter_map]
      congr 1
      refine List.filter_congr fun c hc => ?_
      simp [isPrepared_eq h (hids (husings c hc))]
    rw [strip, Node.map, strip, hprepared]
    by_cases hroot : inj.root? = some i
    · rw [if_pos hroot, if_pos ((isRoot_renamed h.injective i).mpr hroot)]
      refine Alike.bind (.mapM fun c hc => hcopy c (husings c (List.mem_filter.mp hc).1))
        fun _ => ?_
      refine (rootParams_alike h (fun p hp => hids (hparams p hp))
        (fun p hp => hcopy' p (hparams p hp)) fun p hp => hrebuild p (hparams p hp)).bind fun _ => ?_
      refine Alike.bind (.mapM fun c hc => hcopy c (by simp [Node.children, hc])) fun _ => ?_
      exact (add_alike rfl _ _).bind fun _ => .pure _
    · rw [if_neg hroot, if_neg (mt (isRoot_renamed h.injective i).mp hroot)]
      exact .pure _
  | paramBlock attributes parameters =>
    have hattributes : ∀ c ∈ attributes, c ∈ (Node.paramBlock attributes parameters).children :=
      fun c hc => List.mem_append_left _ hc
    refine (keptAttributes_alike h (fun c hc => hids (hattributes c hc))
      fun c hc => hcopy c (hattributes c hc)).bind fun _ => ?_
    refine Alike.bind (.mapM fun c hc => hcopy c (List.mem_append_right _ hc)) fun _ => ?_
    exact (add_alike rfl _ _).bind fun _ => .pure _
  | parameter attributes name value =>
    have hattributes : ∀ c ∈ attributes, c ∈ (Node.parameter attributes name value).children :=
      fun c hc => by simp [Node.children, hc]
    refine (keptAttributes_alike h (fun c hc => hids (hattributes c hc))
      fun c hc => hcopy c (hattributes c hc)).bind fun _ => ?_
    refine (hcopy name (by simp [Node.children])).bind fun _ => ?_
    refine (option_alike fun c hc => hcopy c (by simp [Node.children, Option.mem_def.mp hc])).bind
      fun _ => ?_
    exact (add_alike rfl _ _).bind fun _ => .pure _
  | annotated mark child => exact (hcopy child (by simp [Node.children])).bind fun _ => .pure _
  | _ => exact .pure _

theorem applies_eq (hn : a.get? i = some n) (hi : i ∈ ids) :
    (inj.renamed ρ).replacement.applies b (ρ i) (n.map ρ) = inj.replacement.applies a i n := by
  have hroot : ((inj.renamed ρ).root? == some (ρ i)) = (inj.root? == some i) := by
    rw [Bool.eq_iff_iff, beq_iff_eq, beq_iff_eq]
    exact isRoot_renamed h.injective i
  dsimp only [replacement]
  rw [fetch?_renamed h.injective, hroot, hasMarker_eq h fun c hc => h.child hi hn hc]

theorem replace_alike (hn : a.get? i = some n) (hi : i ∈ ids)
    (hcopy : ∀ c ∈ n.children, Alike Arena.Twins (k.copy c) (k'.copy (ρ c)))
    (hcopy' : ∀ p ∈ n.children, ∀ m, a.get? p = some m →
      ∀ c ∈ m.children, Alike Arena.Twins (k.copy c) (k'.copy (ρ c)))
    (hrebuild : ∀ c ∈ n.children, Alike Arena.Twins (k.rebuild c) (k'.rebuild (ρ c))) :
    Alike Arena.Twins (inj.replacement.replace a k i n)
      ((inj.renamed ρ).replacement.replace b k' (ρ i) (n.map ρ)) := by
  dsimp only [replacement]
  rw [fetch?_renamed h.injective]
  cases inj.fetch? i with
  | some f => exact applyFetch_alike h f hn hi hcopy
  | none => exact strip_alike h hn hi hcopy hcopy' hrebuild

/-! How an attribute is spelled does not matter to the rule. -/

omit h in
theorem replace_attribute (s t : TypeName) (positional named : List NodeId) :
    inj.replacement.replace a k i (.attributeSpec t positional named) =
      inj.replacement.replace a k i (.attributeSpec s positional named) := by
  dsimp only [replacement]
  cases inj.fetch? i with
  | none => rfl
  | some f =>
    obtain ⟨method, path?, arguments, placement⟩ := f
    cases placement <;> cases path? <;> rfl

omit h in
theorem copyNode_attribute (copy : NodeId → Copying NodeId) (s t : TypeName)
    (positional named : List NodeId) :
    inj.replacement.copyNode a copy i (.attributeSpec t positional named) =
      inj.replacement.copyNode a copy i (.attributeSpec s positional named) := by
  rw [Replacement.copyNode, Replacement.copyNode, replace_attribute s t]
  rfl

theorem copyNode_alike {copy copy' : NodeId → Copying NodeId} (hn : a.get? i = some n)
    (hi : i ∈ ids)
    (hcopy : ∀ j ∈ ids, j ≤ i → ρ j ≤ ρ i → ∀ m, a.get? j = some m →
      ∀ c ∈ m.children, Alike Arena.Twins (copy c) (copy' (ρ c))) :
    Alike Arena.Twins (inj.replacement.copyNode a copy i n)
      ((inj.renamed ρ).replacement.copyNode b copy' (ρ i) (n.map ρ)) := by
  have hbelow (p : NodeId) (hp : p ∈ n.children) (m : Node NodeId) (hm : a.get? p = some m) :=
    hcopy p (h.child hi hn hp) (Nat.le_of_lt (h.child_lt hi hn hp).1)
      (Nat.le_of_lt (h.child_lt hi hn hp).2) m hm
  have hself := rebuildWith_alike h hi (hcopy i hi (Nat.le_refl i) (Nat.le_refl _))
  rw [Replacement.copyNode, Replacement.copyNode, applies_eq h hn hi]
  split
  · refine Alike.bind (replace_alike h hn hi (hcopy i hi (Nat.le_refl i) (Nat.le_refl _) n hn)
      hbelow fun c hc => rebuildWith_alike h (h.child hi hn hc) (hbelow c hc)) fun replaced? => ?_
    cases replaced? with
    | some replaced => exact .pure _
    | none => exact hself
  · exact hself

theorem copyUpTo_alike {depth depth' : Nat} (hi : i ∈ ids) (hd : i < depth) (hd' : ρ i < depth') :
    Alike Arena.Twins (inj.replacement.copyUpTo a depth i)
      ((inj.renamed ρ).replacement.copyUpTo b depth' (ρ i)) := by
  induction depth generalizing i depth' with
  | zero => exact absurd hd (Nat.not_lt_zero _)
  | succ depth ih =>
    obtain ⟨depth', rfl⟩ := Nat.exists_eq_add_one_of_ne_zero (Nat.ne_zero_of_lt hd')
    have hcopy (j : NodeId) (hj : j ∈ ids) (hji : j ≤ i) (hρ : ρ j ≤ ρ i) (m : Node NodeId)
        (hm : a.get? j = some m) (c : NodeId) (hc : c ∈ m.children) :
        Alike Arena.Twins (inj.replacement.copyUpTo a depth c)
          ((inj.renamed ρ).replacement.copyUpTo b depth' (ρ c)) := by
      obtain ⟨hcj, hcj'⟩ := h.child_lt hj hm hc
      exact ih (h.child hj hm hc)
        (Nat.lt_of_lt_of_le hcj (Nat.le_trans hji (Nat.le_of_lt_succ hd)))
        (Nat.lt_of_lt_of_le hcj' (Nat.le_trans hρ (Nat.le_of_lt_succ hd')))
    rw [Replacement.copyUpTo_succ, Replacement.copyUpTo_succ]
    refine .node h hi (fun n hn _ => copyNode_alike h hn hi hcopy) fun s t positional named hn => ?_
    rw [copyNode_attribute _ s t]
    exact copyNode_alike h hn hi hcopy

/-- Both rewritings run out of ids, or make twins. -/
theorem apply_agree (hroot : ∀ i ∈ a.root?, i ∈ ids) (hroot' : b.root? = a.root?.map ρ) :
    Agree (fun out out' => Arena.Twins out out' ∧ out'.root? = out.root?) (inj.apply a)
      ((inj.renamed ρ).apply b) := by
  cases hr : a.root? with
  | none =>
    unfold apply Replacement.apply
    rw [Arena.root, Arena.root, hroot', hr]
    exact .error _
  | some root =>
    rw [hr] at hroot'
    rw [apply, apply, Replacement.apply_eq hr, Replacement.apply_eq hroot']
    have hmem : root ∈ ids := hroot root hr
    have hcopy : Alike Arena.Twins (inj.replacement.copyUpTo a a.depthBound root)
        ((inj.renamed ρ).replacement.copyUpTo b b.depthBound (ρ root)) :=
      copyUpTo_alike h hmem (h.lt_depthBound hmem).1 (h.lt_depthBound hmem).2
    have hrun := hcopy {} {} ⟨rfl, fun _ => rfl⟩
    generalize inj.replacement.copyUpTo a a.depthBound root {} = r at hrun
    generalize (inj.renamed ρ).replacement.copyUpTo b b.depthBound (ρ root) {} = r' at hrun
    cases hrun with
    | error e => exact .error e
    | ok hpq => exact .ok ⟨⟨hpq.2.nextId, hpq.2.get?⟩, congrArg some hpq.1.symm⟩

end Injection

end ScriptInject
