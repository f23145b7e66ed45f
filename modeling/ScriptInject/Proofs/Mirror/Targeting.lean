import ScriptInject.Entrypoints
import ScriptInject.Proofs.Mirror.Building
/-! Definitions that mirror each other ask for the same, and tell a host the same. -/
namespace ScriptInject

variable {ρ : NodeId → NodeId} {ids : List NodeId} {a b : Arena} {e : Element} {i : NodeId}

namespace Target

def Slot.renamed (ρ : NodeId → NodeId) : Slot → Slot
  | .named value? => .named (value?.map ρ)
  | .positional id => .positional (ρ id)

def Slot.Within (ids : List NodeId) : Slot → Prop
  | .named value? => ∀ id ∈ value?, id ∈ ids
  | .positional id => id ∈ ids

namespace Arguments

def renamed (ρ : NodeId → NodeId) (args : Arguments) : Arguments :=
  ⟨args.element, args.positional.map ρ, args.named.map fun (name, value?) => (name, value?.map ρ)⟩

structure Within (ids : List NodeId) (args : Arguments) : Prop where
  positional : ∀ id ∈ args.positional, id ∈ ids
  named : ∀ name value?, (name, value?) ∈ args.named → ∀ id ∈ value?, id ∈ ids

variable {args : Arguments}

theorem slot?_agree (h : args.Within ids) (name : String) (position : Option Nat) :
    Agree (fun slot? slot?' => slot?' = slot?.map (Slot.renamed ρ) ∧ ∀ s ∈ slot?, s.Within ids)
      (args.slot? name position) ((args.renamed ρ).slot? name position) := by
  have hnamed : (args.renamed ρ).named.find? (fun (n, _) => Text.caselessEq n name) =
      (args.named.find? fun (n, _) => Text.caselessEq n name).map
        fun (n, value?) => (n, value?.map ρ) := by
    rw [renamed, List.find?_map]
    rfl
  have hpositional : (position.bind fun i => (args.renamed ρ).positional[i]?) =
      (position.bind fun i => args.positional[i]?).map ρ := by
    cases position <;> simp [renamed]
  rw [slot?, slot?, hnamed, hpositional]
  cases hfound : args.named.find? fun (n, _) => Text.caselessEq n name with
  | none =>
    cases hat : position.bind fun i => args.positional[i]? with
    | none => exact .ok ⟨rfl, nofun⟩
    | some id =>
      refine .ok ⟨rfl, fun s hs => Option.some.inj hs ▸ ?_⟩
      obtain ⟨i, -, hi⟩ := Option.bind_eq_some_iff.mp hat
      exact h.positional id (List.mem_of_getElem? hi)
  | some p =>
    obtain ⟨n, value?⟩ := p
    cases position.bind fun i => args.positional[i]? with
    | none =>
      refine .ok ⟨rfl, fun s hs => Option.some.inj hs ▸ ?_⟩
      exact h.named n value? (List.mem_of_find?_eq_some hfound)
    | some id => exact .error _

/-- What is made of a slot is the same where it does not depend on the ids in the slot. -/
theorem slot?_bind {β : Type} (h : args.Within ids) {name : String} {position : Option Nat}
    {f f' : Option Slot → Except ScriptError β} (hnone : f' none = f none)
    (hsome : ∀ slot, slot.Within ids → f' (some (slot.renamed ρ)) = f (some slot)) :
    (args.renamed ρ).slot? name position >>= f' = args.slot? name position >>= f := by
  have hslot := slot?_agree (ρ := ρ) h name position
  generalize args.slot? name position = r at hslot
  generalize (args.renamed ρ).slot? name position = r' at hslot
  cases hslot with
  | error e => rfl
  | @ok slot? slot?' hs =>
    obtain ⟨rfl, hwithin⟩ := hs
    cases slot? with
    | none => exact hnone
    | some slot => exact hsome slot (hwithin slot rfl)

theorem valueOf_renamed (argument : String) (n : Node NodeId) :
    (args.renamed ρ).valueOf argument (n.map ρ) = args.valueOf argument n := by
  cases n <;> rfl

theorem value_renamed (h : a.Mirrors ρ ids b) {slot : Slot} (hslot : slot.Within ids)
    (argument : String) :
    (args.renamed ρ).value b (slot.renamed ρ) argument = args.value a slot argument := by
  have hnode {id : NodeId} (hid : id ∈ ids) :
      (do (args.renamed ρ).valueOf argument (← b.node (ρ id)) : Except ScriptError Value) =
        (do args.valueOf argument (← a.node id)) := by
    cases h.pair hid with
    | same n hn hm =>
      rw [Arena.node, Arena.node, hn, hm]
      exact valueOf_renamed argument n
    | marker positional named hn hm =>
      rw [Arena.node, Arena.node, hn, hm]
      rfl
  cases slot with
  | positional id => exact hnode hslot
  | named value? =>
    cases value? with
    | none => rfl
    | some id => exact hnode (hslot id rfl)

end Arguments

/-! What an element asks for. -/

variable (h : a.Mirrors ρ ids b)
include h

theorem constraintName?_eq (hi : i ∈ ids) : constraintName? b (ρ i) = constraintName? a i := by
  cases h.pair hi with
  | same n hn hm =>
    rw [constraintName?, constraintName?, hn, hm]
    cases n <;> rfl
  | marker positional named hn hm => rw [constraintName?, constraintName?, hn, hm]

theorem chainConstraintUpTo_eq {k k' : Nat} (hi : i ∈ ids) (hk : i < k) (hk' : ρ i < k') :
    chainConstraintUpTo b k' (ρ i) = chainConstraintUpTo a k i := by
  induction k generalizing i k' with
  | zero => exact absurd hk (Nat.not_lt_zero _)
  | succ k ih =>
    obtain ⟨k', rfl⟩ := Nat.exists_eq_add_one_of_ne_zero (Nat.ne_zero_of_lt hk')
    have honwards {n : Node NodeId} {c : NodeId} (hn : a.get? i = some n) (hc : c ∈ n.children) :
        chainConstraintUpTo b k' (ρ c) = chainConstraintUpTo a k c := by
      obtain ⟨hlt, hlt'⟩ := h.child_lt hi hn hc
      exact ih (h.child hi hn hc) (Nat.lt_of_lt_of_le hlt (Nat.le_of_lt_succ hk))
        (Nat.lt_of_lt_of_le hlt' (Nat.le_of_lt_succ hk'))
    cases h.pair hi with
    | same n hn hm =>
      rw [chainConstraintUpTo, chainConstraintUpTo, hn, hm]
      cases n with
      | annotated mark child => exact honwards hn (by simp [Node.children])
      | convert type child =>
        dsimp only [Node.map]
        rw [constraintName?_eq h (h.child hi hn (by simp [Node.children])),
          honwards hn (by simp [Node.children])]
      | _ => rfl
    | marker positional named hn hm => rw [chainConstraintUpTo, chainConstraintUpTo, hn, hm]

theorem typeConstraint?_eq (hi : i ∈ ids) : typeConstraint? b (ρ i) = typeConstraint? a i := by
  have hchain := chainConstraintUpTo_eq h hi (h.lt_depthBound hi).1 (h.lt_depthBound hi).2
  cases h.pair hi with
  | same n hn hm =>
    rw [typeConstraint?, typeConstraint?, hn, hm]
    cases n with
    | parameter annotations name value =>
      have hannotations : ∀ c ∈ annotations, c ∈ ids :=
        fun c hc => h.child hi hn (by simp [Node.children, hc])
      clear hn hm
      dsimp only [Node.map]
      induction annotations with
      | nil => rfl
      | cons c cs ih =>
        rw [List.map_cons, List.findSome?_cons, List.findSome?_cons,
          constraintName?_eq h (hannotations c (by simp)),
          ih fun d hd => hannotations d (by simp [hd])]
    | _ => exact hchain
  | marker positional named hn hm =>
    rw [typeConstraint?, typeConstraint?, hn, hm]
    exact hchain

theorem inferredKey_eq (he : e.node ∈ ids) (args : Arguments) :
    inferredKey b (e.renamed ρ) (args.renamed ρ) = inferredKey a e args := by
  rw [inferredKey, inferredKey,
    show typeConstraint? b (e.renamed ρ).node = _ from typeConstraint?_eq h he,
    show b.declaredVariable? (e.renamed ρ).node = _ from h.declaredVariable?_eq he]
  rfl

theorem keyOf_eq (he : e.node ∈ ids) {args : Arguments} (hargs : args.Within ids) :
    keyOf b (e.renamed ρ) (args.renamed ρ) = keyOf a e args := by
  refine Arguments.slot?_bind hargs (inferredKey_eq h he args) fun slot hslot => ?_
  dsimp only
  rw [Arguments.value_renamed h hslot]
  cases slot <;> rfl

theorem optionalOf_eq {args : Arguments} (hargs : args.Within ids) :
    optionalOf b (args.renamed ρ) = optionalOf a args := by
  refine Arguments.slot?_bind hargs rfl fun slot hslot => ?_
  dsimp only
  rw [Arguments.value_renamed h hslot]
  rfl

theorem textOf_eq {args : Arguments} (hargs : args.Within ids) (name : String)
    (position : Option Nat) :
    textOf b (args.renamed ρ) name position = textOf a args name position := by
  refine Arguments.slot?_bind hargs rfl fun slot hslot => ?_
  dsimp only
  rw [Arguments.value_renamed h hslot]
  rfl

theorem connectionStringOf_eq {args : Arguments} (hargs : args.Within ids) :
    connectionStringOf b (e.renamed ρ) (args.renamed ρ) = connectionStringOf a e args := by
  rw [connectionStringOf, connectionStringOf, textOf_eq h hargs]
  rfl

omit h in
theorem namedArgument?_map (n : Node NodeId) : namedArgument? (n.map ρ) =
    (namedArgument? n).map fun (name, value?) => (name, value?.map ρ) := by
  cases n <;> rfl

omit h in
theorem mem_children_of_namedArgument? {n : Node NodeId} {name : String} {value? : Option NodeId}
    (hn : namedArgument? n = some (name, value?)) : ∀ id ∈ value?, id ∈ n.children := by
  cases n with
  | namedArgument =>
    obtain ⟨rfl, rfl⟩ := Prod.mk.inj (Option.some.inj hn)
    exact fun id hid => Option.mem_toList.mpr hid
  | _ => exact absurd hn nofun

theorem named_agree {named : List NodeId} (hnamed : ∀ id ∈ named, id ∈ ids) : ∃ ns ns',
    (named.mapM fun id => (a.node id : Except ScriptError _)) = .ok ns ∧
    ((named.map ρ).mapM fun id => (b.node id : Except ScriptError _)) = .ok ns' ∧
    ns'.filterMap namedArgument? =
      (ns.filterMap namedArgument?).map (fun (name, value?) => (name, value?.map ρ)) ∧
    ∀ name value?, (name, value?) ∈ ns.filterMap namedArgument? → ∀ id ∈ value?, id ∈ ids := by
  induction named with
  | nil => exact ⟨[], [], rfl, rfl, rfl, nofun⟩
  | cons id named ih =>
    obtain ⟨ns, ns', hns, hns', hmap, hwithin⟩ := ih fun j hj => hnamed j (by simp [hj])
    have hid : id ∈ ids := hnamed id (by simp)
    rw [List.map_cons, List.mapM_cons, List.mapM_cons, hns, hns']
    cases h.pair hid with
    | same n hn hm =>
      rw [Arena.node, Arena.node, hn, hm]
      refine ⟨n :: ns, n.map ρ :: ns', rfl, rfl, ?_, ?_⟩
      · rw [List.filterMap_cons, List.filterMap_cons, namedArgument?_map]
        cases namedArgument? n with
        | none => exact hmap
        | some p => exact congrArg (_ :: ·) hmap
      · intro name value? hp
        obtain ⟨l, hl, hlp⟩ := List.mem_filterMap.mp hp
        rcases List.mem_cons.mp hl with rfl | hl
        · exact fun j hj => h.child hid hn (mem_children_of_namedArgument? hlp j hj)
        · exact hwithin name value? (List.mem_filterMap.mpr ⟨l, hl, hlp⟩)
    | marker positional named hn hm =>
      rw [Arena.node, Arena.node, hn, hm]
      exact ⟨_ :: ns, _ :: ns', rfl, rfl, hmap, hwithin⟩

theorem readArguments_agree (hnode : e.node ∈ ids) (hmark : e.mark ∈ ids) :
    Agree (fun args args' => args' = args.renamed ρ ∧ args.Within ids) (readArguments a e)
      (readArguments b (e.renamed ρ)) := by
  have hlabel : b.label (e.renamed ρ).node = a.label e.node := h.label_eq hnode
  have hattribute {type type' : TypeName} {positional named : List NodeId}
      (hn : a.get? e.mark = some (.attributeSpec type positional named))
      (hm : b.get? (ρ e.mark) = some (.attributeSpec type' (positional.map ρ) (named.map ρ))) :
      Agree (fun args args' => args' = args.renamed ρ ∧ args.Within ids) (readArguments a e)
        (readArguments b (e.renamed ρ)) := by
    have hchild {j : NodeId} (hj : j ∈ positional ++ named) : j ∈ ids := h.child hmark hn hj
    obtain ⟨ns, ns', hns, hns', hmap, hwithin⟩ :=
      named_agree h fun id hid => hchild (List.mem_append_right _ hid)
    rw [readArguments, readArguments, hlabel, Arena.node, Arena.node, hn,
      show b.get? (e.renamed ρ).mark = _ from hm]
    change Agree _ ((named.mapM fun id => (a.node id : Except ScriptError _)) >>= _)
      (((named.map ρ).mapM fun id => (b.node id : Except ScriptError _)) >>= _)
    rw [hns, hns']
    refine .ok ⟨?_, fun id hid => hchild (List.mem_append_left _ hid), hwithin⟩
    rw [hmap]
    rfl
  cases h.pair hmark with
  | same n hn hm =>
    cases n with
    | attributeSpec type positional named => exact hattribute hn hm
    | _ =>
      rw [readArguments, readArguments, hlabel, Arena.node, Arena.node, hn,
        show b.get? (e.renamed ρ).mark = _ from hm]
      exact .error _
  | marker positional named hn hm => exact hattribute hn hm

omit h in
theorem lift_corresponds {α β : Type} {V : α → β → Prop} {r : Except ScriptError α}
    {r' : Except ScriptError β} (hr : Agree V r r') :
    Corresponds Eq V (liftM r : Reading α) (liftM r' : Reading β) := by
  rintro ws _ rfl
  cases hr with
  | ok hv => exact .ok hv rfl
  | error e => exact .error e rfl

theorem argumentsOf_corresponds (strict : Bool) (hnode : e.node ∈ ids) (hmark : e.mark ∈ ids) :
    Corresponds Eq (fun args args' => args' = args.renamed ρ ∧ args.Within ids)
      (argumentsOf strict a e) (argumentsOf strict b (e.renamed ρ)) := by
  refine (lift_corresponds (readArguments_agree h hnode hmark)).bind ?_
  rintro args _ ⟨rfl, hargs⟩
  refine Corresponds.andThen (.forM fun p _ => .refl _) fun _ => ?_
  have hlength : (args.renamed ρ).positional.length = args.positional.length := List.length_map _
  dsimp only
  rw [hlength]
  by_cases hslots : positionalSlots e.role < args.positional.length
  · rw [if_pos hslots, if_pos (show positionalSlots (e.renamed ρ).role < _ from hslots)]
    exact (Corresponds.refl _).andThen fun _ => .pure ⟨rfl, hargs⟩
  · rw [if_neg hslots, if_neg (show ¬ positionalSlots (e.renamed ρ).role < _ from hslots)]
    exact .pure ⟨rfl, hargs⟩

theorem ofElement_eq (strict : Bool) (scope? : Option String) (hnode : e.node ∈ ids)
    (hmark : e.mark ∈ ids) :
    ofElement strict b scope? (e.renamed ρ) = ofElement strict a scope? e := by
  refine (Corresponds.eq ((argumentsOf_corresponds h strict hnode hmark).bind ?_)).symm
  rintro args _ ⟨rfl, hargs⟩
  dsimp only
  rw [keyOf_eq h hnode hargs, optionalOf_eq h hargs, connectionStringOf_eq h hargs]
  exact .refl _

end Target

namespace Resolver
open Target (Reading)

variable {d : Definition} (strict : Bool) (h : d.arena.Mirrors ρ ids b) (hd : d.Within ids)
include h hd

/-! What is read of the elements of a definition. -/

omit h in
theorem element_agree (id : ElementId) :
    Agree (fun e e' => e' = e.renamed ρ ∧ e.node ∈ ids ∧ e.mark ∈ ids)
      (Resolver.element ⟨d, strict⟩ id) (Resolver.element ⟨d.renamed ρ b, strict⟩ id) := by
  rw [element, element, Definition.element?_renamed]
  cases he : d.element? id with
  | none => exact .error _
  | some e => exact .ok ⟨rfl, hd.element? he⟩

theorem textSlot_eq (id : ElementId) (name : String) :
    textSlot ⟨d.renamed ρ b, strict⟩ id name = textSlot ⟨d, strict⟩ id name := by
  refine (Corresponds.eq ((Target.lift_corresponds (element_agree strict hd id)).bind ?_)).symm
  rintro e _ ⟨rfl, hnode, hmark⟩
  refine (Target.argumentsOf_corresponds h strict hnode hmark).bind ?_
  rintro args _ ⟨rfl, hargs⟩
  dsimp only
  rw [show Target.textOf (d.renamed ρ b).arena _ _ _ = _ from
    Target.textOf_eq h hargs name (some 0)]
  exact .refl _

theorem targetOf_eq (scope? : Option String) (id : ElementId) :
    targetOf ⟨d.renamed ρ b, strict⟩ scope? id = targetOf ⟨d, strict⟩ scope? id := by
  refine (Corresponds.eq ((Target.lift_corresponds (element_agree strict hd id)).bind ?_)).symm
  rintro e _ ⟨rfl, hnode, hmark⟩
  dsimp only
  rw [show Target.ofElement strict (d.renamed ρ b).arena scope? _ = _ from
    Target.ofElement_eq h strict scope? hnode hmark]
  exact .refl _

theorem siteScope_eq (site : InjectionSite) :
    siteScope ⟨d.renamed ρ b, strict⟩ site = siteScope ⟨d, strict⟩ site :=
  textSlot_eq strict h hd site.element "Scope"

theorem templateName_eq (id : ElementId) :
    templateName ⟨d.renamed ρ b, strict⟩ id = templateName ⟨d, strict⟩ id :=
  textSlot_eq strict h hd id "Target"

theorem siteTargets_eq (site : InjectionSite) :
    siteTargets ⟨d.renamed ρ b, strict⟩ site = siteTargets ⟨d, strict⟩ site := by
  unfold siteTargets
  simp only [siteScope_eq strict h hd, targetOf_eq strict h hd]

theorem checkTemplate_eq (id : ElementId) :
    checkTemplate ⟨d.renamed ρ b, strict⟩ id = checkTemplate ⟨d, strict⟩ id := by
  rw [checkTemplate, checkTemplate, templateName_eq strict h hd]

omit h hd in
/-- Without the value, the errors and the warnings are all that is noted. -/
theorem noting_eq {α β : Type} {V : α → β → Prop} {x : Reading α} {y : Reading β}
    (hxy : Corresponds Eq V x y) :
    (do let _ ← noting x : Gathering Unit) = (do let _ ← noting y : Gathering Unit) := by
  funext notes
  have hrun := hxy notes.warnings notes.warnings rfl
  change ((), (noting x notes).2) = ((), (noting y notes).2)
  rw [noting, noting, EStateM.run, EStateM.run]
  generalize x notes.warnings = r at hrun
  generalize y notes.warnings = r' at hrun
  cases hrun with
  | ok hv hws => rw [hws]
  | error e hws => rw [hws]

theorem checkLifecycle_eq (id : ElementId) :
    checkLifecycle ⟨d.renamed ρ b, strict⟩ id = checkLifecycle ⟨d, strict⟩ id := by
  refine (noting_eq (V := fun args args' => args' = args.renamed ρ ∧ args.Within ids)
    ((Target.lift_corresponds (element_agree strict hd id)).bind ?_)).symm
  rintro e _ ⟨rfl, hnode, hmark⟩
  exact Target.argumentsOf_corresponds h strict hnode hmark

theorem gather_eq : gather ⟨d.renamed ρ b, strict⟩ = gather ⟨d, strict⟩ := by
  unfold gather
  rw [funext (siteTargets_eq strict h hd), funext (checkTemplate_eq strict h hd),
    funext (checkLifecycle_eq strict h hd)]
  simp only [targetOf_eq strict h hd]
  rfl

theorem targets_eq : targets ⟨d.renamed ρ b, strict⟩ = targets ⟨d, strict⟩ := by
  rw [targets, targets, gather_eq strict h hd]

theorem resolve_eq (find : ProviderKey → Option String → Option ProviderHandle) :
    resolve ⟨d.renamed ρ b, strict⟩ find = resolve ⟨d, strict⟩ find := by
  rw [resolve, resolve, targets_eq strict h hd]

theorem functionName_eq (id : ElementId) :
    (d.renamed ρ b).functionName id = d.functionName id := by
  rw [Definition.functionName, Definition.functionName, Definition.element?_renamed]
  cases he : d.element? id with
  | none => rfl
  | some e =>
    obtain ⟨hnode, -⟩ := hd.element? he
    dsimp only [Option.map_some]
    rw [show (d.renamed ρ b).arena.label (e.renamed ρ).node = _ from h.label_eq hnode]
    cases h.pair hnode with
    | same n hn hm =>
      rw [hn, show (d.renamed ρ b).arena.get? (e.renamed ρ).node = _ from hm]
      cases n <;> rfl
    | marker positional named hn hm =>
      rw [hn, show (d.renamed ρ b).arena.get? (e.renamed ρ).node = _ from hm]

theorem variableName?_eq (id : ElementId) :
    (d.renamed ρ b).variableName? id = d.variableName? id := by
  rw [Definition.variableName?, Definition.variableName?, Definition.element?_renamed]
  cases he : d.element? id with
  | none => rfl
  | some e => exact h.declaredVariable?_eq (hd.element? he).1

theorem ofResolver_eq :
    Entrypoints.ofResolver ⟨d.renamed ρ b, strict⟩ = Entrypoints.ofResolver ⟨d, strict⟩ := by
  unfold Entrypoints.ofResolver Entrypoints.siteEntry
  simp only [functionName_eq h hd, siteScope_eq strict h hd, funext (functionName_eq h hd),
    funext (templateName_eq strict h hd), funext (variableName?_eq h hd)]
  rfl

end Resolver

end ScriptInject
