import ScriptInject.Proofs.Building
import ScriptInject.Proofs.Telling
import ScriptInject.Proofs.Unfolding
/-! Reading what the attributes of a definition say. It fails only for what the author of the script
can mend, and the reading that found nothing to mend can be repeated. -/
namespace ScriptInject

/-- The author of a script can mend it. The two reasons that are excluded tell of elements that are
in no script. -/
def ScriptError.IsMendable : ScriptError → Prop
  | .invalidArgument _ _ reason => reason ≠ "not an attribute" ∧ reason ≠ "not part of this script"
  | .builderFinalized | .unprintable .. | .config _ | .arena _ => False
  | _ => True

theorem ScriptError.IsConflict.isMendable {e : ScriptError} (h : e.IsConflict) : e.IsMendable := by
  cases e <;> trivial

variable {α β : Type} {a : Arena} {e : Element} {P Q : α → Prop} {R : β → Prop}

namespace Target

/-- A value with some property, or an error that can be mended. -/
def Settles (x : Except ScriptError α) (Q : α → Prop) : Prop :=
  match x with
  | .ok v => Q v
  | .error e => e.IsMendable

namespace Settles

variable {x : Except ScriptError α} {f : α → Except ScriptError β}

theorem bind (h : Settles x Q) (hf : ∀ v, Q v → Settles (f v) R) : Settles (x >>= f) R := by
  cases x with
  | error e => exact h
  | ok v => exact hf v h

theorem imp (h : Settles x P) (hpq : ∀ v, P v → Q v) : Settles x Q := by
  cases x with
  | error e => exact h
  | ok v => exact hpq v h

end Settles

/-- Whatever has been warned of before, the reading comes to the same: a value with some property,
or an error that can be mended. -/
def Reads (x : Reading α) (Q : α → Prop) : Prop :=
  ∃ o : Except ScriptError α, Settles o Q ∧ ∀ ws, ∃ ws', x ws = match o with
    | .ok v => .ok v ws'
    | .error e => .error e ws'

namespace Reads

variable {x : Reading α} {f : α → Reading β}

theorem pure {v : α} (h : Q v) : Reads (pure v) Q := ⟨.ok v, h, fun ws => ⟨ws, rfl⟩⟩

theorem bind (h : Reads x Q) (hf : ∀ v, Q v → Reads (f v) R) : Reads (x >>= f) R := by
  obtain ⟨o, ho, hx⟩ := h
  cases o with
  | error e =>
    refine ⟨.error e, ho, fun ws => ?_⟩
    obtain ⟨ws', hrun⟩ := hx ws
    exact ⟨ws', by change EStateM.bind x f ws = _; rw [EStateM.bind, hrun]⟩
  | ok v =>
    obtain ⟨p, hp, hrest⟩ := hf v ho
    refine ⟨p, hp, fun ws => ?_⟩
    obtain ⟨ws', hrun⟩ := hx ws
    obtain ⟨ws'', hrun'⟩ := hrest ws'
    exact ⟨ws'', by change EStateM.bind x f ws = _; rw [EStateM.bind, hrun]; exact hrun'⟩

theorem lift {o : Except ScriptError α} (h : Settles o Q) : Reads (liftM o) Q := by
  refine ⟨o, h, fun ws => ⟨ws, ?_⟩⟩
  cases o <;> rfl

theorem imp (h : Reads x P) (hpq : ∀ v, P v → Q v) : Reads x Q :=
  let ⟨o, ho, hx⟩ := h
  ⟨o, ho.imp hpq, hx⟩

theorem throw {e : ScriptError} (h : e.IsMendable) : Reads (throw e) Q :=
  ⟨.error e, h, fun ws => ⟨ws, rfl⟩⟩

theorem modify (g : List Warning → List Warning) : Reads (modify g) fun _ => True :=
  ⟨.ok (), trivial, fun ws => ⟨g ws, rfl⟩⟩

theorem forM {g : α → Reading Unit} {xs : List α} (h : ∀ v ∈ xs, Reads (g v) fun _ => True) :
    Reads (xs.forM g) fun _ => True := by
  induction xs with
  | nil => exact .pure trivial
  | cons v xs ih => exact (h v (by simp)).bind fun _ _ => ih fun w hw => h w (by simp [hw])

end Reads

/-! The arguments of one attribute. -/

/-- What the slot refers to is in the arena. -/
def Slot.Present (a : Arena) : Slot → Prop
  | .named none => True
  | .named (some id) | .positional id => (a.get? id).isSome

/-- What the arguments refer to is in the arena. -/
structure Arguments.Present (a : Arena) (args : Arguments) : Prop where
  positional : ∀ id ∈ args.positional, Slot.Present a (.positional id)
  named : ∀ p ∈ args.named, Slot.Present a (.named p.2)

variable {args : Arguments} {slot : Slot} {argument name : String} {position : Option Nat}

theorem invalid_mendable (args : Arguments) (argument : String) {reason : String}
    (h : reason ≠ "not an attribute" ∧ reason ≠ "not part of this script") :
    (args.invalid argument reason).IsMendable := h

theorem unsupported_ne (kind : String) {reason : String} (h : reason.toList.head? ≠ some 'u') :
    "unsupported " ++ kind ++ " value" ≠ reason := by
  rintro rfl
  simp at h

theorem settles_slot? (h : args.Present a) :
    Settles (args.slot? name position) fun slot? => ∀ slot, slot? = some slot → slot.Present a := by
  rw [Arguments.slot?]
  split
  · trivial
  · rename_i key value? hn _
    rintro slot ⟨⟩
    exact h.named _ (List.mem_of_find?_eq_some hn)
  · rename_i id hn hi
    rintro slot ⟨⟩
    obtain ⟨i, -, hi⟩ := Option.bind_eq_some_iff.mp hi
    exact h.positional id (List.mem_of_getElem? hi)
  · rintro slot ⟨⟩

theorem settles_valueOf (n : Node NodeId) :
    Settles (args.valueOf argument n) fun _ => True := by
  have hreason : (args.invalid argument ("unsupported " ++ n.kindName ++ " value")).IsMendable :=
    invalid_mendable args argument ⟨unsupported_ne _ (by decide), unsupported_ne _ (by decide)⟩
  unfold Arguments.valueOf
  grind [Settles]

theorem settles_value (h : slot.Present a) :
    Settles (args.value a slot argument) fun _ => True := by
  have hnode {id : NodeId} (hid : (a.get? id).isSome) :
      Settles (do args.valueOf argument (← a.node id)) fun _ => True := by
    obtain ⟨n, hn⟩ := Option.isSome_iff_exists.mp hid
    rw [Arena.node, hn]
    exact settles_valueOf n
  cases slot with
  | named value? =>
    cases value? with
    | none => trivial
    | some id => exact hnode h
  | positional id => exact hnode h

theorem settles_textOf (h : args.Present a) :
    Settles (textOf a args name position) fun _ => True := by
  refine (settles_slot? h).bind fun slot? hslot => ?_
  cases slot? with
  | none => trivial
  | some slot =>
    refine (settles_value (hslot slot rfl)).bind fun v _ => ?_
    cases v with
    | text s => trivial
    | _ => exact invalid_mendable args name (by decide)

theorem settles_keyOf (h : args.Present a) : Settles (keyOf a e args) fun _ => True := by
  refine (settles_slot? h).bind fun slot? hslot => ?_
  cases slot? with
  | none =>
    dsimp only
    unfold inferredKey
    split
    · trivial
    · split
      · trivial
      · exact invalid_mendable args "Target" (by decide)
  | some slot =>
    refine (settles_value (hslot slot rfl)).bind fun v _ => ?_
    cases v with
    | flag b => exact invalid_mendable args "Target" (by decide)
    | _ => trivial

theorem settles_optionalOf (h : args.Present a) : Settles (optionalOf a args) fun _ => True := by
  refine (settles_slot? h).bind fun slot? hslot => ?_
  cases slot? with
  | none => trivial
  | some slot =>
    refine (settles_value (hslot slot rfl)).bind fun v _ => ?_
    cases v with
    | flag b => trivial
    | _ => exact invalid_mendable args "Optional" (by decide)

theorem settles_connectionStringOf (h : args.Present a) :
    Settles (connectionStringOf a e args) fun _ => True := by
  unfold connectionStringOf
  split
  · exact settles_textOf h
  · trivial

theorem mapM_node {ids : List NodeId} (h : ∀ id ∈ ids, (a.get? id).isSome) :
    ∃ ns, (ids.mapM fun id => (a.node id : Except ScriptError _)) = .ok ns ∧
      ∀ n ∈ ns, ∃ id, a.get? id = some n := by
  induction ids with
  | nil => exact ⟨[], rfl, nofun⟩
  | cons id ids ih =>
    obtain ⟨n, hn⟩ := Option.isSome_iff_exists.mp (h id (by simp))
    obtain ⟨ns, hns, hall⟩ := ih fun i hi => h i (by simp [hi])
    refine ⟨n :: ns, ?_, ?_⟩
    · rw [List.mapM_cons, hns, Arena.node, hn]
      rfl
    · intro m hm
      rcases List.mem_cons.mp hm with rfl | hm
      · exact ⟨id, hn⟩
      · exact hall m hm

/-- A marker has arguments, and what they refer to is in the arena. -/
theorem readArguments_eq (ha : a.Tidy) (h : (a.marker? e.mark).isSome) :
    ∃ args, readArguments a e = .ok args ∧ args.Present a := by
  unfold Arena.marker? at h
  split at h
  · rename_i type positional named hmark
    have hchild {id : NodeId} (hid : id ∈ positional ++ named) : (a.get? id).isSome :=
      ha.child_get? hmark id hid
    obtain ⟨ns, hns, hall⟩ := @mapM_node a named fun id hid => hchild (List.mem_append_right _ hid)
    refine ⟨⟨a.label e.node, positional, ns.filterMap namedArgument?⟩, ?_, ?_, ?_⟩
    · rw [readArguments, Arena.node, hmark]
      change ((named.mapM fun id => (a.node id : Except ScriptError _)) >>= _) = _
      rw [hns]
      rfl
    · exact fun id hid => hchild (List.mem_append_left _ hid)
    · intro p hp
      obtain ⟨n, hn, hnp⟩ := List.mem_filterMap.mp hp
      obtain ⟨id, hget⟩ := hall n hn
      unfold namedArgument? at hnp
      split at hnp
      · rename_i name value
        obtain rfl := Option.some.inj hnp
        cases value with
        | none => trivial
        | some v => exact ha.child_get? hget v (by simp [Node.children])
      · cases hnp
  · exact absurd h Bool.false_ne_true

theorem reads_argumentsOf (ha : a.Tidy) (h : (a.marker? e.mark).isSome) (strict : Bool) :
    Reads (argumentsOf strict a e) (Arguments.Present a) := by
  have hunknown (args : Arguments) (argument : String) :
      Reads (unknownArgument strict args argument) fun _ => True := by
    unfold unknownArgument
    split
    · exact .throw (invalid_mendable args argument (by decide))
    · exact .modify _
  obtain ⟨args, hargs, hpresent⟩ := readArguments_eq ha h
  have hread : Settles (readArguments a e) (Arguments.Present a) := by
    rw [hargs]
    exact hpresent
  have hknown (args : Arguments) (p : String × Option NodeId) :
      Reads (if (knownArguments e.role).any (Text.caselessEq · p.1) then pure ()
        else unknownArgument strict args p.1) fun _ => True := by
    split
    · exact .pure trivial
    · exact hunknown args p.1
  refine (Reads.lift hread).bind fun args hpresent => ?_
  refine Reads.bind (.forM fun p _ => hknown args p) fun _ _ => ?_
  split
  · exact (hunknown args _).bind fun _ _ => .pure hpresent
  · exact .pure hpresent

theorem reads_ofElement (ha : a.Tidy) (h : (a.marker? e.mark).isSome) (strict : Bool)
    (scope? : Option String) : Reads (ofElement strict a scope? e) fun _ => True := by
  refine (reads_argumentsOf ha h strict).bind fun args hargs => ?_
  refine (Reads.lift (settles_keyOf hargs)).bind fun key _ => ?_
  refine (Reads.lift (settles_optionalOf hargs)).bind fun _ _ => ?_
  exact (Reads.lift (settles_connectionStringOf hargs)).bind fun _ _ => .pure trivial

end Target

namespace Resolver

open Target (Reading Reads)

/-- Whatever has been warned of before, the reading comes to the same value. -/
def Succeeds (x : Reading α) : Prop := ∃ v, ∀ ws, ∃ ws', x ws = .ok v ws'

theorem Succeeds.bind {x : Reading α} {f : α → Reading β} (h : Succeeds x)
    (hf : ∀ v, Succeeds (f v)) : Succeeds (x >>= f) := by
  obtain ⟨v, hx⟩ := h
  obtain ⟨w, hv⟩ := hf v
  refine ⟨w, fun ws => ?_⟩
  obtain ⟨ws', hrun⟩ := hx ws
  obtain ⟨ws'', hrun'⟩ := hv ws'
  exact ⟨ws'', by change EStateM.bind x f ws = _; rw [EStateM.bind, hrun]; exact hrun'⟩

theorem Succeeds.pure (v : α) : Succeeds (pure v) := ⟨v, fun ws => ⟨ws, rfl⟩⟩

theorem Succeeds.mapM {f : α → Reading β} {xs : List α} (h : ∀ x ∈ xs, Succeeds (f x)) :
    Succeeds (xs.mapM f) := by
  induction xs with
  | nil => exact .pure []
  | cons x xs ih =>
    rw [List.mapM_cons]
    exact (h x (by simp)).bind fun v => (ih fun y hy => h y (by simp [hy])).bind fun vs => .pure _

/-- All errors that are noted can be mended, and where none are noted, something has succeeded. -/
def Notices (x : Gathering α) (P : Prop) : Prop :=
  ∀ notes : Notes, (∀ e ∈ notes.errors, e.IsMendable) →
    (∀ e ∈ (x notes).2.errors, e.IsMendable) ∧ ((x notes).2.errors = [] → notes.errors = [] ∧ P)

namespace Notices

variable {x : Gathering α} {f : α → Gathering β} {S T : Prop}

theorem pure (v : α) : Notices (pure v) True := fun _ hn => ⟨hn, fun h => ⟨h, trivial⟩⟩

theorem bind (h : Notices x S) (hf : ∀ v, Notices (f v) T) : Notices (x >>= f) (S ∧ T) := by
  intro notes hnotes
  obtain ⟨hmend, hx⟩ := h notes hnotes
  obtain ⟨hmend', hrest⟩ := hf (x notes).1 (x notes).2 hmend
  refine ⟨hmend', fun hnone => ?_⟩
  obtain ⟨hnone', ht⟩ := hrest hnone
  obtain ⟨hnone'', hs⟩ := hx hnone'
  exact ⟨hnone'', hs, ht⟩

theorem imp (h : Notices x S) (hst : S → T) : Notices x T := fun notes hnotes =>
  ⟨(h notes hnotes).1, fun hnone => ⟨((h notes hnotes).2 hnone).1, hst ((h notes hnotes).2 hnone).2⟩⟩

theorem noting {r : Reading α} (h : Reads r fun _ => True) : Notices (noting r) (Succeeds r) := by
  obtain ⟨o, ho, hr⟩ := h
  intro notes hnotes
  obtain ⟨ws', hrun⟩ := hr notes.warnings
  rw [Resolver.noting, EStateM.run, hrun]
  cases o with
  | ok v => exact ⟨hnotes, fun hnone => ⟨hnone, v, hr⟩⟩
  | error e =>
    refine ⟨fun d hd => ?_, fun hnone => absurd hnone (by simp)⟩
    rcases List.mem_append.mp hd with hd | hd
    · exact hnotes d hd
    · rwa [List.mem_singleton.mp hd]

theorem forM {g : α → Gathering Unit} {C : α → Prop} {xs : List α}
    (h : ∀ v ∈ xs, Notices (g v) (C v)) : Notices (xs.forM g) (∀ v ∈ xs, C v) := by
  induction xs with
  | nil => exact (pure ()).imp fun _ => nofun
  | cons v xs ih =>
    refine ((h v (by simp)).bind fun _ => ih fun w hw => h w (by simp [hw])).imp ?_
    simp

theorem mapM {g : α → Gathering β} {C : α → Prop} {xs : List α}
    (h : ∀ v ∈ xs, Notices (g v) (C v)) : Notices (xs.mapM g) (∀ v ∈ xs, C v) := by
  induction xs with
  | nil => exact (pure []).imp fun _ => nofun
  | cons v xs ih =>
    rw [List.mapM_cons]
    refine ((h v (by simp)).bind fun _ => (ih fun w hw => h w (by simp [hw])).bind fun _ =>
      pure _).imp ?_
    simp

theorem filterMapM {g : α → Gathering (Option β)} {C : α → Prop} {xs : List α}
    (h : ∀ v ∈ xs, Notices (g v) (C v)) : Notices (xs.filterMapM g) (∀ v ∈ xs, C v) := by
  induction xs with
  | nil => exact (pure []).imp fun _ => nofun
  | cons v xs ih =>
    have hxs := ih fun w hw => h w (by simp [hw])
    rw [List.filterMapM_cons]
    refine ((h v (by simp)).bind fun o => (?_ : Notices _ (∀ w ∈ xs, C w))).imp (by simp)
    cases o with
    | none => exact hxs
    | some w => exact (hxs.bind fun _ => pure _).imp And.left

end Notices

variable {r : Resolver} {id : ElementId} {p : Drawer}

/-- The element of an id that is filed can be read. -/
theorem element_eq (hd : r.definition.Sound a) (hid : id ∈ r.definition.content p) :
    ∃ e, r.element id = .ok e ∧ (a.marker? e.mark).isSome := by
  obtain ⟨e, he, -⟩ := hd.mem_iff.mp hid
  obtain ⟨marker, site, hmarker, -⟩ := hd.elements e (List.mem_of_getElem? he)
  exact ⟨e, by rw [Resolver.element, he], by rw [hmarker]; rfl⟩

theorem reads_element {f : Element → Reading α} (hd : r.definition.Sound a)
    (hid : id ∈ r.definition.content p)
    (hf : ∀ e : Element, (a.marker? e.mark).isSome → Reads (f e) Q) :
    Reads (do f (← (r.element id : Except ScriptError _))) Q := by
  obtain ⟨e, he, hmarker⟩ := element_eq hd hid
  rw [he]
  exact hf e hmarker

theorem reads_textSlot (ha : a.Tidy) (hd : r.definition.Sound a)
    (hid : id ∈ r.definition.content p) (name : String) :
    Reads (r.textSlot id name) fun _ => True := by
  refine reads_element hd hid fun e he => ?_
  rw [hd.arena]
  refine (Target.reads_argumentsOf ha he _).bind fun args hargs => ?_
  exact .lift (Target.settles_textOf hargs)

theorem reads_targetOf (ha : a.Tidy) (hd : r.definition.Sound a)
    (hid : id ∈ r.definition.content p) (scope? : Option String) :
    Reads (r.targetOf scope? id) fun _ => True := by
  refine reads_element hd hid fun e he => ?_
  rw [hd.arena]
  exact (Target.reads_ofElement ha he _ _).bind fun _ _ => .pure trivial

/-- What the host is told of the sites and templates can be read. -/
def Legible (r : Resolver) : Prop :=
  (∀ site ∈ r.definition.sites, Succeeds (r.siteScope site)) ∧
    ∀ id ∈ r.definition.templates, Succeeds (r.templateName id)

theorem notices_siteTargets (ha : a.Tidy) (hd : r.definition.Sound a) {site : InjectionSite}
    (hsite : site ∈ r.definition.sites) :
    Notices (r.siteTargets site) (Succeeds (r.siteScope site)) := by
  have hscope : site.element ∈ r.definition.content .sites := List.mem_map_of_mem hsite
  have hparameters (scope? : Option String) :
      Notices (site.parameters.filterMapM fun id => noting (r.targetOf scope? id)) True := by
    have hfiled (id : ElementId) (hid : id ∈ site.parameters) :
        id ∈ r.definition.content .parameters := List.mem_flatMap.mpr ⟨site, hsite, hid⟩
    exact (Notices.filterMapM fun id hid =>
      .noting (reads_targetOf ha hd (hfiled id hid) scope?)).imp fun _ => trivial
  rw [siteTargets]
  refine Notices.imp (S := _ ∧ True) (.bind (.noting (reads_textSlot ha hd hscope _)) fun o => ?_)
    And.left
  cases o with
  | none => exact .pure _
  | some scope? => exact hparameters scope?

theorem notices_checkLifecycle (ha : a.Tidy) (hd : r.definition.Sound a) (hid : id ∈ r.lifecycle) :
    Notices (r.checkLifecycle id) True := by
  have hfiled : ∃ p, id ∈ r.definition.content p := by
    simp only [lifecycle, List.mem_append] at hid
    rcases hid with ((hid | hid) | hid) | hid
    · exact ⟨.startup, hid⟩
    · exact ⟨.onError, hid⟩
    · exact ⟨.onLoaded, hid⟩
    · exact ⟨.beforeUnload, hid⟩
  obtain ⟨p, hp⟩ := hfiled
  have hread : Reads (do
      let e ← (r.element id : Except ScriptError _)
      Target.argumentsOf r.strict r.definition.arena e) fun _ => True := by
    refine reads_element hd hp fun e he => ?_
    rw [hd.arena]
    exact (Target.reads_argumentsOf ha he _).imp fun _ _ => trivial
  exact ((Notices.noting hread).bind fun _ => .pure _).imp fun _ => trivial

theorem notices_gather (ha : a.Tidy) (hd : r.definition.Sound a) :
    Notices r.gather r.Legible := by
  have hsites : Notices (r.definition.sites.mapM r.siteTargets)
      (∀ site ∈ r.definition.sites, Succeeds (r.siteScope site)) :=
    .mapM fun site hsite => notices_siteTargets ha hd hsite
  have hvariables : Notices
      (r.definition.injectedVariables.filterMapM fun id => noting (r.targetOf none id))
      (∀ id ∈ r.definition.injectedVariables, Succeeds (r.targetOf none id)) :=
    .filterMapM fun id hid => .noting (reads_targetOf ha hd (p := .variables) hid none)
  have htemplates : Notices (r.definition.templates.forM r.checkTemplate)
      (∀ id ∈ r.definition.templates, Succeeds (r.templateName id)) := by
    refine .forM fun id hid => ?_
    refine ((Notices.noting ?_).bind fun _ => .pure _).imp And.left
    exact reads_textSlot ha hd (p := .templates) hid "Target"
  have hlifecycle : Notices (r.lifecycle.forM r.checkLifecycle)
      (∀ id ∈ r.lifecycle, True) :=
    .forM fun id hid => notices_checkLifecycle ha hd hid
  rw [gather]
  refine (hsites.bind fun _ => hvariables.bind fun _ => htemplates.bind fun _ =>
    hlifecycle.bind fun _ => .pure _).imp ?_
  exact fun h => ⟨h.1, h.2.2.1⟩

/-- Reading the targets tells what can be mended, or what the host is told can be read. -/
theorem targets_mendable (ha : a.Tidy) (hd : r.definition.Sound a) :
    match r.targets.1 with
    | .ok _ => r.Legible
    | .error es => es ≠ [] ∧ ∀ e ∈ es, e.IsMendable := by
  obtain ⟨hmend, hlegible⟩ : (∀ e ∈ (r.gather.run {}).2.errors, e.IsMendable) ∧
      ((r.gather.run {}).2.errors = [] → _ ∧ r.Legible) := notices_gather ha hd {} nofun
  unfold targets
  generalize r.gather.run {} = gathered at hmend hlegible ⊢
  obtain ⟨found, notes⟩ := gathered
  dsimp only
  cases hnone : notes.errors with
  | nil => exact (hlegible hnone).2
  | cons e es => exact ⟨List.cons_ne_nil e es, fun d hd => hmend d (by rwa [hnone])⟩

theorem resolve_mendable (ha : a.Tidy) (hd : r.definition.Sound a)
    (find : ProviderKey → Option String → Option ProviderHandle) :
    match (r.resolve find).1 with
    | .ok _ => r.Legible
    | .error es => es ≠ [] ∧ ∀ e ∈ es, e.IsMendable := by
  have htargets := targets_mendable ha hd
  rw [resolve]
  generalize r.targets = targets at htargets ⊢
  obtain ⟨errors | found, warnings⟩ := targets
  · exact htargets
  · dsimp only
    generalize missing _ = keys
    cases keys with
    | nil => exact htargets
    | cons key keys =>
      refine ⟨List.cons_ne_nil _ _, fun e he => ?_⟩
      rw [List.mem_singleton.mp he]
      trivial

end Resolver

namespace Entrypoints

open Resolver (Succeeds)

/-- What the host is told can be put together when all of it can be read. -/
theorem succeeds_ofResolver {r : Resolver} (h : r.Legible) : Succeeds (ofResolver r) := by
  have hsite (site : InjectionSite) (hsite : site ∈ r.definition.sites) :
      Succeeds (siteEntry r site) := (h.1 site hsite).bind fun _ => .pure _
  exact (Succeeds.mapM hsite).bind fun _ => (Succeeds.mapM h.2).bind fun _ => .pure _

end Entrypoints

end ScriptInject
