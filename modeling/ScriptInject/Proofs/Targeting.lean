import Mathlib.Data.List.Forall2
import Mathlib.Data.List.Perm.Basic
import ScriptInject.Proofs.Building
import ScriptInject.Proofs.Registering
import ScriptInject.Grammar.Script
import ScriptInject.Target.Resolver
/-! The targets of a definition: one for each injected element, read in the scope of its own site,
and all of them looked up at once. -/
namespace ScriptInject

variable {α β : Type} {a : Arena} {d : Definition} {r : Resolver} {id : ElementId}
  {scope? : Option String} {Q : α → Prop} {R : α → β → Prop}

namespace Definition

/-- The elements that receive a value, in order. -/
def injectables (d : Definition) : List ElementId :=
  (List.range d.elements.length).filter fun id => (d.element? id).any (·.role.isInjectable)

theorem mem_injectables :
    id ∈ d.injectables ↔ ∃ e, d.element? id = some e ∧ e.role.isInjectable = true := by
  rw [injectables, List.mem_filter, List.mem_range, Option.any_eq_true]
  refine ⟨And.right, fun ⟨e, he, hr⟩ => ⟨?_, e, he, hr⟩⟩
  exact (List.getElem?_eq_some_iff.mp he).choose

theorem pairwise_injectables (d : Definition) : d.injectables.Pairwise (· < ·) :=
  List.pairwise_lt_range.filter _

theorem isInjectable_iff {role : Role} : role.isInjectable = true ↔
    role.drawer = .parameters ∨ role.drawer = .variables := by
  cases role <;> decide

/-- The parameters of the sites and the variables are the elements that receive a value. -/
theorem Ordered.injectables_perm (h : d.Ordered) :
    (d.sites.flatMap (·.parameters) ++ d.injectedVariables).Perm d.injectables := by
  change (d.content .parameters ++ d.content .variables).Perm d.injectables
  refine (List.perm_ext_iff_of_nodup ?_ (d.pairwise_injectables.imp Nat.ne_of_lt)).mpr fun id => ?_
  · refine List.nodup_append.mpr ⟨(h.filed _).nodup_iff.mpr nodup_due,
      (h.filed _).nodup_iff.mpr nodup_due, ?_⟩
    rintro i hi _ hj rfl
    obtain ⟨e, he, hparameter⟩ := h.mem_iff.mp hi
    obtain ⟨f, hf, hvariable⟩ := h.mem_iff.mp hj
    obtain rfl := Option.some.inj (he.symm.trans hf)
    exact absurd (hparameter.symm.trans hvariable) (by decide)
  · rw [List.mem_append, h.mem_iff, h.mem_iff, mem_injectables, ← exists_or]
    simp only [isInjectable_iff, ← and_or_left]

end Definition

namespace Target

/-- Whatever has been warned of before, the reading gives a value. -/
def Yields (x : Reading α) (v : α) : Prop := ∀ ws, ∃ ws', x ws = .ok v ws'

theorem Yields.unique {x : Reading α} {v w : α} (hv : Yields x v) (hw : Yields x w) : v = w := by
  obtain ⟨ws, hv⟩ := hv []
  obtain ⟨ws', hw⟩ := hw []
  exact (EStateM.Result.ok.inj (hv.symm.trans hw)).1

/-- Whatever has been warned of before, the reading fails in one way. -/
def Fails (x : Reading α) (e : ScriptError) : Prop := ∀ ws, ∃ ws', x ws = .error e ws'

/-- What has been warned of before does not matter. -/
def Steady (x : Reading α) : Prop := (∃ v, Yields x v) ∨ ∃ e, Fails x e

theorem bind_run (x : Reading α) (f : α → Reading β) (ws : List Warning) :
    (x >>= f) ws = match x ws with
      | .ok v ws' => f v ws'
      | .error e ws' => .error e ws' := by
  change EStateM.bind x f ws = _
  rw [EStateM.bind]
  cases x ws <;> rfl

theorem ok_of_bind {x : Reading α} {f : α → Reading β} {ws ws' : List Warning} {w : β}
    (h : (x >>= f) ws = .ok w ws') : ∃ v ws'', x ws = .ok v ws'' ∧ f v ws'' = .ok w ws' := by
  rw [bind_run] at h
  cases hx : x ws with
  | ok v ws'' => exact ⟨v, ws'', rfl, by rwa [hx] at h⟩
  | error e ws'' => simp [hx] at h

namespace Steady

variable {x : Reading α} {f : α → Reading β}

theorem pure (v : α) : Steady (pure v) := .inl ⟨v, fun ws => ⟨ws, rfl⟩⟩

theorem throw (e : ScriptError) : Steady (throw e : Reading α) := .inr ⟨e, fun ws => ⟨ws, rfl⟩⟩

theorem lift (o : Except ScriptError α) : Steady (liftM o) := by
  cases o with
  | ok v => exact .pure v
  | error e => exact .throw e

theorem modify (g : List Warning → List Warning) : Steady (modify g : Reading Unit) :=
  .inl ⟨(), fun ws => ⟨g ws, rfl⟩⟩

theorem bind (h : Steady x) (hf : ∀ v, Steady (f v)) : Steady (x >>= f) := by
  rcases h with ⟨v, hx⟩ | ⟨e, hx⟩
  · rcases hf v with ⟨w, hv⟩ | ⟨e, hv⟩
    · refine .inl ⟨w, fun ws => ?_⟩
      obtain ⟨ws', hrun⟩ := hx ws
      rw [bind_run, hrun]
      exact hv ws'
    · refine .inr ⟨e, fun ws => ?_⟩
      obtain ⟨ws', hrun⟩ := hx ws
      rw [bind_run, hrun]
      exact hv ws'
  · refine .inr ⟨e, fun ws => ?_⟩
    obtain ⟨ws', hrun⟩ := hx ws
    exact ⟨ws', by rw [bind_run, hrun]⟩

theorem forM {g : α → Reading Unit} (h : ∀ v, Steady (g v)) (xs : List α) :
    Steady (xs.forM g) := by
  induction xs with
  | nil => exact .pure ()
  | cons v xs ih => exact (h v).bind fun _ => ih

theorem yields {v : α} {ws ws' : List Warning} (h : Steady x) (hrun : x ws = .ok v ws') :
    Yields x v := by
  rcases h with ⟨w, hx⟩ | ⟨e, hx⟩
  · obtain ⟨ws'', hw⟩ := hx ws
    obtain ⟨rfl, -⟩ := EStateM.Result.ok.inj (hrun.symm.trans hw)
    exact hx
  · obtain ⟨ws'', he⟩ := hx ws
    exact absurd (hrun.symm.trans he) nofun

end Steady

theorem steady_argumentsOf (strict : Bool) (a : Arena) (e : Element) :
    Steady (argumentsOf strict a e) := by
  have hunknown (args : Arguments) (argument : String) :
      Steady (unknownArgument strict args argument) := by
    rw [unknownArgument]
    split
    · exact .throw _
    · exact .modify _
  refine (Steady.lift _).bind fun args => ?_
  refine Steady.bind (.forM (fun p => ?_) _) fun _ => ?_
  · dsimp only
    split
    · exact .pure ()
    · exact hunknown args p.1
  · split
    · exact (hunknown args _).bind fun _ => .pure args
    · exact .pure args

theorem steady_ofElement (strict : Bool) (a : Arena) (scope? : Option String) (e : Element) :
    Steady (ofElement strict a scope? e) :=
  (steady_argumentsOf strict a e).bind fun _ => (Steady.lift _).bind fun _ =>
    (Steady.lift _).bind fun _ => (Steady.lift _).bind fun _ => .pure _

end Target

namespace Resolver

open Target (Reading Yields Steady)

theorem steady_textSlot (r : Resolver) (id : ElementId) (name : String) :
    Steady (r.textSlot id name) :=
  (Steady.lift _).bind fun _ => (Target.steady_argumentsOf _ _ _).bind fun _ => .lift _

theorem steady_siteScope (r : Resolver) (site : InjectionSite) : Steady (r.siteScope site) :=
  steady_textSlot r site.element "Scope"

theorem steady_templateName (r : Resolver) (id : ElementId) : Steady (r.templateName id) :=
  steady_textSlot r id "Target"

theorem steady_targetOf (r : Resolver) (scope? : Option String) (id : ElementId) :
    Steady (r.targetOf scope? id) :=
  (Steady.lift _).bind fun _ => (Target.steady_ofElement _ _ _ _).bind fun _ => .pure _

theorem yields_targetOf {p : ElementId × Target} (h : Yields (r.targetOf scope? id) p) :
    p.1 = id ∧ p.2.scope? = scope? := by
  obtain ⟨ws, hrun⟩ := h []
  obtain ⟨e, _, -, hread⟩ := Target.ok_of_bind hrun
  obtain ⟨t, _, htarget, hpair⟩ := Target.ok_of_bind hread
  obtain ⟨rfl, -⟩ := EStateM.Result.ok.inj hpair
  obtain ⟨args, _, -, hkey⟩ := Target.ok_of_bind htarget
  obtain ⟨key, _, -, hoptional⟩ := Target.ok_of_bind hkey
  obtain ⟨optional, _, -, hconnection⟩ := Target.ok_of_bind hoptional
  obtain ⟨connection?, _, -, hmade⟩ := Target.ok_of_bind hconnection
  obtain ⟨rfl, -⟩ := EStateM.Result.ok.inj hmade
  exact ⟨rfl, rfl⟩

/-- Where no error is noted in the end, none was noted before, and the result has some property. -/
def Collects (x : Gathering α) (Q : α → Prop) : Prop :=
  ∀ notes : Notes, (x notes).2.errors = [] → notes.errors = [] ∧ Q (x notes).1

namespace Collects

variable {x : Gathering α} {f : α → Gathering β}

theorem pure {v : α} (h : Q v) : Collects (pure v) Q := fun _ hnone => ⟨hnone, h⟩

theorem bind (h : Collects x Q) (hf : ∀ v, Collects (f v) (R v)) :
    Collects (x >>= f) fun w => ∃ v, Q v ∧ R v w := by
  intro notes hnone
  obtain ⟨hnone', hr⟩ := hf (x notes).1 (x notes).2 hnone
  obtain ⟨hnone'', hq⟩ := h notes hnone'
  exact ⟨hnone'', _, hq, hr⟩

theorem imp {P : α → Prop} (h : Collects x P) (hpq : ∀ v, P v → Q v) : Collects x Q :=
  fun notes hnone => ⟨(h notes hnone).1, hpq _ (h notes hnone).2⟩

theorem noting {y : Reading α} (h : Steady y) :
    Collects (noting y) fun o => ∃ v, o = some v ∧ Yields y v := by
  intro notes hnone
  rw [Resolver.noting, EStateM.run] at hnone ⊢
  cases hrun : y notes.warnings with
  | ok v ws =>
    rw [hrun] at hnone
    exact ⟨hnone, v, rfl, h.yields hrun⟩
  | error e ws =>
    rw [hrun] at hnone
    exact absurd hnone (by simp)

/-- A reading whose value is not used. -/
theorem unit {y : Reading α} (h : Steady y) :
    Collects (do let _ ← Resolver.noting y : Gathering Unit) fun _ => True :=
  (bind (R := fun _ _ => True) (noting h) fun _ => pure trivial).imp fun _ _ => trivial

theorem mapM {g : α → Gathering β} (h : ∀ v, Collects (g v) (R v)) (xs : List α) :
    Collects (xs.mapM g) (List.Forall₂ R xs) := by
  induction xs with
  | nil => exact pure .nil
  | cons v xs ih =>
    rw [List.mapM_cons]
    refine ((h v).bind fun _ => ih.bind fun _ => pure rfl).imp ?_
    rintro ws ⟨w, hw, ws', hws, rfl⟩
    exact .cons hw hws

theorem filterMapM {g : α → Gathering (Option β)}
    (h : ∀ v, Collects (g v) fun o => ∃ w, o = some w ∧ R v w) (xs : List α) :
    Collects (xs.filterMapM g) (List.Forall₂ R xs) := by
  induction xs with
  | nil => exact pure .nil
  | cons v xs ih =>
    rw [List.filterMapM_cons]
    refine ((h v).bind (R := fun o ws => ∀ w, o = some w → R v w → List.Forall₂ R (v :: xs) ws)
      fun o => ?_).imp ?_
    · cases o with
      | none => exact ih.imp fun _ _ => nofun
      | some w =>
        refine (ih.bind fun _ => pure rfl).imp ?_
        rintro ws ⟨ws', hws, rfl⟩ w' ⟨⟩ hw
        exact .cons hw hws
    · rintro ws ⟨o, ⟨w, ho, hw⟩, hws⟩
      exact hws w ho hw

theorem forM {g : α → Gathering Unit} (h : ∀ v, Collects (g v) fun _ => True) (xs : List α) :
    Collects (xs.forM g) fun _ => True := by
  induction xs with
  | nil => exact pure trivial
  | cons v xs ih => exact ((h v).bind fun _ => ih).imp fun _ _ => trivial

end Collects

/-- The targets of some elements in a scope. -/
def TargetsIn (r : Resolver) (scope? : Option String) :
    List ElementId → List (ElementId × Target) → Prop :=
  List.Forall₂ fun id p => Yields (r.targetOf scope? id) p

/-- The targets of a site are those of its parameters in its scope. -/
def SiteTargets (r : Resolver) (site : InjectionSite) (ts : List (ElementId × Target)) : Prop :=
  ∃ scope?, Yields (r.siteScope site) scope? ∧ r.TargetsIn scope? site.parameters ts

theorem collects_targets (r : Resolver) (scope? : Option String) (ids : List ElementId) :
    Collects (ids.filterMapM fun id => noting (r.targetOf scope? id)) (r.TargetsIn scope? ids) :=
  .filterMapM (fun id => .noting (steady_targetOf r scope? id)) ids

theorem collects_siteTargets (r : Resolver) (site : InjectionSite) :
    Collects (r.siteTargets site) (r.SiteTargets site) := by
  refine ((Collects.noting (steady_siteScope r site)).bind
    (R := fun o ts => ∀ scope?, o = some scope? → Yields (r.siteScope site) scope? →
      r.SiteTargets site ts) fun o => ?_).imp ?_
  · cases o with
    | none => exact .pure fun _ => nofun
    | some scope? =>
      refine (collects_targets r scope? site.parameters).imp fun ts hts => ?_
      rintro _ ⟨⟩ hscope
      exact ⟨scope?, hscope, hts⟩
  · rintro ts ⟨o, ⟨scope?, ho, hscope⟩, hts⟩
    exact hts scope? ho hscope

/-- What is found where no error is told: the targets of each site, and those of the variables in no
scope. -/
theorem collects_gather (r : Resolver) : Collects r.gather fun ts =>
    ∃ tss vs, List.Forall₂ r.SiteTargets r.definition.sites tss ∧
      r.TargetsIn none r.definition.injectedVariables vs ∧
        ts = tss.flatten ++ vs := by
  have htemplates : Collects (r.definition.templates.forM r.checkTemplate) fun _ => True :=
    .forM (fun id => .unit (steady_templateName r id)) _
  have hlifecycle : Collects (r.lifecycle.forM r.checkLifecycle) fun _ => True :=
    .forM (fun id => .unit ((Steady.lift _).bind fun _ => Target.steady_argumentsOf _ _ _)) _
  rw [gather]
  refine ((Collects.mapM (collects_siteTargets r) _).bind fun tss =>
    (collects_targets r none _).bind fun vs => htemplates.bind fun _ =>
      hlifecycle.bind fun _ => .pure rfl).imp ?_
  rintro ts ⟨tss, htss, vs, hvs, _, -, _, -, rfl⟩
  exact ⟨tss, vs, htss, hvs, rfl⟩

theorem map_fst_of_yields {ids : List ElementId} {ts : List (ElementId × Target)}
    (h : r.TargetsIn scope? ids ts) : ts.map (·.1) = ids := by
  induction h with
  | nil => rfl
  | cons hp _ ih => rw [List.map_cons, ih, (yields_targetOf hp).1]

theorem map_fst_of_sites {sites : List InjectionSite} {tss : List (List (ElementId × Target))}
    (h : List.Forall₂ r.SiteTargets sites tss) :
    tss.flatten.map (·.1) = sites.flatMap (·.parameters) := by
  induction h with
  | nil => rfl
  | cons hts _ ih =>
    obtain ⟨scope?, -, hall⟩ := hts
    rw [List.flatten_cons, List.map_append, ih, map_fst_of_yields hall, List.flatMap_cons]

/-- The scope in which an element is injected: that of the site whose parameter it is, and none for
a variable. -/
inductive ScopeOf (r : Resolver) (id : ElementId) : Option String → Prop
  | unscoped (h : id ∈ r.definition.injectedVariables) : ScopeOf r id none
  | sited {site : InjectionSite} {scope? : Option String} (hsite : site ∈ r.definition.sites)
    (h : id ∈ site.parameters) (hscope : Yields (r.siteScope site) scope?) : ScopeOf r id scope?

theorem exists_left {xs : List α} {ys : List β} (h : List.Forall₂ R xs ys)
    {y : β} (hy : y ∈ ys) : ∃ x ∈ xs, R x y := by
  induction h with
  | nil => exact absurd hy nofun
  | cons hr _ ih =>
    rcases List.mem_cons.mp hy with rfl | hy
    · exact ⟨_, List.mem_cons_self, hr⟩
    · obtain ⟨x, hx, hxy⟩ := ih hy
      exact ⟨x, List.mem_cons_of_mem _ hx, hxy⟩

/-- Each parameter belongs to one site, and no variable does. -/
theorem ScopeOf.unique (h : r.definition.Ordered) {s s' : Option String} (hs : r.ScopeOf id s)
    (hs' : r.ScopeOf id s') : s = s' := by
  have hnodup := h.injectables_perm.nodup_iff.mpr
    (r.definition.pairwise_injectables.imp Nat.ne_of_lt)
  obtain ⟨hparameters, -, hapart⟩ := List.nodup_append.mp hnodup
  have hvariable {site : InjectionSite} (hsite : site ∈ r.definition.sites)
      (hid : id ∈ site.parameters) (hv : id ∈ r.definition.injectedVariables) : False :=
    hapart id (List.mem_flatMap.mpr ⟨site, hsite, hid⟩) id hv rfl
  cases hs with
  | unscoped hv =>
    cases hs' with
    | unscoped => rfl
    | sited hsite hid => exact (hvariable hsite hid hv).elim
  | @sited site _ hsite hid hscope =>
    cases hs' with
    | unscoped hv => exact (hvariable hsite hid hv).elim
    | @sited site' _ hsite' hid' hscope' =>
      have hapart := (List.nodup_flatMap.mp hparameters).2
      have hsame : site = site' := List.Pairwise.forall_of_forall_of_flip
        (R := fun x y => id ∈ x.parameters → id ∈ y.parameters → x = y) (fun _ _ _ _ => rfl)
        (hapart.imp fun h hx hy => (h hx hy).elim) (hapart.imp fun h hy hx => (h hx hy).elim)
        hsite hsite' hid hid'
      subst hsame
      exact hscope.unique hscope'

theorem targets_fst (r : Resolver) : r.targets.1 =
    if (r.gather.run {}).2.errors.isEmpty then
      .ok ((r.gather.run {}).1.mergeSort fun s t => decide (s.1 ≤ t.1))
    else .error (r.gather.run {}).2.errors := by
  unfold targets
  generalize r.gather.run {} = gathered
  obtain ⟨found, notes⟩ := gathered
  dsimp only
  split <;> rfl

theorem targets_eq_ok {ts : List (ElementId × Target)} (h : r.targets.1 = .ok ts) :
    ∃ tss vs, List.Forall₂ r.SiteTargets r.definition.sites tss ∧
      r.TargetsIn none r.definition.injectedVariables vs ∧
        ts = (tss.flatten ++ vs).mergeSort fun s t => decide (s.1 ≤ t.1) := by
  have hfound : (r.gather.run {}).2.errors = [] → _ ∧ ∃ tss vs,
      List.Forall₂ r.SiteTargets r.definition.sites tss ∧
        r.TargetsIn none r.definition.injectedVariables vs ∧
          (r.gather.run {}).1 = tss.flatten ++ vs := collects_gather r {}
  rw [targets_fst] at h
  split at h
  · rename_i hnone
    obtain ⟨-, tss, vs, htss, hvs, hall⟩ := hfound (List.isEmpty_iff.mp hnone)
    exact ⟨tss, vs, htss, hvs, by rw [← Except.ok.inj h, hall]⟩
  · exact absurd h nofun

variable {ts : List (ElementId × Target)}

/-- The targets are those of the elements that receive a value, each once and in order. -/
theorem map_fst_targets (hd : r.definition.Ordered) (h : r.targets.1 = .ok ts) :
    ts.map (·.1) = r.definition.injectables := by
  obtain ⟨tss, vs, htss, hvs, rfl⟩ := targets_eq_ok h
  have hperm : (((tss.flatten ++ vs).mergeSort fun s t => decide (s.1 ≤ t.1)).map (·.1)).Perm
      r.definition.injectables := by
    refine ((List.mergeSort_perm _ _).map _).trans ?_
    rw [List.map_append, map_fst_of_sites htss, map_fst_of_yields hvs]
    exact hd.injectables_perm
  have hsorted : ((tss.flatten ++ vs).mergeSort fun s t => decide (s.1 ≤ t.1)).Pairwise
      fun s t => s.1 ≤ t.1 := by
    refine (List.pairwise_mergeSort (fun s t u hst htu => ?_) (fun s t => ?_) _).imp
      fun h => of_decide_eq_true h
    · exact decide_eq_true (Nat.le_trans (of_decide_eq_true hst) (of_decide_eq_true htu))
    · simpa using Nat.le_total s.1 t.1
  exact List.Perm.eq_of_pairwise (fun _ _ _ _ => Nat.le_antisymm) (List.pairwise_map.mpr hsorted)
    (r.definition.pairwise_injectables.imp Nat.le_of_lt) hperm

/-- A target is what its element asks for, in the scope in which it is injected. -/
theorem scopeOf_targets (hd : r.definition.Ordered) (h : r.targets.1 = .ok ts)
    {p : ElementId × Target} (hp : p ∈ ts) :
    Yields (r.targetOf p.2.scope? p.1) p ∧ ∀ s, r.ScopeOf p.1 s ↔ s = p.2.scope? := by
  obtain ⟨tss, vs, htss, hvs, rfl⟩ := targets_eq_ok h
  have hfound : Yields (r.targetOf p.2.scope? p.1) p ∧ r.ScopeOf p.1 p.2.scope? := by
    rcases List.mem_append.mp (List.mem_mergeSort.mp hp) with hp | hp
    · obtain ⟨ts, hts, hp⟩ := List.mem_flatten.mp hp
      obtain ⟨site, hsite, scope?, hscope, hall⟩ := exists_left htss hts
      obtain ⟨id, hid, hyields⟩ := exists_left hall hp
      obtain ⟨rfl, rfl⟩ := yields_targetOf hyields
      exact ⟨hyields, .sited hsite hid hscope⟩
    · obtain ⟨id, hid, hyields⟩ := exists_left hvs hp
      obtain ⟨rfl, hnone⟩ := yields_targetOf hyields
      rw [hnone]
      exact ⟨hyields, .unscoped hid⟩
  exact ⟨hfound.1, fun s => ⟨fun hs => hs.unique hd hfound.2, fun hs => hs ▸ hfound.2⟩⟩

theorem missing_eq (bindings : List Binding) : missing bindings =
    ((bindings.filter fun b => b.provider?.isNone && !b.target.optional).map
      (·.target.key.describe)).eraseDups := by
  rw [missing]
  generalize bindings.filter _ = unserved
  induction unserved using List.reverseRecOn with
  | nil => rfl
  | append_singleton bs b ih =>
    rw [List.foldl_concat, ih, List.map_append, List.map_singleton, eraseDups_concat]
    simp [List.mem_eraseDups]

/-- Whether something serves a target, or it can do without. -/
def Settled (find : ProviderKey → Option String → Option ProviderHandle) (t : Target) : Bool :=
  t.optional || (find t.key t.scope?).isSome

/-- What looking targets up comes to: a binding for each of them, in their order, if all are
settled, and otherwise one error with what is missing, each once. -/
def outcome (find : ProviderKey → Option String → Option ProviderHandle)
    (ts : List (ElementId × Target)) : Except (List ScriptError) (List Binding) :=
  if ∀ p ∈ ts, Settled find p.2 = true then
    .ok (ts.map fun p => ⟨p.1, p.2, find p.2.key p.2.scope?⟩)
  else .error [.missingProvider
    ((ts.filter fun p => !Settled find p.2).map (·.2.key.describe)).eraseDups]

theorem resolve_of_targets (h : r.targets.1 = .ok ts)
    (find : ProviderKey → Option String → Option ProviderHandle) :
    (r.resolve find).1 = outcome find ts := by
  have hkeys : missing (ts.map fun p => ⟨p.1, p.2, find p.2.key p.2.scope?⟩) =
      ((ts.filter fun p => !Settled find p.2).map (·.2.key.describe)).eraseDups := by
    rw [missing_eq, List.filter_map, List.map_map]
    congr 2
    refine List.filter_congr fun p _ => ?_
    simp [Settled, Bool.and_comm]
  unfold resolve outcome
  generalize r.targets = targets at h
  obtain ⟨_, warnings⟩ := targets
  obtain rfl : _ = Except.ok ts := h
  dsimp only
  rw [hkeys]
  by_cases hall : ∀ p ∈ ts, Settled find p.2 = true
  · have hnone : ts.filter (fun p => !Settled find p.2) = [] :=
      List.filter_eq_nil_iff.mpr fun p hp => by simp [hall p hp]
    rw [if_pos hall, hnone]
    rfl
  · obtain ⟨p, hp, hunsettled⟩ : ∃ p ∈ ts, ¬ Settled find p.2 = true := by
      simpa only [not_forall, exists_prop] using hall
    have hkey : p.2.key.describe ∈ ((ts.filter fun p => !Settled find p.2).map
        (·.2.key.describe)).eraseDups := by
      have hmem : p ∈ ts.filter fun p => !Settled find p.2 :=
        List.mem_filter.mpr ⟨hp, by simpa using hunsettled⟩
      exact List.mem_eraseDups.mpr (List.mem_map_of_mem hmem)
    obtain ⟨key, keys, hsome⟩ := List.exists_cons_of_ne_nil (List.ne_nil_of_mem hkey)
    rw [if_neg hall, hsome]

theorem resolve_of_targets_error {es : List ScriptError} (h : r.targets.1 = .error es)
    (find : ProviderKey → Option String → Option ProviderHandle) :
    (r.resolve find).1 = .error es := by
  unfold resolve
  generalize r.targets = targets at h ⊢
  obtain ⟨_, warnings⟩ := targets
  obtain rfl : _ = Except.error es := h
  rfl

/-- If the targets of a definition can be read, there is one for each element that receives a value,
in the order of the elements and in the scope of its own site, and all of them are looked up. -/
theorem resolve_complete (hd : Builder.Gives a d) (strict : Bool)
    (find : ProviderKey → Option String → Option ProviderHandle) :
    let r : Resolver := ⟨d, strict⟩
    match r.targets.1 with
    | .error es => (r.resolve find).1 = .error es
    | .ok ts =>
      ts.map (·.1) = d.injectables ∧
      (∀ p ∈ ts, Yields (r.targetOf p.2.scope? p.1) p ∧ ∀ s, r.ScopeOf p.1 s ↔ s = p.2.scope?) ∧
      (r.resolve find).1 = outcome find ts := by
  intro r
  cases h : r.targets.1 with
  | error es => exact resolve_of_targets_error h find
  | ok ts =>
    have hids : ts.map (·.1) = r.definition.injectables := map_fst_targets hd.ordered h
    exact ⟨hids, fun p hp => scopeOf_targets hd.ordered h hp, resolve_of_targets h find⟩

/-- A parameter in the scope of its site, and a variable whose element comes before it. -/
theorem resolve_siteAndVariable : ∃ a d ts, Builder.Gives a d ∧
    (⟨d, false⟩ : Resolver).targets.1 = .ok ts ∧ d.injectables = [1, 2] ∧
      ts.map (·.1) = d.injectables ∧
      (∀ p ∈ ts, Yields ((⟨d, false⟩ : Resolver).targetOf p.2.scope? p.1) p ∧
        ∀ s, (⟨d, false⟩ : Resolver).ScopeOf p.1 s ↔ s = p.2.scope?) ∧
      ((⟨d, false⟩ : Resolver).resolve ({} : Registry).resolve).1 =
        outcome ({} : Registry).resolve ts := by
  have hok : ((Script.parse
      "function F \x7b [InjectionSite('Jobs')] param([Inject()]$p) \x7d\n[Inject('x')]$v").toOption.any
    fun a => (Survey.ofArena? a).toOption.any fun survey =>
      (Definition.ofSurvey? a survey).toOption.any fun d =>
        d.injectables == [1, 2] && ((⟨d, false⟩ : Resolver).gather.run {}).2.errors.isEmpty) =
      true := by decide +kernel
  obtain ⟨a, -, hok⟩ := (Option.any_eq_true _ _).mp hok
  obtain ⟨survey, -, hok⟩ := (Option.any_eq_true _ _).mp hok
  obtain ⟨d, hd, hok⟩ := (Option.any_eq_true _ _).mp hok
  obtain ⟨hids, hnone⟩ := Bool.and_eq_true_iff.mp hok
  have hgives : Builder.Gives a d := by
    cases hdefinition : Definition.ofSurvey? a survey with
    | error e => simp [hdefinition, Except.toOption] at hd
    | ok given =>
      simp only [hdefinition, Except.toOption, Option.some.injEq] at hd
      exact hd ▸ Builder.gives_of_ofSurvey? hdefinition
  have hcomplete := resolve_complete hgives false ({} : Registry).resolve
  have htargets := targets_fst ⟨d, false⟩
  rw [if_pos hnone] at htargets
  dsimp only at hcomplete
  rw [htargets] at hcomplete
  exact ⟨a, d, _, hgives, htargets, eq_of_beq hids, hcomplete⟩

end Resolver

end ScriptInject
