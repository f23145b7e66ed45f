import Std.Data.TreeMap.Lemmas
import ScriptInject.Proofs.Building
import ScriptInject.Proofs.Mirror.Surveying
/-! Building from surveys that mirror each other makes the same definition, at the renamed ids. -/
namespace ScriptInject

variable {ρ : NodeId → NodeId} {ids : List NodeId} {a b : Arena}

def Element.renamed (ρ : NodeId → NodeId) (e : Element) : Element :=
  ⟨e.role, ρ e.node, ρ e.mark, e.declaration?.map ρ⟩

namespace Definition

/-- The same elements at other ids of another arena. -/
def renamed (ρ : NodeId → NodeId) (b : Arena) (d : Definition) : Definition :=
  { d with arena := b, elements := d.elements.map (Element.renamed ρ) }

/-- The elements stand at certain ids. -/
def Within (ids : List NodeId) (d : Definition) : Prop :=
  ∀ e ∈ d.elements, e.node ∈ ids ∧ e.mark ∈ ids

theorem element?_renamed (d : Definition) (id : ElementId) :
    (d.renamed ρ b).element? id = (d.element? id).map (Element.renamed ρ) := by
  simp [element?, renamed]

theorem Within.element? {d : Definition} {e : Element} {id : ElementId} (h : d.Within ids)
    (he : d.element? id = some e) : e.node ∈ ids ∧ e.mark ∈ ids := h e (List.mem_of_getElem? he)

end Definition

namespace Builder

variable {α β : Type}

/-- Two builders that have come as far as each other. -/
structure Mirrors (ρ : NodeId → NodeId) (ids : List NodeId) (a b : Arena) (s s' : Builder) :
    Prop where
  arena : s.definition.arena = a
  definition : s'.definition = s.definition.renamed ρ b
  byNode : ∀ i, s'.byNode[ρ i]? = s.byNode[i]?
  siteIndex : ∀ i, s'.siteIndex[ρ i]? = s.siteIndex[i]?
  finalized : s'.finalized = s.finalized
  within : s.definition.Within ids

/-! Steps that register candidates. -/

theorem ensureOpen_corresponds : Corresponds (Mirrors ρ ids a b) Eq ensureOpen ensureOpen := by
  refine .get_bind fun t t' ht => ?_
  rw [ht.finalized]
  cases t.finalized with
  | false => exact .ok rfl ht
  | true => exact .error _ ht

/-- A look-up by a renamed id in two maps that correspond. -/
theorem insert_renamed {v : Nat} {m m' : Std.TreeMap NodeId Nat} (hρ : Function.Injective ρ)
    (h : ∀ i, m'[ρ i]? = m[i]?) (node i : NodeId) :
    (m'.insert (ρ node) v)[ρ i]? = (m.insert node v)[i]? := by
  rw [Std.TreeMap.getElem?_insert, Std.TreeMap.getElem?_insert, h]
  simp [hρ.eq_iff]

variable (h : Arena.Mirrors ρ ids a b)
include h

theorem register_corresponds (role : Role) {c : Candidate} (hnode : c.node ∈ ids)
    (hmark : c.mark ∈ ids) :
    Corresponds (Mirrors ρ ids a b) Eq (register role c) (register role (c.renamed ρ)) := by
  refine ensureOpen_corresponds.andThen fun _ => .get_bind fun t t' ht => ?_
  have hlookup : t'.byNode[(c.renamed ρ).node]? = t.byNode[c.node]? := ht.byNode c.node
  dsimp only
  rw [hlookup, ht.definition]
  cases t.byNode[c.node]? with
  | some id =>
    dsimp only
    rw [Definition.element?_renamed]
    cases he : t.definition.element? id with
    | none => exact .ok rfl ht
    | some e =>
      have hlabel : (t.definition.renamed ρ b).arena.label (c.renamed ρ).node =
          t.definition.arena.label c.node := by
        rw [ht.arena]
        exact h.label_eq hnode
      dsimp only [Option.map_some]
      rw [hlabel]
      by_cases hrole : e.role = role
      · rw [if_pos hrole, if_pos (show (e.renamed ρ).role = role from hrole)]
        exact .ok rfl ht
      · rw [if_neg hrole, if_neg (show (e.renamed ρ).role ≠ role from hrole)]
        exact .error _ ht
  | none =>
    dsimp only [Definition.renamed]
    rw [List.length_map]
    refine .ok rfl ⟨ht.arena, ?_, insert_renamed h.injective ht.byNode c.node, ht.siteIndex,
      ht.finalized, ?_⟩
    · simp [Definition.renamed, Element.renamed, Candidate.renamed]
    · intro e he
      rcases List.mem_append.mp he with he | he
      · exact ht.within e he
      · obtain rfl := List.mem_singleton.mp he
        exact ⟨hnode, hmark⟩

/-- Filing an element has no regard to nodes. -/
structure Filing (ρ : NodeId → NodeId) (b : Arena) (file : Definition → Definition) : Prop where
  renamed : ∀ d, file (d.renamed ρ b) = (file d).renamed ρ b
  arena : ∀ d, (file d).arena = d.arena
  elements : ∀ d, (file d).elements = d.elements

omit h in
theorem edit_corresponds {file : Definition → Definition} (hfile : Filing ρ b file) :
    Corresponds (Mirrors ρ ids a b) Eq (edit file) (edit file) := by
  refine .modify fun t t' ht => ⟨?_, ?_, ht.byNode, ht.siteIndex, ht.finalized, ?_⟩
  · exact (hfile.arena _).trans ht.arena
  · exact (congrArg file ht.definition).trans (hfile.renamed _)
  · intro e he
    exact ht.within e ((hfile.elements t.definition) ▸ he)

theorem enter_corresponds (role : Role) {c : Candidate} (hnode : c.node ∈ ids)
    (hmark : c.mark ∈ ids) {file : ElementId → Definition → Definition}
    (hfile : ∀ id, Filing ρ b (file id)) :
    Corresponds (Mirrors ρ ids a b) Eq (enter role c file) (enter role (c.renamed ρ) file) := by
  refine (register_corresponds h role hnode hmark).andThen fun p => ?_
  obtain ⟨id, isNew⟩ := p
  cases isNew with
  | true => exact (edit_corresponds (hfile id)).andThen fun _ => .pure rfl
  | false => exact .pure rfl

theorem addSite_corresponds {c : Candidate} (hnode : c.node ∈ ids) (hmark : c.mark ∈ ids) :
    Corresponds (Mirrors ρ ids a b) Eq (addSite c) (addSite (c.renamed ρ)) := by
  refine (register_corresponds h .injectionSite hnode hmark).andThen fun p => ?_
  obtain ⟨id, isNew⟩ := p
  cases isNew with
  | true =>
    refine Corresponds.andThen (.modify fun t t' ht => ?_) fun _ => .pure rfl
    obtain ⟨harena, hdefinition, hbyNode, hsiteIndex, hfinalized, hwithin⟩ := ht
    refine ⟨harena, ?_, hbyNode, ?_, hfinalized, hwithin⟩
    · rw [hdefinition]
      rfl
    · rw [hdefinition]
      exact insert_renamed h.injective hsiteIndex c.node
  | false => exact .pure rfl

theorem setStartup_corresponds {c : Candidate} (hnode : c.node ∈ ids) (hmark : c.mark ∈ ids) :
    Corresponds (Mirrors ρ ids a b) Eq (setStartup c) (setStartup (c.renamed ρ)) := by
  refine ensureOpen_corresponds.andThen fun _ => .get_bind fun t t' ht => ?_
  dsimp only
  rw [show t'.definition.startup? = t.definition.startup? by rw [ht.definition]; rfl]
  cases t.definition.startup? with
  | some id =>
    have hlabel : t'.definition.label id = t.definition.label id := by
      rw [ht.definition, Definition.label, Definition.label, Definition.element?_renamed]
      cases he : t.definition.element? id with
      | none => rfl
      | some e =>
        rw [ht.arena]
        exact h.label_eq (ht.within.element? he).1
    have hlabel' : t'.definition.arena.label (c.renamed ρ).node =
        t.definition.arena.label c.node := by
      rw [ht.definition, ht.arena]
      exact h.label_eq hnode
    dsimp only
    rw [hlabel, hlabel']
    exact .error _ ht
  | none =>
    refine (register_corresponds h .startup hnode hmark).andThen (fun p => ?_) t t' ht
    exact (edit_corresponds (by exact ⟨fun _ => rfl, fun _ => rfl, fun _ => rfl⟩)).andThen
      fun _ => .pure rfl

theorem addParameter_corresponds {function : NodeId} {c : Candidate} (hfunction : function ∈ ids)
    (hnode : c.node ∈ ids) (hmark : c.mark ∈ ids) :
    Corresponds (Mirrors ρ ids a b) Eq (addParameter function c)
      (addParameter (ρ function) (c.renamed ρ)) := by
  refine ensureOpen_corresponds.andThen fun _ => .get_bind fun t t' ht => ?_
  rw [ht.siteIndex]
  cases t.siteIndex[function]? with
  | none =>
    have hlabel {i : NodeId} (hi : i ∈ ids) :
        t'.definition.arena.label (ρ i) = t.definition.arena.label i := by
      rw [ht.definition, ht.arena]
      exact h.label_eq hi
    dsimp only
    rw [hlabel hfunction, show t'.definition.arena.label (c.renamed ρ).node = _ from hlabel hnode]
    exact .error _ ht
  | some i =>
    exact enter_corresponds h .injectParameter hnode hmark
      (fun _ => by exact ⟨fun _ => rfl, fun _ => rfl, fun _ => rfl⟩) t t' ht

theorem add_corresponds (role : Role) {c : Candidate} (hnode : c.node ∈ ids)
    (hmark : c.mark ∈ ids) :
    Corresponds (Mirrors ρ ids a b) Eq (add role c) (add role (c.renamed ρ)) := by
  have henter (role : Role) {file : ElementId → Definition → Definition}
      (hfile : ∀ id, Filing ρ b (file id)) :
      Corresponds (Mirrors ρ ids a b) Eq (enter role c file) (enter role (c.renamed ρ) file) :=
    enter_corresponds h role hnode hmark hfile
  cases role with
  | injectionSite => exact addSite_corresponds h hnode hmark
  | startup => exact setStartup_corresponds h hnode hmark
  | injectParameter =>
    refine .get_bind fun t t' ht => ?_
    have hlabel : t'.definition.arena.label (c.renamed ρ).node =
        t.definition.arena.label c.node := by
      rw [ht.definition, ht.arena]
      exact h.label_eq hnode
    rw [hlabel]
    exact .error _ ht
  | _ =>
    simp only [add, addOnError, addOnLoaded, addBeforeUnload, addTemplate, addVariable]
    refine henter _ fun _ => ?_
    exact ⟨fun _ => rfl, fun _ => rfl, fun _ => rfl⟩

/-! Surveys. -/

/-- Builders and the errors noted on the way to them. -/
def Attempts (R : Builder → Builder → Prop) (p p' : Builder × List ScriptError) : Prop :=
  R p.1 p'.1 ∧ p'.2 = p.2

omit h in
theorem attempt_attempts {R : Builder → Builder → Prop} {step step' : Building ElementId}
    {p p' : Builder × List ScriptError} (hstep : Corresponds R Eq step step')
    (hp : Attempts R p p') :
    Attempts R (attempt step p) (attempt step' p') := by
  obtain ⟨hR, herrors⟩ := hp
  have hrun := hstep p.1 p'.1 hR
  rw [attempt, attempt, herrors]
  generalize step p.1 = r at hrun
  generalize step' p'.1 = r' at hrun
  cases hrun with
  | ok hx ht => exact ⟨ht, rfl⟩
  | error e ht => exact ⟨ht, rfl⟩

omit h in
theorem foldl_attempts {R : Builder → Builder → Prop} {f : α → β} {step : α → Building ElementId}
    {step' : β → Building ElementId} {xs : List α}
    (hstep : ∀ x ∈ xs, Corresponds R Eq (step x) (step' (f x))) {p p' : Builder × List ScriptError}
    (hp : Attempts R p p') :
    Attempts R (xs.foldl (fun state x => attempt (step x) state) p)
      ((xs.map f).foldl (fun state x => attempt (step' x) state) p') := by
  induction xs generalizing p p' with
  | nil => exact hp
  | cons x xs ih =>
    exact ih (fun y hy => hstep y (by simp [hy])) (attempt_attempts (hstep x (by simp)) hp)

omit h in
theorem filter_renamed (s : Survey) (p : Role → Bool) :
    (s.renamed ρ).candidates.filter (fun q => p q.1) =
      (s.candidates.filter fun q => p q.1).map fun (r, c) => (r, c.renamed ρ) := by
  rw [Survey.renamed, List.filter_map]
  rfl

theorem addSurvey_attempts {s : Survey} (hs : s.Within ids) {t t' : Builder}
    (ht : Mirrors ρ ids a b t t') :
    Attempts (Mirrors ρ ids a b) (t.addSurvey s) (t'.addSurvey (s.renamed ρ)) := by
  unfold addSurvey
  rw [filter_renamed s Role.isEntrypoint, filter_renamed s (!·.isEntrypoint)]
  dsimp only
  rw [← List.map_append]
  refine foldl_attempts (fun p hp => ?_) (foldl_attempts (fun p hp => ?_) ⟨ht, rfl⟩)
  · obtain ⟨howner, hnode, hmark⟩ := hs.parameters p.1 p.2 hp
    exact addParameter_corresponds h howner hnode hmark
  · have hmem : p ∈ s.candidates := by
      rcases List.mem_append.mp hp with hp | hp <;> exact (List.mem_filter.mp hp).1
    obtain ⟨hnode, hmark⟩ := hs.candidates p.1 p.2 hmem
    exact add_corresponds h p.1 hnode hmark

omit h in
theorem ofArena_mirrors : Mirrors ρ ids a b (ofArena a) (ofArena b) where
  arena := rfl
  definition := rfl
  byNode i := by simp [ofArena]
  siteIndex i := by simp [ofArena]
  finalized := rfl
  within := nofun

/-- Both surveys break the same rules, or amount to definitions with the same elements. -/
theorem ofSurvey?_agree {s : Survey} (hs : s.Within ids) :
    Agree (fun d d' => d' = d.renamed ρ b ∧ d.arena = a ∧ d.Within ids)
      (Definition.ofSurvey? a s) (Definition.ofSurvey? b (s.renamed ρ)) := by
  obtain ⟨ht, herrors⟩ := addSurvey_attempts h hs ofArena_mirrors
  rw [Definition.ofSurvey?, Definition.ofSurvey?]
  generalize (ofArena a).addSurvey s = p at ht herrors
  generalize (ofArena b).addSurvey (s.renamed ρ) = p' at ht herrors
  obtain ⟨t, es⟩ := p
  obtain ⟨t', es'⟩ := p'
  obtain rfl : es' = es := herrors
  cases es' with
  | cons e es => exact .error _
  | nil =>
    have hopen := ensureOpen_corresponds t t' ht
    dsimp only
    rw [build, run_bind, run_bind]
    generalize ensureOpen t = r at hopen
    generalize ensureOpen t' = r' at hopen
    cases hopen with
    | error e hu => exact .error _
    | ok _ hu => exact .ok ⟨hu.definition, hu.arena, hu.within⟩

end Builder

end ScriptInject
