import Mathlib.Data.List.Basic
import Mathlib.Data.List.Infix
import Mathlib.Data.List.Pairwise
import ScriptInject.Proofs.Accounting
import ScriptInject.Proofs.Building
/-! Which surveys amount to a definition. Candidates are added one after the other, and those after an
error are still added, but whether any error comes up can be said without an order: one startup
function, one role for each node, and no parameter without its site. -/
namespace ScriptInject

variable {a : Arena} {b : Builder} {s : Survey} {d : Definition} {e f : Element}
  {es : List Element} {node : NodeId} {r : Role}

/-- The element that a candidate stands for in a role. -/
def Candidate.element (c : Candidate) (r : Role) : Element := ⟨r, c.node, c.mark, c.declaration?⟩

namespace Survey

/-- What was found goes together. -/
structure Consistent (s : Survey) : Prop where
  startup : (s.ofRole .startup).length ≤ 1
  roles : ∀ p ∈ s.candidates, ∀ q ∈ s.candidates, p.2.node = q.2.node → p.1 = q.1
  owners : ∀ p ∈ s.parameters, ∃ q ∈ s.candidates, q.1 = .injectionSite ∧ q.2.node = p.1

instance : DecidablePred Consistent := fun s =>
  decidable_of_iff ((s.ofRole .startup).length ≤ 1 ∧
      (∀ p ∈ s.candidates, ∀ q ∈ s.candidates, p.2.node = q.2.node → p.1 = q.1) ∧
      ∀ p ∈ s.parameters, ∃ q ∈ s.candidates, q.1 = .injectionSite ∧ q.2.node = p.1)
    ⟨fun h => ⟨h.1, h.2.1, h.2.2⟩, fun h => ⟨h.startup, h.roles, h.owners⟩⟩

/-- The functions that the host looks for, the other candidates, and the parameters. -/
def ranked (s : Survey) : List Element :=
  (s.candidates.filter (·.1.isEntrypoint) ++ s.candidates.filter (!·.1.isEntrypoint)).map
      (fun p => p.2.element p.1) ++
    s.parameters.map fun p => p.2.element .injectParameter

/-- An element for each node, which is as the first of its candidates has it. -/
def elements (s : Survey) : List Element := s.ranked.eraseDupsBy fun e f => e.node == f.node

end Survey

/-! The first element of each node. -/

namespace Element

/-- The first element of each node. -/
def firsts (es : List Element) : List Element := es.eraseDupsBy fun e f => e.node == f.node

theorem eraseDupsBy_loop_concat (es seen : List Element) (e : Element) :
    List.eraseDupsBy.loop (fun e f => e.node == f.node) (es ++ [e]) seen =
      let ds := List.eraseDupsBy.loop (fun e f => e.node == f.node) es seen
      if ∃ f ∈ ds, f.node = e.node then ds else ds ++ [e] := by
  induction es generalizing seen with
  | nil =>
    have hany : (seen.any fun f => e.node == f.node) = decide (∃ f ∈ seen, f.node = e.node) := by
      rw [Bool.eq_iff_iff, List.any_eq_true, decide_eq_true_iff]
      simp only [beq_iff_eq, eq_comm (a := e.node)]
    simp only [List.nil_append, List.eraseDupsBy.loop, hany, List.mem_reverse]
    by_cases h : ∃ f ∈ seen, f.node = e.node <;> simp [h]
  | cons f es ih =>
    rw [List.cons_append, List.eraseDupsBy.loop, List.eraseDupsBy.loop]
    split
    · exact ih seen
    · exact ih (f :: seen)

theorem firsts_concat (es : List Element) (e : Element) :
    firsts (es ++ [e]) =
      if ∃ f ∈ firsts es, f.node = e.node then firsts es else firsts es ++ [e] :=
  eraseDupsBy_loop_concat es [] e

theorem firsts_subset (es : List Element) : firsts es ⊆ es := by
  induction es using List.reverseRecOn with
  | nil => exact List.Subset.refl _
  | append_singleton es e ih =>
    rw [firsts_concat]
    split
    · exact List.subset_append_of_subset_left _ ih
    · exact List.append_subset.mpr ⟨List.subset_append_of_subset_left _ ih,
        List.subset_append_right _ _⟩

theorem exists_firsts (h : e ∈ es) : ∃ f ∈ firsts es, f.node = e.node := by
  induction es using List.reverseRecOn with
  | nil => exact absurd h List.not_mem_nil
  | append_singleton es g ih =>
    rw [firsts_concat]
    rcases List.mem_append.mp h with h | h
    · obtain ⟨f, hf, hnode⟩ := ih h
      split
      · exact ⟨f, hf, hnode⟩
      · exact ⟨f, List.mem_append_left _ hf, hnode⟩
    · obtain rfl := List.mem_singleton.mp h
      split
      · assumption
      · exact ⟨e, by simp, rfl⟩

end Element

namespace Builder

/-! What one step asks for. -/

/-- Something to be added, a parameter with its function. -/
structure Entry where
  element : Element
  owner? : Option NodeId := none

namespace Entry

variable {x : Entry} {xs : List Entry}

def candidate (x : Entry) : Candidate := ⟨x.element.node, x.element.mark, x.element.declaration?⟩

def step (x : Entry) : Building ElementId :=
  match x.owner? with
  | none => add x.element.role x.candidate
  | some function => addParameter function x.candidate

/-- Parameters, and nothing else, come with a function. -/
def Proper (x : Entry) : Prop := x.owner?.isSome ↔ x.element.role = .injectParameter

/-- The entry goes with the elements so far. -/
structure Admitted (es : List Element) (x : Entry) : Prop where
  roles : ∀ e ∈ es, e.node = x.element.node → e.role = x.element.role
  startup : x.element.role = .startup → ∀ e ∈ es, e.role ≠ .startup
  owner : ∀ o ∈ x.owner?, ∃ e ∈ es, e.node = o ∧ e.role = .injectionSite

/-- The elements with that of the entry, unless its node has one. -/
def joined (es : List Element) (x : Entry) : List Element :=
  if ∃ e ∈ es, e.node = x.element.node then es else es ++ [x.element]

end Entry

open Entry

variable {x : Entry} {xs : List Entry}

/-- The elements are joined by one, or the roles of a node differ. -/
def Joins (b : Builder) (x : Entry) :
    EStateM.Result ScriptError Builder ElementId → Prop
  | .ok _ b' => (∀ e ∈ b.definition.elements, e.node = x.element.node → e.role = x.element.role) ∧
    b'.definition.elements = joined b.definition.elements x
  | .error _ _ => ∃ e ∈ b.definition.elements, e.node = x.element.node ∧ e.role ≠ x.element.role

theorem joins_register (h : b.Kept a) (x : Entry)
    {file : ElementId × Bool → Building ElementId}
    (hfile : ∀ p b', ∃ i b'', file p b' = .ok i b'' ∧
      b''.definition.elements = b'.definition.elements) :
    Joins b x ((register x.element.role x.candidate >>= file) b) := by
  rw [run_bind]
  have hreg := registration h x.element.role x.candidate
  generalize register x.element.role x.candidate b = result at hreg
  cases hreg with
  | refused e he hrole => exact hrole
  | known id e hid hnode hrole =>
    obtain ⟨i, b'', hb, helements⟩ := hfile (id, false) b
    have he : e ∈ b.definition.elements := List.mem_of_getElem? hid
    dsimp only
    rw [hb]
    refine ⟨fun f hf hfnode => ?_, helements.trans (if_pos ⟨e, he, hnode⟩).symm⟩
    rw [List.inj_on_of_nodup_map h.ordered.nodes hf he (hfnode.trans hnode.symm), hrole]
  | new hfresh =>
    obtain ⟨i, b'', hb, helements⟩ := hfile (b.definition.elements.length, true)
      (b.withElement ⟨x.element.role, x.candidate.node, x.candidate.mark, x.candidate.declaration?⟩)
    dsimp only
    rw [hb]
    refine ⟨fun f hf hfnode => absurd hfnode (hfresh f hf), helements.trans ?_⟩
    have hnone : ¬∃ f ∈ b.definition.elements, f.node = x.element.node := by
      rintro ⟨f, hf, hfnode⟩
      exact hfresh f hf hfnode
    rw [joined, if_neg hnone]
    rfl

theorem joins_enter {file : ElementId → Definition → Definition} (h : b.Kept a) (x : Entry)
    (hfile : ∀ id d, (file id d).elements = d.elements) :
    Joins b x (enter x.element.role x.candidate file b) := by
  refine joins_register h x fun r b' => ?_
  obtain ⟨id, isNew⟩ := r
  cases isNew with
  | false => exact ⟨id, b', rfl, rfl⟩
  | true => exact ⟨id, _, rfl, hfile id _⟩

theorem joins_addSite (h : b.Kept a) (hrole : x.element.role = .injectionSite) :
    Joins b x (addSite x.candidate b) := by
  rw [addSite, ← hrole]
  refine joins_register h x fun r b' => ?_
  obtain ⟨id, isNew⟩ := r
  cases isNew with
  | false => exact ⟨id, b', rfl, rfl⟩
  | true => exact ⟨id, _, rfl, rfl⟩

theorem mem_startup (h : b.Kept a) :
    (∃ id, b.definition.startup? = some id) ↔ ∃ e ∈ b.definition.elements, e.role = .startup := by
  have hrole (e : Element) : e.role.drawer = .startup ↔ e.role = .startup := by
    cases e.role <;> simp [Role.drawer]
  have hmem (id : ElementId) : b.definition.startup? = some id ↔
      ∃ e, b.definition.elements[id]? = some e ∧ e.role = .startup := by
    rw [← Option.mem_toList]
    exact h.ordered.mem_iff.trans (exists_congr fun e => and_congr_right fun _ => hrole e)
  simp only [hmem, List.mem_iff_getElem?]
  grind

theorem mem_siteIndex (h : b.Kept a) :
    (∃ i, b.siteIndex[node]? = some i) ↔
      ∃ e ∈ b.definition.elements, e.node = node ∧ e.role = .injectionSite := by
  have hrole (e : Element) : e.role.drawer = .sites ↔ e.role = .injectionSite := by
    cases e.role <;> simp [Role.drawer]
  have hsite (id : ElementId) : (∃ site ∈ b.definition.sites, site.element = id) ↔
      ∃ e, b.definition.elements[id]? = some e ∧ e.role = .injectionSite := by
    rw [← List.mem_map]
    exact h.ordered.mem_iff.trans (exists_congr fun e => and_congr_right fun _ => hrole e)
  have hindex : (∃ i, b.siteIndex[node]? = some i) ↔ some node ∈ b.definition.siteNodes := by
    simp only [h.siteIndex node, List.mem_iff_getElem?]
  rw [hindex, Definition.siteNodes, List.mem_map]
  constructor
  · rintro ⟨site, hmem, hnode⟩
    obtain ⟨e, he, rfl⟩ := Option.map_eq_some_iff.mp hnode
    obtain ⟨f, hf, hfrole⟩ := (hsite site.element).mp ⟨site, hmem, rfl⟩
    obtain rfl : e = f := Option.some.inj (he.symm.trans hf)
    exact ⟨e, List.mem_of_getElem? he, rfl, hfrole⟩
  · rintro ⟨e, he, rfl, herole⟩
    obtain ⟨id, hid⟩ := List.mem_iff_getElem?.mp he
    obtain ⟨site, hmem, hsite⟩ := (hsite id).mpr ⟨e, hid, herole⟩
    exact ⟨site, hmem, by rw [hsite, Definition.element?, hid, Option.map_some]⟩

/-- An entry is added exactly if it goes with the elements so far. -/
def Adds (b : Builder) (x : Entry) : EStateM.Result ScriptError Builder ElementId → Prop
  | .ok _ b' => Admitted b.definition.elements x ∧
    b'.definition.elements = joined b.definition.elements x
  | .error _ _ => ¬ Admitted b.definition.elements x

theorem Joins.adds {result : EStateM.Result ScriptError Builder ElementId}
    (h : Joins b x result)
    (hstartup : x.element.role = .startup → ∀ e ∈ b.definition.elements, e.role ≠ .startup)
    (howner : ∀ o ∈ x.owner?, ∃ e ∈ b.definition.elements, e.node = o ∧ e.role = .injectionSite) :
    Adds b x result := by
  cases result with
  | ok id b' => exact ⟨⟨h.1, hstartup, howner⟩, h.2⟩
  | error e b' =>
    obtain ⟨f, hf, hnode, hrole⟩ := h
    exact fun hadmitted => hrole (hadmitted.roles f hf hnode)

theorem adds_setStartup (h : b.Kept a) (hrole : x.element.role = .startup)
    (howner : x.owner? = none) : Adds b x (setStartup x.candidate b) := by
  rw [setStartup, run_bind, ensureOpen_run, h.isOpen]
  simp only [Bool.false_eq_true, if_false]
  rw [run_bind, get_run]
  dsimp only
  cases hs : b.definition.startup? with
  | some id =>
    obtain ⟨e, he, herole⟩ := (mem_startup h).mp ⟨id, hs⟩
    exact fun hadmitted => hadmitted.startup hrole e he herole
  | none =>
    have hnone : ∀ e ∈ b.definition.elements, e.role ≠ .startup := fun e he herole => by
      obtain ⟨id, hid⟩ := (mem_startup h).mpr ⟨e, he, herole⟩
      cases hs.symm.trans hid
    dsimp only
    rw [← hrole]
    have hjoins : Joins b x ((register x.element.role x.candidate >>= fun p => do
        edit fun d => { d with startup? := some p.1 }
        return p.1) b) := joins_register h x fun p b' => ⟨p.1, _, rfl, rfl⟩
    exact hjoins.adds (fun _ => hnone) (by simp [howner])

theorem adds_addParameter (h : b.Kept a) (hrole : x.element.role = .injectParameter)
    (howner : x.owner? = some node) : Adds b x (addParameter node x.candidate b) := by
  rw [addParameter, run_bind, ensureOpen_run, h.isOpen]
  simp only [Bool.false_eq_true, if_false]
  rw [run_bind, get_run]
  dsimp only
  cases hi : b.siteIndex[node]? with
  | none =>
    intro hadmitted
    obtain ⟨i, hi'⟩ := (mem_siteIndex h).mpr (hadmitted.owner node howner)
    cases hi.symm.trans hi'
  | some i =>
    have hjoins : Joins b x (enter .injectParameter x.candidate (fun id d =>
        { d with sites := d.sites.modify i fun site =>
          { site with parameters := site.parameters ++ [id] } }) b) := by
      rw [← hrole]
      exact joins_enter h x fun _ _ => rfl
    refine hjoins.adds (by simp [hrole]) ?_
    rw [howner]
    rintro o ho
    obtain rfl := Option.some.inj ho
    exact (mem_siteIndex h).mp ⟨i, hi⟩

theorem adds_step (h : b.Kept a) (hx : x.Proper) : Adds b x (x.step b) := by
  rw [step]
  cases howner : x.owner? with
  | some function => exact adds_addParameter h (hx.mp (by rw [howner]; rfl)) howner
  | none =>
    dsimp only
    have hnone : ∀ o ∈ x.owner?, ∃ e ∈ b.definition.elements, e.node = o ∧ e.role = .injectionSite :=
      by simp [howner]
    have hentered {file : ElementId → Definition → Definition} (hrole : x.element.role ≠ .startup)
        (hfile : ∀ id d, (file id d).elements = d.elements) :
        Adds b x (enter x.element.role x.candidate file b) :=
      (joins_enter h x hfile).adds (fun hr => absurd hr hrole) hnone
    generalize hrole : x.element.role = r at hentered
    cases r with
    | injectionSite => exact (joins_addSite h hrole).adds (by simp [hrole]) hnone
    | startup => exact adds_setStartup h hrole howner
    | injectParameter => exact absurd (hx.mpr hrole) (by simp [howner])
    | onError =>
      rw [add, addOnError]
      exact hentered (by decide) fun _ _ => rfl
    | onLoaded =>
      rw [add, addOnLoaded]
      exact hentered (by decide) fun _ _ => rfl
    | beforeUnload =>
      rw [add, addBeforeUnload]
      exact hentered (by decide) fun _ _ => rfl
    | injectTemplate =>
      rw [add, addTemplate]
      exact hentered (by decide) fun _ _ => rfl
    | injectVariable | injectSecret | injectDatabase | injectConstant =>
      rw [add, addVariable]
      exact hentered (by decide) fun _ _ => rfl

theorem enters_step (h : b.Kept a) (x : Entry) :
    ∃ r, Enters a r x.candidate b (x.step b) := by
  rw [step]
  cases x.owner? with
  | none => exact ⟨_, add_enters h _ _⟩
  | some function => exact ⟨_, addParameter_enters h function _⟩

/-! Any number of entries. -/

/-- Each entry goes with those before it. -/
def Agree (xs : List Entry) : Prop :=
  ∀ ys x, ys ++ [x] <+: xs → Admitted (ys.map (·.element)) x

theorem agree_nil : Agree [] := fun ys x h => absurd (List.prefix_nil.mp h) (by simp)

theorem agree_concat :
    Agree (xs ++ [x]) ↔ Agree xs ∧ Admitted (xs.map (·.element)) x := by
  constructor
  · intro h
    exact ⟨fun ys y hy => h ys y (hy.trans (List.prefix_append xs [x])),
      h xs x (List.prefix_refl _)⟩
  · rintro ⟨hxs, hx⟩ ys y hy
    rcases List.prefix_concat_iff.mp hy with hy | hy
    · obtain ⟨rfl, hlast⟩ := List.append_inj' hy rfl
      obtain rfl := List.singleton_inj.mp hlast
      exact hx
    · exact hxs ys y hy

/-- Neither the roles of one node differ, nor are there two startup functions. -/
def Together (e f : Element) : Prop :=
  (e.node = f.node → e.role = f.role) ∧ ¬ (e.role = .startup ∧ f.role = .startup)

instance : Std.Symm Together :=
  ⟨fun _ _ h => ⟨fun hnode => (h.1 hnode.symm).symm, fun hrole => h.2 hrole.symm⟩⟩

theorem role_eq_of_together (h : es.Pairwise Together) (he : e ∈ es) (hf : f ∈ es)
    (hnode : e.node = f.node) : e.role = f.role := by
  by_cases hef : e = f
  · rw [hef]
  · exact (h.forall he hf hef).1 hnode

/-- Parameters come after the sites that they belong to. -/
def Owned (xs : List Entry) : Prop :=
  ∀ ys x, ys ++ [x] <+: xs →
    ∀ o ∈ x.owner?, ∃ e ∈ ys.map (·.element), e.node = o ∧ e.role = .injectionSite

theorem agree_iff :
    Agree xs ↔ (xs.map (·.element)).Pairwise Together ∧ Owned xs := by
  have howned (h : Agree xs) : Owned xs := fun ys x hx => (h ys x hx).owner
  suffices hpairs : Owned xs → (Agree xs ↔ (xs.map (·.element)).Pairwise Together) by
    exact ⟨fun h => ⟨(hpairs (howned h)).mp h, howned h⟩, fun h => (hpairs h.2).mpr h.1⟩
  clear howned
  induction xs using List.reverseRecOn with
  | nil => exact fun _ => iff_of_true agree_nil .nil
  | append_singleton xs x ih =>
    intro h
    have hxs : Owned xs := fun ys y hy => h ys y (hy.trans (List.prefix_append xs [x]))
    rw [agree_concat, ih hxs, List.map_append, List.pairwise_append]
    refine and_congr_right fun _ => ?_
    constructor
    · intro hx
      refine ⟨List.pairwise_singleton _ _, fun e he f hf => ?_⟩
      obtain rfl := List.mem_singleton.mp hf
      exact ⟨hx.roles e he, fun hrole => hx.startup hrole.2 e he hrole.1⟩
    · rintro ⟨-, hx⟩
      have hx (e : Element) (he : e ∈ xs.map (·.element)) : Together e x.element :=
        hx e he x.element (by simp)
      exact ⟨fun e he => (hx e he).1, fun hrole e he herole => (hx e he).2 ⟨herole, hrole⟩,
        h xs x (List.prefix_refl _)⟩

/-- The first elements of the nodes tell whether an entry goes with all. -/
theorem admitted_firsts (h : Agree xs) :
    Admitted (Element.firsts (xs.map (·.element))) x ↔ Admitted (xs.map (·.element)) x := by
  have hroles {e f : Element} (he : e ∈ xs.map (·.element)) (hf : f ∈ xs.map (·.element))
      (hnode : e.node = f.node) : e.role = f.role :=
    role_eq_of_together (agree_iff.mp h).1 he hf hnode
  have hsubset := Element.firsts_subset (xs.map (·.element))
  have hfirst {e : Element} (he : e ∈ xs.map (·.element)) :
      ∃ f ∈ Element.firsts (xs.map (·.element)), f.node = e.node ∧ f.role = e.role := by
    obtain ⟨f, hf, hnode⟩ := Element.exists_firsts he
    exact ⟨f, hf, hnode, hroles (hsubset hf) he hnode⟩
  constructor
  · intro hx
    refine ⟨fun e he hnode => ?_, fun hrole e he herole => ?_, fun o ho => ?_⟩
    · obtain ⟨f, hf, hfnode, hfrole⟩ := hfirst he
      exact hfrole.symm.trans (hx.roles f hf (hfnode.trans hnode))
    · obtain ⟨f, hf, -, hfrole⟩ := hfirst he
      exact hx.startup hrole f hf (hfrole.trans herole)
    · obtain ⟨e, he, hsite⟩ := hx.owner o ho
      exact ⟨e, hsubset he, hsite⟩
  · intro hx
    refine ⟨fun e he => hx.roles e (hsubset he), fun hrole e he => hx.startup hrole e (hsubset he),
      fun o ho => ?_⟩
    obtain ⟨e, he, hnode, hrole⟩ := hx.owner o ho
    obtain ⟨f, hf, hfnode, hfrole⟩ := hfirst he
    exact ⟨f, hf, hfnode.trans hnode, hfrole.trans hrole⟩

/-- The builder after all entries, and the errors that came up. -/
def entered (a : Arena) (xs : List Entry) : Builder × List ScriptError :=
  xs.foldl (fun state x => attempt x.step state) (ofArena a, [])

theorem entered_concat :
    entered a (xs ++ [x]) = attempt x.step (entered a xs) := by
  rw [entered, List.foldl_append]
  rfl

/-- No error comes up exactly if each entry goes with those before it, and then there is an element
for each node. -/
theorem entered_run (hxs : ∀ x ∈ xs, x.Proper) :
    (entered a xs).1.Kept a ∧
      if (entered a xs).2 = [] then
        Agree xs ∧ (entered a xs).1.definition.elements = Element.firsts (xs.map (·.element))
      else ¬ Agree xs := by
  induction xs using List.reverseRecOn with
  | nil => exact ⟨kept_ofArena a, agree_nil, rfl⟩
  | append_singleton xs x ih =>
    obtain ⟨hkept, hrun⟩ := ih fun y hy => hxs y (List.mem_append_left _ hy)
    obtain ⟨r, henters⟩ := enters_step hkept x
    have hadds := adds_step hkept (hxs x (by simp))
    rw [entered_concat, attempt, agree_concat]
    generalize x.step (entered a xs).1 = result at henters hadds
    cases result with
    | error e b' =>
      obtain ⟨-, rfl⟩ : e.IsConflict ∧ b' = (entered a xs).1 := henters
      refine ⟨hkept, ?_⟩
      rw [if_neg (List.append_ne_nil_of_right_ne_nil _ (List.cons_ne_nil _ _))]
      rintro ⟨hagree, hx⟩
      split at hrun
      · refine hadds ?_
        rw [hrun.2]
        exact (admitted_firsts hagree).mpr hx
      · exact hrun hagree
    | ok id b' =>
      refine ⟨henters.kept, ?_⟩
      split at hrun
      · rename_i hnone
        obtain ⟨hagree, helements⟩ := hrun
        obtain ⟨hx, hb'⟩ := hadds
        rw [helements] at hx hb'
        refine (if_pos hnone).mpr ⟨⟨hagree, (admitted_firsts hagree).mp hx⟩, ?_⟩
        rw [hb', joined, List.map_append, List.map_singleton, Element.firsts_concat]
      · rename_i hsome
        exact (if_neg hsome).mpr fun h => hrun h.1

/-! The entries of a survey. -/

namespace Entry

def ofCandidate (p : Role × Candidate) : Entry := { element := p.2.element p.1 }

def ofParameter (p : NodeId × Candidate) : Entry :=
  { element := p.2.element .injectParameter, owner? := some p.1 }

/-- The candidates in the order in which they are added. -/
def ofCandidates (s : Survey) : List Entry :=
  (s.candidates.filter (·.1.isEntrypoint) ++ s.candidates.filter (!·.1.isEntrypoint)).map ofCandidate

/-- All that was found, in the order in which it is added. -/
def ofSurvey (s : Survey) : List Entry := ofCandidates s ++ s.parameters.map ofParameter

theorem mem_ofCandidates : x ∈ ofCandidates s ↔ ∃ p ∈ s.candidates, ofCandidate p = x := by
  rw [ofCandidates, List.mem_map]
  simp only [(List.filter_append_perm _ _).mem_iff]

theorem mem_ofSurvey : x ∈ ofSurvey s ↔
    (∃ p ∈ s.candidates, ofCandidate p = x) ∨ ∃ p ∈ s.parameters, ofParameter p = x := by
  rw [ofSurvey, List.mem_append, mem_ofCandidates, List.mem_map]

end Entry

theorem map_element_ofSurvey (s : Survey) : (ofSurvey s).map (·.element) = s.ranked := by
  rw [ofSurvey, ofCandidates, Survey.ranked, List.map_append, List.map_map, List.map_map]
  rfl

theorem proper_of_mem_ofSurvey (hs : Survey.Found a s) (h : x ∈ ofSurvey s) : x.Proper := by
  rcases mem_ofSurvey.mp h with ⟨p, hp, rfl⟩ | ⟨p, -, rfl⟩
  · exact iff_of_false Bool.false_ne_true (hs.candidates p hp).2
  · exact iff_of_true rfl rfl

theorem addSurvey_eq_entered (a : Arena) (s : Survey) :
    (ofArena a).addSurvey s = entered a (ofSurvey s) := by
  rw [entered, ofSurvey, ofCandidates, List.foldl_append, List.foldl_map, List.foldl_map]
  rfl

end Builder

namespace Survey

open Builder Builder.Entry

/-- Nothing is both a parameter and a candidate of another kind. -/
theorem Found.node_ne (hs : Found a s) {p : Role × Candidate} (hp : p ∈ s.candidates)
    {q : NodeId × Candidate} (hq : q ∈ s.parameters) : p.2.node ≠ q.2.node := by
  intro hnode
  obtain ⟨hfiled, hrole⟩ := hs.candidates p hp
  obtain ⟨attributes, name, value, hparameter⟩ := (hs.parameters q hq).carries
  have hcarries := hfiled.carries
  have hchain : a.isChain p.2.node = false := by rw [hnode, Arena.isChain, hparameter]
  generalize p.1 = r at hrole hcarries
  cases r with
  | injectParameter => exact hrole rfl
  | injectionSite | startup | onError | onLoaded | beforeUnload =>
    obtain ⟨name, isFilter, parameters, body, hfunction⟩ := hcarries
    rw [hnode, hparameter] at hfunction
    cases Option.some.inj hfunction
  | injectVariable | injectSecret | injectDatabase | injectConstant =>
    exact absurd (hchain.symm.trans hcarries.1) Bool.false_ne_true
  | injectTemplate => exact absurd (hchain.symm.trans hcarries) Bool.false_ne_true

/-- The order in which candidates are found does not matter for whether they go together. -/
theorem together_candidates :
    (s.candidates.map fun p => p.2.element p.1).Pairwise Together ↔
      (s.ofRole .startup).length ≤ 1 ∧
        ∀ p ∈ s.candidates, ∀ q ∈ s.candidates, p.2.node = q.2.node → p.1 = q.1 := by
  have hstartup : s.candidates.Pairwise (fun p q => ¬ (p.1 = .startup ∧ q.1 = .startup)) ↔
      (s.ofRole .startup).length ≤ 1 := by
    have hfalse (cs : List (Role × Candidate)) :
        cs.Pairwise (fun _ _ => False) ↔ cs.length ≤ 1 := by
      rcases cs with _ | ⟨c, _ | ⟨c', cs⟩⟩
      · simp
      · simp
      · refine iff_of_false (fun h => ?_) (by simp)
        exact (List.pairwise_cons.mp h).1 c' (by simp)
    rw [ofRole, List.length_map, ← hfalse, List.pairwise_filter]
    simp only [decide_eq_true_eq, not_and]
  rw [List.pairwise_map]
  constructor
  · intro h
    refine ⟨hstartup.mp (h.imp fun ht => ht.2), fun p hp q hq hnode => ?_⟩
    exact role_eq_of_together (List.pairwise_map.mpr h) (List.mem_map_of_mem hp)
      (List.mem_map_of_mem hq) hnode
  · rintro ⟨hone, hroles⟩
    exact (List.pairwise_of_forall_mem_list hroles).and (hstartup.mpr hone)

theorem together_ranked (hs : Found a s) :
    s.ranked.Pairwise Together ↔
      (s.candidates.map fun p => p.2.element p.1).Pairwise Together := by
  have hperm := List.filter_append_perm (fun p : Role × Candidate => p.1.isEntrypoint) s.candidates
  rw [ranked, List.pairwise_append, (hperm.map _).pairwise_iff (fun h => symm h)]
  refine and_iff_left ⟨?_, ?_⟩
  · rw [List.pairwise_map]
    exact List.pairwise_of_forall fun p q => ⟨fun _ => rfl, fun h => absurd h.1 nofun⟩
  · intro e he f hf
    obtain ⟨p, hp, rfl⟩ := List.mem_map.mp he
    obtain ⟨q, hq, rfl⟩ := List.mem_map.mp hf
    exact ⟨fun hnode => absurd hnode (hs.node_ne (hperm.mem_iff.mp hp) hq),
      fun h => absurd h.2 nofun⟩

theorem owned_entries :
    Owned (ofSurvey s) ↔
      ∀ p ∈ s.parameters, ∃ q ∈ s.candidates, q.1 = .injectionSite ∧ q.2.node = p.1 := by
  constructor
  · intro h p hp
    have hx : ofParameter p ∈ ofSurvey s := mem_ofSurvey.mpr (.inr ⟨p, hp, rfl⟩)
    obtain ⟨ys, zs, hsplit⟩ := List.append_of_mem hx
    obtain ⟨e, he, hnode, hrole⟩ :=
      h ys (ofParameter p) ⟨zs, by simp [hsplit]⟩ p.1 rfl
    obtain ⟨y, hy, rfl⟩ := List.mem_map.mp he
    have hy : y ∈ ofSurvey s := by simp [hsplit, hy]
    rcases mem_ofSurvey.mp hy with ⟨q, hq, rfl⟩ | ⟨q, -, rfl⟩
    · exact ⟨q, hq, hrole, hnode⟩
    · cases hrole
  · intro h ys x hx o ho
    have hnot : x ∉ ofCandidates s := fun hmem => by
      obtain ⟨q, -, rfl⟩ := mem_ofCandidates.mp hmem
      cases ho
    have hmem : x ∈ ofSurvey s := hx.subset (by simp)
    rcases mem_ofSurvey.mp hmem with ⟨q, -, rfl⟩ | ⟨p, hp, rfl⟩
    · cases ho
    obtain rfl := Option.some.inj ho
    obtain ⟨q, hq, hrole, hnode⟩ := h p hp
    -- The candidates all come before the first parameter.
    have hbefore : ofCandidates s <+: ys := by
      have hprefix : ofCandidates s <+: ofSurvey s := List.prefix_append _ _
      rcases List.prefix_or_prefix_of_prefix hprefix hx with hpre | hpre
      · rcases List.prefix_concat_iff.mp hpre with heq | hpre
        · exact absurd (heq ▸ List.mem_append_right _ (List.mem_singleton_self _)) hnot
        · exact hpre
      · exact absurd (hpre.subset (by simp)) hnot
    have hq : ofCandidate q ∈ ys := hbefore.subset (mem_ofCandidates.mpr ⟨q, hq, rfl⟩)
    exact ⟨_, List.mem_map_of_mem hq, hnode, hrole⟩

/-- Consistency is all that the entries of a survey need to be added. -/
theorem agree_iff_consistent (hs : Found a s) : Builder.Agree (ofSurvey s) ↔ s.Consistent := by
  rw [agree_iff, map_element_ofSurvey, together_ranked hs, together_candidates, owned_entries, and_assoc]
  exact ⟨fun h => ⟨h.1, h.2.1, h.2.2⟩, fun h => ⟨h.startup, h.roles, h.owners⟩⟩

/-- A survey is made into a definition exactly if what it found goes together, and the elements are
then the first of each node. -/
def Decides (a : Arena) (s : Survey) : Prop :=
  ((∃ d, Definition.ofSurvey? a s = .ok d) ↔ s.Consistent) ∧
    ∀ d, Definition.ofSurvey? a s = .ok d → d.arena = a ∧ d.elements = s.elements

theorem decides_of_found (hs : Found a s) : s.Decides a := by
  obtain ⟨hkept, hrun⟩ := entered_run (a := a) fun x hx => proper_of_mem_ofSurvey hs hx
  rw [agree_iff_consistent hs, map_element_ofSurvey, ← addSurvey_eq_entered] at hrun
  rw [← addSurvey_eq_entered] at hkept
  rw [Decides, Definition.ofSurvey?]
  generalize (ofArena a).addSurvey s = added at hkept hrun
  obtain ⟨b, errors⟩ := added
  cases errors with
  | cons e errors =>
    rw [if_neg (List.cons_ne_nil e errors)] at hrun
    refine ⟨iff_of_false ?_ hrun, fun d hd => by cases hd⟩
    rintro ⟨d, hd⟩
    cases hd
  | nil =>
    rw [if_pos rfl] at hrun
    obtain ⟨b', hbuild⟩ := build_run hkept
    dsimp only
    rw [hbuild]
    refine ⟨iff_of_true ⟨_, rfl⟩ hrun.1, fun d hd => ?_⟩
    obtain rfl := Except.ok.inj hd
    exact ⟨hkept.arena, hrun.2⟩

end Survey

namespace Script

/-- Whether a script that was read, with or without recovery, has a definition is up to what its
survey found and not to the order in which that is added. -/
theorem definition_consistent (source : String) (maxDepth : Nat) :
    (match parseWithin maxDepth source with
      | .ok a => ∃ s, Survey.ofArena? a = .ok s ∧ s.Decides a
      | .error _ => True) ∧
    match parseRecovering source with
    | .ok (a, _) => (∃ s, Survey.ofArena? a = .ok s ∧ s.Decides a) ∨ a.root? = none
    | .error _ => True := by
  obtain ⟨hstrict, hrecovering⟩ := survey_accounts source maxDepth
  constructor
  · cases h : parseWithin maxDepth source with
    | error f => trivial
    | ok a =>
      rw [h] at hstrict
      obtain ⟨root, s, -, hs, -⟩ := hstrict
      exact ⟨s, hs, Survey.decides_of_found (Survey.found_of_ofArena? hs)⟩
  · cases h : parseRecovering source with
    | error f => trivial
    | ok r =>
      obtain ⟨a, errors⟩ := r
      rw [h] at hrecovering
      rcases hrecovering with ⟨root, s, -, hs, -⟩ | ⟨hnone, -⟩
      · exact .inl ⟨s, hs, Survey.decides_of_found (Survey.found_of_ofArena? hs)⟩
      · exact .inr hnone

end Script

end ScriptInject
