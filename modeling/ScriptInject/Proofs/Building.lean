import Mathlib.Data.List.Nodup
import Mathlib.Data.List.Perm.Basic
import ScriptInject.Builder
import ScriptInject.Proofs.Surveying
/-! What building keeps. Each element stands for a node of its own and is filed once, under its role,
and the tables by node say where. -/
namespace ScriptInject

variable {a : Arena} {s : Survey} {d d' : Definition} {b b' : Builder} {c : Candidate} {e : Element}
  {r : Role} {id : ElementId} {α β : Type}

/-- Candidates do not go together. -/
def ScriptError.IsConflict : ScriptError → Prop
  | .duplicateStartup .. | .orphanParameter .. | .conflictingRoles .. => True
  | _ => False

/-- Where the elements of a role are filed. -/
inductive Drawer where
  | startup | sites | parameters | variables | templates | onError | onLoaded | beforeUnload
deriving DecidableEq

def Drawer.all : List Drawer :=
  [.startup, .sites, .parameters, .variables, .templates, .onError, .onLoaded, .beforeUnload]

theorem Drawer.mem_all (p : Drawer) : p ∈ all := by
  cases p <;> decide

def Role.drawer : Role → Drawer
  | .startup => .startup
  | .injectionSite => .sites
  | .injectParameter => .parameters
  | .injectVariable | .injectSecret | .injectDatabase | .injectConstant => .variables
  | .injectTemplate => .templates
  | .onError => .onError
  | .onLoaded => .onLoaded
  | .beforeUnload => .beforeUnload

namespace Definition

variable {p : Drawer}

/-- The ids that are filed. -/
def content (d : Definition) : Drawer → List ElementId
  | .startup => d.startup?.toList
  | .sites => d.sites.map (·.element)
  | .parameters => d.sites.flatMap (·.parameters)
  | .variables => d.injectedVariables
  | .templates => d.templates
  | .onError => d.onError
  | .onLoaded => d.onLoaded
  | .beforeUnload => d.beforeUnload

/-- The ids of the elements that are to be filed in a drawer. -/
def due (d : Definition) (p : Drawer) : List ElementId :=
  (d.elements.zipIdx.filter (·.1.role.drawer = p)).map (·.2)

/-- The elements stand for nodes of their own, and each is filed once, where it belongs. -/
structure Ordered (d : Definition) : Prop where
  nodes : (d.elements.map (·.node)).Nodup
  filed : ∀ p, (d.content p).Perm (d.due p)

/-- The nodes of the elements. -/
def nodes (d : Definition) : List (Option NodeId) := d.elements.map fun e => some e.node

/-- The functions that the sites are, as far as there are elements for them. -/
def siteNodes (d : Definition) : List (Option NodeId) :=
  d.sites.map fun site => (d.element? site.element).map (·.node)

/-- The definition with one more element, which is filed nowhere yet. -/
def extended (d : Definition) (e : Element) : Definition := { d with elements := d.elements ++ [e] }

theorem mem_nodes {node : NodeId} : some node ∈ d.nodes ↔ ∃ e ∈ d.elements, e.node = node := by
  simp [nodes]

theorem siteNodes_subset {node : NodeId} (h : some node ∈ d.siteNodes) : some node ∈ d.nodes := by
  obtain ⟨site, -, hsite⟩ := List.mem_map.mp h
  obtain ⟨e, he, hnode⟩ := Option.map_eq_some_iff.mp hsite
  exact mem_nodes.mpr ⟨e, List.mem_of_getElem? he, hnode⟩

theorem mem_due : id ∈ d.due p ↔ ∃ e, d.element? id = some e ∧ e.role.drawer = p := by
  simp only [due, List.mem_map, List.mem_filter, decide_eq_true_eq, Prod.exists,
    List.mem_zipIdx_iff_getElem?, element?]
  grind

theorem nodup_due : (d.due p).Nodup := by
  have hall : (d.elements.zipIdx.map (·.2)).Nodup := by
    rw [List.zipIdx_map_snd]
    exact List.nodup_range'
  exact hall.sublist (List.filter_sublist.map _)

theorem due_extended : (d.extended e).due p =
    if e.role.drawer = p then d.due p ++ [d.elements.length] else d.due p := by
  simp only [due, Definition.extended, List.zipIdx_append, List.filter_append, List.map_append]
  split
  · rename_i h
    simp [h]
  · rename_i h
    simp [h]

namespace Ordered

theorem mem_iff (h : d.Ordered) :
    id ∈ d.content p ↔ ∃ e, d.element? id = some e ∧ e.role.drawer = p :=
  (h.filed p).mem_iff.trans mem_due

theorem lt_of_mem (h : d.Ordered) (hid : id ∈ d.content p) : id < d.elements.length := by
  obtain ⟨e, he, -⟩ := h.mem_iff.mp hid
  exact (List.getElem?_eq_some_iff.mp he).choose

/-- The ids are the numbers up to that of the elements, and each of them is filed once. -/
theorem ids (h : d.Ordered) : (Drawer.all.flatMap d.content).Perm (List.range d.elements.length) := by
  refine (List.perm_ext_iff_of_nodup ?_ List.nodup_range).mpr fun id => ?_
  · refine List.nodup_flatMap.mpr ⟨fun p _ => (h.filed p).nodup_iff.mpr nodup_due, ?_⟩
    have hdrawers : Drawer.all.Pairwise (· ≠ ·) := by decide
    refine hdrawers.imp fun hne i hi hj => hne ?_
    obtain ⟨e, he, rfl⟩ := h.mem_iff.mp hi
    obtain ⟨f, hf, rfl⟩ := h.mem_iff.mp hj
    rw [Option.some.inj (he.symm.trans hf)]
  · rw [List.mem_flatMap, List.mem_range]
    constructor
    · rintro ⟨p, -, hid⟩
      exact h.lt_of_mem hid
    · intro hlt
      exact ⟨_, Drawer.mem_all _, h.mem_iff.mpr ⟨d.elements[id], List.getElem?_eq_getElem hlt, rfl⟩⟩

theorem siteNodes_extended (h : d.Ordered) : (d.extended e).siteNodes = d.siteNodes := by
  refine List.map_congr_left fun site hsite => ?_
  have hmem : site.element ∈ d.content .sites := List.mem_map_of_mem hsite
  rw [element?, Definition.extended, List.getElem?_append_left (h.lt_of_mem hmem)]
  rfl

/-- A new element stands for a new node and is put into its drawer. -/
theorem enter (h : d.Ordered) (hnew : ∀ f ∈ d.elements, f.node ≠ e.node)
    (helements : d'.elements = d.elements ++ [e])
    (hown : (d'.content e.role.drawer).Perm (d.content e.role.drawer ++ [d.elements.length]))
    (hothers : ∀ p, p ≠ e.role.drawer → d'.content p = d.content p) : d'.Ordered where
  nodes := by
    rw [helements, List.map_append, List.nodup_append]
    refine ⟨h.nodes, by simp, ?_⟩
    rintro i hi j hj rfl
    obtain ⟨f, hf, rfl⟩ := List.mem_map.mp hi
    exact hnew f hf (List.mem_singleton.mp hj)
  filed p := by
    have hdue : d'.due p = (d.extended e).due p := by
      rw [due, due, helements]
      rfl
    rw [hdue, due_extended]
    split
    · rename_i hp
      subst hp
      exact hown.trans ((h.filed _).append_right _)
    · rename_i hp
      rw [hothers p (Ne.symm hp)]
      exact h.filed p

end Ordered

end Definition

namespace Builder

/-- The table tells where in the list a node stands. -/
def Indexes (m : Std.TreeMap NodeId Nat) (nodes : List (Option NodeId)) : Prop :=
  ∀ (node : NodeId) (i : Nat), m[node]? = some i ↔ nodes[i]? = some (some node)

theorem Indexes.insert {m : Std.TreeMap NodeId Nat} {nodes : List (Option NodeId)} {new : NodeId}
    (h : Indexes m nodes) (hnew : some new ∉ nodes) :
    Indexes (m.insert new nodes.length) (nodes ++ [some new]) := by
  intro node i
  have hold : nodes[i]? ≠ some (some new) := fun hi => hnew (List.mem_of_getElem? hi)
  have hi := h node i
  rw [Std.TreeMap.getElem?_insert]
  simp only [Std.compare_eq_iff_eq]
  rcases Nat.lt_trichotomy i nodes.length with hlt | rfl | hlt
  · rw [List.getElem?_append_left hlt]
    split
    · rename_i hnode
      simp [← hnode, hold, Nat.ne_of_gt hlt]
    · exact hi
  · rw [List.getElem?_concat_length]
    split
    · rename_i hnode
      simp [hnode]
    · rename_i hnode
      simp [hi, hnode]
  · have hbeyond : nodes[i]? = none := List.getElem?_eq_none (Nat.le_of_lt hlt)
    have hnone : (nodes ++ [some new])[i]? = none :=
      List.getElem?_eq_none (by simpa using Nat.succ_le_of_lt hlt)
    rw [hnone]
    split
    · simp [Nat.ne_of_lt hlt]
    · simpa [hbeyond] using hi

theorem Indexes.of_eq {m : Std.TreeMap NodeId Nat} {xs ys : List (Option NodeId)}
    (h : Indexes m xs) (heq : ys = xs) : Indexes m ys := heq ▸ h

/-- The definition is in order, and the tables by node are right. -/
structure Kept (a : Arena) (b : Builder) : Prop where
  arena : b.definition.arena = a
  ordered : b.definition.Ordered
  byNode : Indexes b.byNode b.definition.nodes
  siteIndex : Indexes b.siteIndex b.definition.siteNodes
  isOpen : b.finalized = false

theorem kept_ofArena (a : Arena) : (ofArena a).Kept a where
  arena := rfl
  ordered := ⟨.nil, fun p => by cases p <;> rfl⟩
  byNode node id := by simp [ofArena, Definition.nodes]
  siteIndex node i := by simp [ofArena, Definition.siteNodes]
  isOpen := rfl

/-! Runs of steps. -/

theorem run_bind (m : Building α) (f : α → Building β) (b : Builder) :
    (m >>= f) b = match m b with
      | .ok x b' => f x b'
      | .error e b' => .error e b' := by
  change EStateM.bind m f b = _
  rw [EStateM.bind]
  cases m b <;> rfl

theorem get_run (b : Builder) : (get : Building Builder) b = .ok b b := rfl

theorem ensureOpen_run (b : Builder) :
    ensureOpen b = if b.finalized then .error .builderFinalized b else .ok () b := by
  cases h : b.finalized
  · change (if b.finalized then throw .builderFinalized else pure () : Building Unit) b = _
    rw [h]
    rfl
  · change (if b.finalized then throw .builderFinalized else pure () : Building Unit) b = _
    rw [h]
    rfl

/-- The builder with one more element, which is filed nowhere yet. -/
def withElement (b : Builder) (e : Element) : Builder where
  definition := b.definition.extended e
  byNode := b.byNode.insert e.node b.definition.elements.length
  siteIndex := b.siteIndex
  finalized := b.finalized

/-- What registering comes to. -/
inductive Registration (r : Role) (c : Candidate) (b : Builder) :
    EStateM.Result ScriptError Builder (ElementId × Bool) → Prop
  | refused (e : ScriptError) (h : e.IsConflict)
    (hrole : ∃ f ∈ b.definition.elements, f.node = c.node ∧ f.role ≠ r) :
    Registration r c b (.error e b)
  | known (id : ElementId) (e : Element) (h : b.definition.element? id = some e)
    (hnode : e.node = c.node) (hrole : e.role = r) : Registration r c b (.ok (id, false) b)
  | new (h : ∀ e ∈ b.definition.elements, e.node ≠ c.node) :
    Registration r c b (.ok (b.definition.elements.length, true)
      (b.withElement ⟨r, c.node, c.mark, c.declaration?⟩))

theorem registration (h : b.Kept a) (r : Role) (c : Candidate) :
    Registration r c b (register r c b) := by
  rw [register, run_bind, ensureOpen_run, h.isOpen]
  simp only [Bool.false_eq_true, if_false]
  rw [run_bind, get_run]
  dsimp only
  cases hid : b.byNode[c.node]? with
  | some id =>
    have hat := (h.byNode c.node id).mp hid
    rw [Definition.nodes, List.getElem?_map] at hat
    obtain ⟨e, he, hnode⟩ := Option.map_eq_some_iff.mp hat
    simp only [Definition.element?, he]
    split
    · rename_i hrole
      exact .known id e he (Option.some.inj hnode) hrole
    · rename_i hrole
      exact .refused _ trivial ⟨e, List.mem_of_getElem? he, Option.some.inj hnode, hrole⟩
  | none =>
    refine .new fun e he hnode => ?_
    obtain ⟨i, hi⟩ := List.mem_iff_getElem?.mp (Definition.mem_nodes.mpr ⟨e, he, hnode⟩)
    exact absurd (hid.symm.trans ((h.byNode c.node i).mpr hi)) nofun

/-- The candidate has its element, and at most that is new. -/
structure Entered (a : Arena) (r : Role) (c : Candidate) (b : Builder) (id : ElementId)
    (b' : Builder) : Prop where
  kept : b'.Kept a
  element : ∃ e, b'.definition.element? id = some e ∧ e.node = c.node ∧ e.role = r
  elements : ∀ e ∈ b'.definition.elements,
    e ∈ b.definition.elements ∨ e = ⟨r, c.node, c.mark, c.declaration?⟩

/-- The candidate gets its element, or there is a conflict and nothing changes. -/
def Enters (a : Arena) (r : Role) (c : Candidate) (b : Builder) :
    EStateM.Result ScriptError Builder ElementId → Prop
  | .ok id b' => Entered a r c b id b'
  | .error e b' => e.IsConflict ∧ b' = b

theorem Entered.known (h : b.Kept a) (hid : b.definition.element? id = some e)
    (hnode : e.node = c.node) (hrole : e.role = r) : Entered a r c b id b :=
  ⟨h, ⟨e, hid, hnode, hrole⟩, fun _ he => .inl he⟩

/-- A new element that has been put into its drawer. -/
theorem Entered.new (h : b.Kept a) (hnew : ∀ e ∈ b.definition.elements, e.node ≠ c.node)
    (harena : b'.definition.arena = b.definition.arena)
    (helements : b'.definition.elements =
      b.definition.elements ++ [⟨r, c.node, c.mark, c.declaration?⟩])
    (hown : (b'.definition.content r.drawer).Perm
      (b.definition.content r.drawer ++ [b.definition.elements.length]))
    (hothers : ∀ p, p ≠ r.drawer → b'.definition.content p = b.definition.content p)
    (hbyNode : b'.byNode = b.byNode.insert c.node b.definition.elements.length)
    (hsites : Indexes b'.siteIndex b'.definition.siteNodes)
    (hopen : b'.finalized = b.finalized) : Entered a r c b b.definition.elements.length b' where
  kept := by
    refine ⟨harena.trans h.arena, h.ordered.enter hnew helements hown hothers, ?_, hsites,
      hopen.trans h.isOpen⟩
    have hfresh : some c.node ∉ b.definition.nodes := fun hmem => by
      obtain ⟨e, he, hnode⟩ := Definition.mem_nodes.mp hmem
      exact hnew e he hnode
    have hinsert := h.byNode.insert hfresh
    rw [hbyNode]
    simpa [Definition.nodes, helements] using hinsert
  element := ⟨_, by rw [Definition.element?, helements, List.getElem?_concat_length], rfl, rfl⟩
  elements e he := by
    rw [helements] at he
    exact (List.mem_append.mp he).imp_right List.mem_singleton.mp

/-- The element is put into the drawer of its role, and the sites stay where they are. -/
structure Files (r : Role) (id : ElementId) (d d' : Definition) : Prop where
  arena : d'.arena = d.arena
  elements : d'.elements = d.elements
  own : (d'.content r.drawer).Perm (d.content r.drawer ++ [id])
  others : ∀ p, p ≠ r.drawer → d'.content p = d.content p
  sites : d'.sites.map (·.element) = d.sites.map (·.element)

theorem Files.siteNodes (h : Files r id d d') : d'.siteNodes = d.siteNodes := by
  have hnodes (d : Definition) : d.siteNodes =
      (d.sites.map (·.element)).map fun i => (d.elements[i]?).map (·.node) := by
    rw [List.map_map]
    rfl
  rw [hnodes, hnodes, h.sites, h.elements]

theorem enter_enters {file : ElementId → Definition → Definition} (h : b.Kept a) (r : Role)
    (c : Candidate) (hfile : ∀ id e, Files r id (b.definition.extended e)
      (file id (b.definition.extended e))) :
    Enters a r c b (enter r c file b) := by
  rw [Builder.enter, run_bind]
  have hreg := registration h r c
  generalize register r c b = result at hreg
  cases hreg with
  | refused e he hrole => exact ⟨he, rfl⟩
  | known id e hid hnode hrole => exact .known h hid hnode hrole
  | new hnew =>
    have hfiles := hfile b.definition.elements.length ⟨r, c.node, c.mark, c.declaration?⟩
    refine .new h hnew hfiles.arena hfiles.elements hfiles.own hfiles.others rfl ?_ rfl
    exact h.siteIndex.of_eq (hfiles.siteNodes.trans h.ordered.siteNodes_extended)

theorem addSite_enters (h : b.Kept a) (c : Candidate) :
    Enters a .injectionSite c b (addSite c b) := by
  rw [addSite, run_bind]
  have hreg := registration h .injectionSite c
  generalize register .injectionSite c b = result at hreg
  cases hreg with
  | refused e he hrole => exact ⟨he, rfl⟩
  | known id e hid hnode hrole => exact .known h hid hnode hrole
  | new hnew =>
    refine .new h hnew rfl rfl ?_ ?_ rfl ?_ rfl
    · exact .of_eq List.map_append
    · intro p hp
      cases p with
      | sites => exact absurd rfl hp
      | parameters => exact List.flatMap_append.trans (List.append_nil _)
      | _ => rfl
    · have hfresh : some c.node ∉ b.definition.siteNodes := fun hmem => by
        obtain ⟨e, he, hnode⟩ := Definition.mem_nodes.mp (Definition.siteNodes_subset hmem)
        exact hnew e he hnode
      have hinsert := h.siteIndex.insert hfresh
      rw [Definition.siteNodes, List.length_map] at hinsert
      refine hinsert.of_eq ?_
      rw [Definition.siteNodes, List.map_append]
      congr 1
      · exact h.ordered.siteNodes_extended
      · simp [withElement, Definition.extended, Definition.element?]

theorem setStartup_enters (h : b.Kept a) (c : Candidate) :
    Enters a .startup c b (setStartup c b) := by
  rw [setStartup, run_bind, ensureOpen_run, h.isOpen]
  simp only [Bool.false_eq_true, if_false]
  rw [run_bind, get_run]
  dsimp only
  cases hs : b.definition.startup? with
  | some id => exact ⟨trivial, rfl⟩
  | none =>
    dsimp only
    rw [run_bind]
    have hreg := registration h .startup c
    generalize register .startup c b = result at hreg
    cases hreg with
    | refused e he hrole => exact ⟨he, rfl⟩
    | known id e hid hnode hrole =>
      have hmem : id ∈ b.definition.content .startup := by
        rw [h.ordered.mem_iff]
        exact ⟨e, hid, by rw [hrole]; rfl⟩
      rw [Definition.content, hs] at hmem
      exact absurd hmem nofun
    | new hnew =>
      refine .new h hnew rfl rfl ?_ ?_ rfl ?_ rfl
      · change [b.definition.elements.length].Perm (b.definition.startup?.toList ++ _)
        rw [hs]
        exact .refl _
      · intro p hp
        cases p <;> first | rfl | exact absurd rfl hp
      · exact h.siteIndex.of_eq h.ordered.siteNodes_extended

theorem addOnError_enters (h : b.Kept a) (c : Candidate) :
    Enters a .onError c b (addOnError c b) :=
  enter_enters h .onError c fun _ _ =>
    ⟨rfl, rfl, .refl _, fun p hp => by cases p <;> first | rfl | exact absurd rfl hp, rfl⟩

theorem addOnLoaded_enters (h : b.Kept a) (c : Candidate) :
    Enters a .onLoaded c b (addOnLoaded c b) :=
  enter_enters h .onLoaded c fun _ _ =>
    ⟨rfl, rfl, .refl _, fun p hp => by cases p <;> first | rfl | exact absurd rfl hp, rfl⟩

theorem addBeforeUnload_enters (h : b.Kept a) (c : Candidate) :
    Enters a .beforeUnload c b (addBeforeUnload c b) :=
  enter_enters h .beforeUnload c fun _ _ =>
    ⟨rfl, rfl, .refl _, fun p hp => by cases p <;> first | rfl | exact absurd rfl hp, rfl⟩

theorem addTemplate_enters (h : b.Kept a) (c : Candidate) :
    Enters a .injectTemplate c b (addTemplate c b) :=
  enter_enters h .injectTemplate c fun _ _ =>
    ⟨rfl, rfl, .refl _, fun p hp => by cases p <;> first | rfl | exact absurd rfl hp, rfl⟩

theorem addVariable_enters (h : b.Kept a) (hr : r.site = .variableChain) (c : Candidate) :
    Enters a r c b (addVariable r c b) := by
  have hdrawer : r.drawer = .variables := by
    cases r <;> first | rfl | exact absurd hr nofun
  refine enter_enters h r c fun id e => ⟨rfl, rfl, ?_, ?_, rfl⟩
  · rw [hdrawer]
    exact .refl _
  · rw [hdrawer]
    intro p hp
    cases p <;> first | rfl | exact absurd rfl hp

/-- The site with one more parameter. -/
def withParameter (id : ElementId) (site : InjectionSite) : InjectionSite :=
  { site with parameters := site.parameters ++ [id] }

theorem flatMap_modify_perm {sites : List InjectionSite} {i : Nat} (hi : i < sites.length) :
    ((sites.modify i (withParameter id)).flatMap (·.parameters)).Perm
      (sites.flatMap (·.parameters) ++ [id]) := by
  induction sites generalizing i with
  | nil => exact absurd hi (Nat.not_lt_zero _)
  | cons site sites ih =>
    cases i with
    | zero =>
      rw [List.modify_zero_cons, List.flatMap_cons, List.flatMap_cons, withParameter,
        List.append_assoc, List.append_assoc]
      exact List.perm_append_comm.append_left _
    | succ i =>
      rw [List.modify_succ_cons, List.flatMap_cons, List.flatMap_cons, List.append_assoc]
      exact (ih (Nat.lt_of_succ_lt_succ hi)).append_left _

theorem map_element_modify (sites : List InjectionSite) (i : Nat) :
    (sites.modify i (withParameter id)).map (·.element) = sites.map (·.element) := by
  induction sites generalizing i with
  | nil => cases i <;> rfl
  | cons site sites ih =>
    cases i with
    | zero => rfl
    | succ i => rw [List.modify_succ_cons, List.map_cons, List.map_cons, ih]

theorem addParameter_enters (h : b.Kept a) (function : NodeId) (c : Candidate) :
    Enters a .injectParameter c b (addParameter function c b) := by
  rw [addParameter, run_bind, ensureOpen_run, h.isOpen]
  simp only [Bool.false_eq_true, if_false]
  rw [run_bind, get_run]
  dsimp only
  cases hi : b.siteIndex[function]? with
  | none => exact ⟨trivial, rfl⟩
  | some i =>
    have hlt : i < b.definition.sites.length := by
      have hat := List.getElem?_eq_some_iff.mp ((h.siteIndex function i).mp hi)
      simpa [Definition.siteNodes] using hat.choose
    refine enter_enters h _ c fun id e => ⟨rfl, rfl, flatMap_modify_perm hlt, fun p hp => ?_,
      map_element_modify _ _⟩
    cases p with
    | sites => exact map_element_modify _ _
    | parameters => exact absurd rfl hp
    | _ => rfl

theorem add_enters (h : b.Kept a) (r : Role) (c : Candidate) : Enters a r c b (add r c b) := by
  cases r with
  | injectionSite => exact addSite_enters h c
  | startup => exact setStartup_enters h c
  | injectParameter => exact ⟨trivial, rfl⟩
  | onError => exact addOnError_enters h c
  | onLoaded => exact addOnLoaded_enters h c
  | beforeUnload => exact addBeforeUnload_enters h c
  | injectTemplate => exact addTemplate_enters h c
  | injectVariable | injectSecret | injectDatabase | injectConstant =>
    exact addVariable_enters h rfl c

/-! Any number of calls. -/

/-- A call on a builder. -/
inductive Call where
  | site (c : Candidate)
  | startup (c : Candidate)
  | onError (c : Candidate)
  | onLoaded (c : Candidate)
  | beforeUnload (c : Candidate)
  | template (c : Candidate)
  | injected (r : Role) (h : r.site = .variableChain) (c : Candidate)
  | parameter (function : NodeId) (c : Candidate)
  | add (r : Role) (c : Candidate)
  | build

inductive Answer where
  | element (id : ElementId)
  | definition (d : Definition)

namespace Call

def run : Call → Building Answer
  | site c => .element <$> addSite c
  | startup c => .element <$> setStartup c
  | onError c => .element <$> addOnError c
  | onLoaded c => .element <$> addOnLoaded c
  | beforeUnload c => .element <$> addBeforeUnload c
  | template c => .element <$> addTemplate c
  | injected r _ c => .element <$> addVariable r c
  | parameter function c => .element <$> addParameter function c
  | add r c => .element <$> Builder.add r c
  | build => .definition <$> Builder.build

/-- The builder after a call, whether or not the call fails. -/
def after (call : Call) (b : Builder) : Builder :=
  match call.run b with
  | .ok _ b' => b'
  | .error _ b' => b'

def runAll (calls : List Call) (b : Builder) : Builder := calls.foldl (fun b call => call.after b) b

end Call

/-- What a call comes to: an element, the definition so far, or no change at all. -/
def Answers (a : Arena) (b : Builder) : EStateM.Result ScriptError Builder Answer → Prop
  | .ok (.element id) b' => b'.Kept a ∧ id < b'.definition.elements.length
  | .ok (.definition d) b' => b.Kept a ∧ d = b.definition ∧ b'.finalized = true
  | .error _ b' => b' = b

theorem run_map {m : Building α} (f : α → β) (b : Builder) :
    (f <$> m) b = match m b with
      | .ok x b' => .ok (f x) b'
      | .error e b' => .error e b' := by
  change EStateM.map f m b = _
  rw [EStateM.map]
  cases m b <;> rfl

theorem answers_of_enters {m : Building ElementId} (h : Enters a r c b (m b)) :
    Answers a b ((Answer.element <$> m) b) := by
  rw [run_map]
  cases hm : m b with
  | error e b' =>
    rw [hm] at h
    exact h.2
  | ok id b' =>
    rw [hm] at h
    obtain ⟨e, he, -⟩ := h.element
    exact ⟨h.kept, (List.getElem?_eq_some_iff.mp he).choose⟩

/-- While the builder is open, every call keeps the order or changes nothing. -/
theorem run_answers (h : b.Kept a) (call : Call) : Answers a b (call.run b) := by
  cases call with
  | site c => exact answers_of_enters (addSite_enters h c)
  | startup c => exact answers_of_enters (setStartup_enters h c)
  | onError c => exact answers_of_enters (addOnError_enters h c)
  | onLoaded c => exact answers_of_enters (addOnLoaded_enters h c)
  | beforeUnload c => exact answers_of_enters (addBeforeUnload_enters h c)
  | template c => exact answers_of_enters (addTemplate_enters h c)
  | injected r hr c => exact answers_of_enters (addVariable_enters h hr c)
  | parameter function c => exact answers_of_enters (addParameter_enters h function c)
  | add r c => exact answers_of_enters (add_enters h r c)
  | build =>
    rw [Call.run, run_map, build, run_bind, ensureOpen_run, h.isOpen]
    exact ⟨h, rfl, rfl⟩

theorem bind_error {m : Building α} {e : ScriptError} (h : m b = .error e b')
    (f : α → Building β) : (m >>= f) b = .error e b' := by
  rw [run_bind, h]

theorem map_error {m : Building α} {e : ScriptError} (h : m b = .error e b') (f : α → β) :
    (f <$> m) b = .error e b' := by
  rw [run_map, h]

/-- Why a call fails once the definition has been given. A parameter on its own is refused for want
of a site before anything else is looked at. -/
def Call.refusal (b : Builder) : Call → ScriptError
  | .add .injectParameter c => .orphanParameter (b.definition.arena.label c.node) "script"
  | _ => .builderFinalized

/-- Once the definition has been given, every call fails and changes nothing. -/
theorem run_finalized (h : b.finalized = true) (call : Call) :
    call.run b = .error (call.refusal b) b := by
  have hopen : ensureOpen b = .error .builderFinalized b := by rw [ensureOpen_run, h, if_pos rfl]
  have hregister (r : Role) (c : Candidate) : register r c b = .error .builderFinalized b :=
    bind_error hopen _
  have henter (r : Role) (c : Candidate) (file : ElementId → Definition → Definition) :
      enter r c file b = .error .builderFinalized b := bind_error (hregister r c) _
  have hsite (c : Candidate) : addSite c b = .error .builderFinalized b :=
    bind_error (hregister _ c) _
  have hstartup (c : Candidate) : setStartup c b = .error .builderFinalized b := bind_error hopen _
  cases call with
  | site c => exact map_error (hsite c) _
  | startup c => exact map_error (hstartup c) _
  | onError c | onLoaded c | beforeUnload c | template c | injected r hr c =>
    exact map_error (henter _ c _) _
  | parameter function c => exact map_error (bind_error hopen _) _
  | build => exact map_error (bind_error hopen _) _
  | add r c =>
    refine map_error ?_ _
    cases r with
    | injectionSite => exact hsite c
    | startup => exact hstartup c
    | injectParameter => rfl
    | onError => exact (henter _ c _ : addOnError c b = _)
    | onLoaded => exact (henter _ c _ : addOnLoaded c b = _)
    | beforeUnload => exact (henter _ c _ : addBeforeUnload c b = _)
    | injectTemplate => exact (henter _ c _ : addTemplate c b = _)
    | injectVariable | injectSecret | injectDatabase | injectConstant =>
      exact (henter _ c _ : addVariable _ c b = _)

/-- The definition is given once: afterwards the builder stays as it is, whatever is called on it. -/
theorem runAll_build {d : Definition} (h : Call.run .build b = .ok (.definition d) b')
    (calls : List Call) :
    Call.runAll calls b' = b' ∧ ∀ call : Call, call.run b' = .error (call.refusal b') b' := by
  have hfinalized : b'.finalized = true := by
    cases hb : b.finalized with
    | true => exact absurd ((run_finalized hb .build).symm.trans h) nofun
    | false =>
      rw [Call.run, run_map, build, run_bind, ensureOpen_run, hb] at h
      cases h
      rfl
  refine ⟨?_, run_finalized hfinalized⟩
  induction calls with
  | nil => rfl
  | cons call calls ih =>
    have hstep : call.after b' = b' := by rw [Call.after, run_finalized hfinalized]
    rw [Call.runAll, List.foldl_cons, hstep]
    exact ih

/-- Calls keep an open builder in order. -/
theorem kept_after (h : b.finalized = false → b.Kept a) (call : Call)
    (hopen : (call.after b).finalized = false) : (call.after b).Kept a := by
  cases hb : b.finalized with
  | true =>
    rw [Call.after, run_finalized hb] at hopen
    exact absurd (hb.symm.trans hopen) nofun
  | false =>
    have hanswers := run_answers (h hb) call
    rw [Call.after] at hopen ⊢
    cases hr : call.run b with
    | error e b' =>
      rw [hr] at hanswers
      obtain rfl : b' = b := hanswers
      exact h hb
    | ok answer b' =>
      rw [hr] at hanswers hopen
      cases answer with
      | element id => exact hanswers.1
      | definition d => exact absurd (hanswers.2.2.symm.trans hopen) nofun

theorem kept_runAll (h : b.finalized = false → b.Kept a) (calls : List Call)
    (hopen : (Call.runAll calls b).finalized = false) : (Call.runAll calls b).Kept a := by
  induction calls generalizing b with
  | nil => exact h hopen
  | cons call calls ih => exact ih (kept_after h call) hopen

/-- The definition is given by a builder after some calls. -/
def Gives (a : Arena) (d : Definition) : Prop :=
  ∃ calls b, Call.run .build (Call.runAll calls (ofArena a)) = .ok (.definition d) b

theorem Gives.ordered (h : Gives a d) : d.Ordered := by
  obtain ⟨calls, b, hbuild⟩ := h
  cases hb : (Call.runAll calls (ofArena a)).finalized with
  | true => exact absurd ((run_finalized hb .build).symm.trans hbuild) nofun
  | false =>
    have hkept := kept_runAll (fun _ => kept_ofArena a) calls hb
    have hanswers := run_answers hkept .build
    rw [hbuild] at hanswers
    obtain ⟨-, rfl, -⟩ := hanswers
    exact hkept.ordered

/-! The definition of a survey. -/

theorem attempt_run (call : Call) {step : Building ElementId} (h : call.run = .element <$> step)
    (state : Builder × List ScriptError) : (attempt step state).1 = call.after state.1 := by
  rw [attempt, Call.after, h, run_map]
  cases step state.1 <;> rfl

theorem foldl_attempt {step : α → Building ElementId} {call : α → Call}
    (h : ∀ x, (call x).run = .element <$> step x) (xs : List α)
    (state : Builder × List ScriptError) :
    (xs.foldl (fun s x => attempt (step x) s) state).1 = Call.runAll (xs.map call) state.1 := by
  induction xs generalizing state with
  | nil => rfl
  | cons x xs ih => rw [List.foldl_cons, ih, attempt_run _ (h x)]; rfl

/-- The calls that add all that a survey found. -/
def Call.ofSurvey (s : Survey) : List Call :=
  (s.candidates.filter (·.1.isEntrypoint) ++ s.candidates.filter (!·.1.isEntrypoint)).map
      (fun p => .add p.1 p.2) ++
    s.parameters.map fun p => .parameter p.1 p.2

theorem addSurvey_run (b : Builder) (s : Survey) :
    (b.addSurvey s).1 = Call.runAll (Call.ofSurvey s) b := by
  have hcandidates (xs : List (Role × Candidate)) (state : Builder × List ScriptError) :=
    @foldl_attempt _ (fun p => add p.1 p.2) (fun p => .add p.1 p.2) (fun _ => rfl) xs state
  have hparameters (xs : List (NodeId × Candidate)) (state : Builder × List ScriptError) :=
    @foldl_attempt _ (fun p => addParameter p.1 p.2) (fun p => .parameter p.1 p.2) (fun _ => rfl) xs
      state
  rw [Call.ofSurvey, Call.runAll, List.foldl_append]
  exact (hparameters _ _).trans (congrArg (Call.runAll _) (hcandidates _ (b, [])))

theorem gives_of_ofSurvey? (h : Definition.ofSurvey? a s = .ok d) : Gives a d := by
  have hrun := addSurvey_run (ofArena a) s
  rw [Definition.ofSurvey?] at h
  generalize (ofArena a).addSurvey s = added at h hrun
  obtain ⟨b, errors⟩ := added
  cases errors with
  | cons e es => exact absurd h nofun
  | nil =>
    dsimp only at h hrun
    cases hbuild : build b with
    | error e b' => simp [hbuild] at h
    | ok given b' =>
      rw [hbuild] at h
      obtain rfl := Except.ok.inj h
      exact ⟨Call.ofSurvey s, b', by rw [← hrun, Call.run, run_map, hbuild]⟩

/-- The builder is in order, and its elements stand for nodes of their roles. -/
def Fits (a : Arena) (b : Builder) : Prop :=
  b.Kept a ∧ ∀ e ∈ b.definition.elements, a.Filed e.role ⟨e.node, e.mark, e.declaration?⟩

/-- The builder fits after some attempts, and those that failed were conflicts. -/
def Attempted (a : Arena) (state : Builder × List ScriptError) : Prop :=
  Fits a state.1 ∧ ∀ e ∈ state.2, e.IsConflict

theorem attempted_attempt {step : Building ElementId} {state : Builder × List ScriptError}
    (hs : Attempted a state) (h : Enters a r c state.1 (step state.1)) (hc : a.Filed r c) :
    Attempted a (attempt step state) := by
  rw [attempt]
  cases hstep : step state.1 with
  | error e b' =>
    rw [hstep] at h
    obtain ⟨he, rfl⟩ : e.IsConflict ∧ b' = state.1 := h
    refine ⟨hs.1, fun d hd => ?_⟩
    rcases List.mem_append.mp hd with hd | hd
    · exact hs.2 d hd
    · rwa [List.mem_singleton.mp hd]
  | ok id b' =>
    rw [hstep] at h
    refine ⟨⟨h.kept, fun e he => ?_⟩, hs.2⟩
    rcases h.elements e he with he | rfl
    · exact hs.1.2 e he
    · exact hc

theorem attempted_foldl {step : Builder × List ScriptError → α → Builder × List ScriptError}
    {xs : List α} {state : Builder × List ScriptError} (hs : Attempted a state)
    (h : ∀ x ∈ xs, ∀ s : Builder × List ScriptError, Attempted a s → Attempted a (step s x)) :
    Attempted a (xs.foldl step state) := by
  induction xs generalizing state with
  | nil => exact hs
  | cons x xs ih => exact ih (h x (by simp) state hs) fun y hy => h y (by simp [hy])

theorem attempted_addSurvey (hb : Fits a b) (hs : Survey.Found a s) :
    Attempted a (b.addSurvey s) := by
  refine attempted_foldl (attempted_foldl ⟨hb, nofun⟩ ?_) ?_
  · rintro ⟨r, c⟩ hp state hstate
    refine attempted_attempt hstate (add_enters hstate.1.1 r c) ?_
    rcases List.mem_append.mp hp with hp | hp
    · exact (hs.candidates _ (List.mem_filter.mp hp).1).1
    · exact (hs.candidates _ (List.mem_filter.mp hp).1).1
  · rintro ⟨owner, c⟩ hp state hstate
    exact attempted_attempt hstate (addParameter_enters hstate.1.1 owner c) (hs.parameters _ hp)

theorem build_run (h : b.Kept a) : ∃ b', build b = .ok b.definition b' := by
  rw [build, run_bind, ensureOpen_run, h.isOpen]
  exact ⟨_, rfl⟩

end Builder

namespace Definition

/-- Elements stand for nodes of their roles and are filed under them. -/
structure Sound (a : Arena) (d : Definition) : Prop extends Ordered d where
  arena : d.arena = a
  elements : ∀ e ∈ d.elements, a.Filed e.role ⟨e.node, e.mark, e.declaration?⟩

/-- The definition of a survey is sound, or some candidates are in conflict. -/
theorem sound_or_isConflict (hs : Survey.Found a s) :
    match Definition.ofSurvey? a s with
    | .ok d => d.Sound a
    | .error es => es ≠ [] ∧ ∀ e ∈ es, e.IsConflict := by
  have hempty : Builder.Fits a (.ofArena a) := ⟨Builder.kept_ofArena a, nofun⟩
  have hadded := Builder.attempted_addSurvey hempty hs
  rw [ofSurvey?]
  generalize (Builder.ofArena a).addSurvey s = added at hadded
  obtain ⟨b, errors⟩ := added
  cases errors with
  | nil =>
    obtain ⟨⟨hkept, helements⟩, -⟩ := hadded
    obtain ⟨b', hbuild⟩ := Builder.build_run hkept
    dsimp only
    rw [hbuild]
    exact { hkept.ordered with arena := hkept.arena, elements := helements }
  | cons e es => exact ⟨List.cons_ne_nil e es, hadded.2⟩

theorem sound_of_ofSurvey? (h : Definition.ofSurvey? a s = .ok d) (hs : Survey.Found a s) :
    d.Sound a := by
  have hsound := sound_or_isConflict hs
  rwa [h] at hsound

end Definition

end ScriptInject
