import ScriptInject.Proofs.Stripping
import ScriptInject.Proofs.WellFormed
/-! What a survey makes of each node of a tree, told from where the node stands. -/
namespace ScriptInject

/-- What a survey knows of a node from what is above it. -/
inductive Standing where
  | free
  | functionBody
  /-- The `param` block of a function. -/
  | functionParams
  /-- What a link of a chain goes on to. -/
  | link
  /-- The only element of a pipeline. -/
  | sole (statement : NodeId)
  /-- What a statement declares, if it is a chain. -/
  | declared (statement : NodeId)

namespace Standing

variable {α β : Type} {σ : Standing} {id : NodeId} {n : Node α}

/-- All of them in the same standing. -/
def each (σ : Standing) (xs : List α) : List (Standing × α) := xs.map (σ, ·)

theorem mem_each {xs : List α} {c : Standing × α} : c ∈ each σ xs ↔ c.1 = σ ∧ c.2 ∈ xs := by
  obtain ⟨τ, x⟩ := c
  simp only [each, List.mem_map, Prod.mk.injEq]
  grind

theorem map_snd_each (xs : List α) : (each σ xs).map (·.2) = xs := by
  simp [each, Function.comp_def]

theorem each_map (f : α → β) (xs : List α) :
    each σ (xs.map f) = (each σ xs).map fun c => (c.1, f c.2) := by
  simp [each]

/-- The children of a node with their standings. -/
def below (σ : Standing) (id : NodeId) : Node α → List (Standing × α)
  | .functionDefinition _ _ parameters body => each free parameters ++ [(functionBody, body)]
  | .scriptBlock usings params blocks =>
    each free usings ++ each (match σ with | functionBody => functionParams | _ => free) params.toList ++
      each free blocks
  | .pipeline [element] => [(sole id, element)]
  | .commandExpression expression =>
    [((match σ with | sole statement => declared statement | _ => free), expression)]
  | .assignment left _ right => [(declared id, left), (free, right)]
  | .annotated mark child => [(free, mark), (link, child)]
  | .convert type child => [(free, type), (link, child)]
  | n => each free n.children

theorem map_snd_below (σ : Standing) (id : NodeId) (n : Node α) :
    (below σ id n).map (·.2) = n.children := by
  cases n with
  | pipeline elements =>
    rcases elements with - | ⟨e, - | ⟨f, elements⟩⟩ <;> first | rfl | exact map_snd_each _
  | functionDefinition | scriptBlock => simp [below, Node.children, map_snd_each]
  | commandExpression | assignment | annotated | convert => rfl
  | _ => exact map_snd_each _

theorem below_map (f : α → β) : below σ id (n.map f) = (below σ id n).map fun c => (c.1, f c.2) := by
  have hfree : each free (n.map f).children = (each free n.children).map fun c => (c.1, f c.2) := by
    rw [Node.children_map, each_map]
  cases n with
  | pipeline elements =>
    rcases elements with - | ⟨e, - | ⟨f, elements⟩⟩ <;> first | rfl | exact hfree
  | functionDefinition | scriptBlock => simp [below, Node.map, Option.toList_map, each_map]
  | commandExpression | assignment | annotated | convert => rfl
  | _ => exact hfree

/-- Why a child stands as it does. -/
inductive Reason (σ : Standing) (id : NodeId) : Node α → Standing → α → Prop
  | free (n : Node α) (x : α) : Reason σ id n free x
  | functionBody (name isFilter parameters body) :
    Reason σ id (.functionDefinition name isFilter parameters body) functionBody body
  | functionParams (usings params blocks) (h : σ = functionBody) :
    Reason σ id (.scriptBlock usings (some params) blocks) functionParams params
  | sole (element) : Reason σ id (.pipeline [element]) (sole id) element
  | expression (statement x) (h : σ = sole statement) :
    Reason σ id (.commandExpression x) (declared statement) x
  | left (left operator right) : Reason σ id (.assignment left operator right) (declared id) left
  | annotated (mark child) : Reason σ id (.annotated mark child) link child
  | convert (type child) : Reason σ id (.convert type child) link child

theorem reason_of_below {c : Standing × α} (h : c ∈ below σ id n) : Reason σ id n c.1 c.2 := by
  have hfree {xs : List α} (h : c ∈ each free xs) : Reason σ id n c.1 c.2 := by
    rw [(mem_each.mp h).1]
    exact .free n c.2
  cases n with
  | functionDefinition name isFilter parameters body =>
    rcases List.mem_append.mp h with h | h
    · exact hfree h
    · obtain rfl := List.mem_singleton.mp h
      exact .functionBody ..
  | scriptBlock usings params blocks =>
    rcases List.mem_append.mp h with h | h
    · rcases List.mem_append.mp h with h | h
      · exact hfree h
      · cases σ with
        | functionBody =>
          obtain ⟨hσ, hp⟩ := mem_each.mp h
          obtain rfl := Option.mem_toList.mp hp
          rw [hσ]
          exact .functionParams _ _ _ rfl
        | _ => exact hfree h
    · exact hfree h
  | pipeline elements =>
    rcases elements with - | ⟨e, - | ⟨f, elements⟩⟩
    · exact absurd h nofun
    · obtain rfl := List.mem_singleton.mp h
      exact .sole _
    · exact hfree h
  | commandExpression expression =>
    obtain rfl := List.mem_singleton.mp h
    cases σ with
    | sole statement => exact .expression _ _ rfl
    | _ => exact .free ..
  | assignment left operator right =>
    rcases List.mem_pair.mp h with rfl | rfl
    · exact .left ..
    · exact .free ..
  | annotated mark child =>
    rcases List.mem_pair.mp h with rfl | rfl
    · exact .free ..
    · exact .annotated ..
  | convert type child =>
    rcases List.mem_pair.mp h with rfl | rfl
    · exact .free ..
    · exact .convert ..
  | _ => exact hfree h

theorem mem_children_of_below {c : Standing × α} (h : c ∈ below σ id n) : c.2 ∈ n.children := by
  rw [← map_snd_below σ id n]
  exact List.mem_map_of_mem h

end Standing

namespace Tree

variable {ι : Type} {t c mark : Tree ι} {label : ι} {n : Node (Tree ι)}

/-! Chains. -/

def isChain (t : Tree ι) : Bool :=
  match t.node with
  | .annotated .. | .convert .. => true
  | _ => false

/-- The attributes of a chain from its outermost link on. -/
def chainMarks : Tree ι → List (Tree ι) :=
  para fun _ n => match n with
    | .annotated mark child => mark.1 :: child.2
    | .convert _ child => child.2
    | _ => []

def chainLinks : Tree ι → List (Tree ι) :=
  para fun label n => match n with
    | .annotated _ child | .convert _ child => .mk label (n.map (·.1)) :: child.2
    | _ => []

/-- What stands behind the links. -/
def chainEnd : Tree ι → Tree ι :=
  para fun label n => match n with
    | .annotated _ child | .convert _ child => child.2
    | _ => .mk label (n.map (·.1))

theorem chainMarks_annotated : (mk label (.annotated mark c)).chainMarks = mark :: c.chainMarks := rfl

theorem chainLinks_annotated : (mk label (.annotated mark c)).chainLinks =
    mk label (.annotated mark c) :: c.chainLinks := rfl

theorem chainMarks_convert : (mk label (.convert mark c)).chainMarks = c.chainMarks := rfl

theorem chainLinks_convert : (mk label (.convert mark c)).chainLinks =
    mk label (.convert mark c) :: c.chainLinks := rfl

theorem chainMarks_of_not_isChain (h : t.isChain = false) : t.chainMarks = [] := by
  obtain ⟨l, n⟩ := t
  cases n with
  | annotated | convert => exact absurd h nofun
  | _ => rfl

theorem chainLinks_of_not_isChain (h : t.isChain = false) : t.chainLinks = [] := by
  obtain ⟨l, n⟩ := t
  cases n with
  | annotated | convert => exact absurd h nofun
  | _ => rfl

theorem chainLinks_of_isChain (h : t.isChain = true) : t.chainLinks = t :: t.chainLinks.tail := by
  obtain ⟨l, n⟩ := t
  cases n with
  | annotated | convert => rfl
  | _ => exact absurd h nofun

theorem chainEnd_of_not_isChain (h : t.isChain = false) : t.chainEnd = t := by
  obtain ⟨l, n⟩ := t
  have hself : mk l ((n.map fun c => (c, c.chainEnd)).map (·.1)) = mk l n := by
    rw [Node.map_map]
    exact congrArg _ (Node.map_id n)
  rw [chainEnd, para_mk]
  cases n with
  | annotated | convert => exact absurd h nofun
  | _ => exact hself

/-- Chains one link after the other. -/
theorem chainInduct {P : Tree ι → Prop}
    (annotated : ∀ label mark c, P c → P (.mk label (.annotated mark c)))
    (convert : ∀ label type c, P c → P (.mk label (.convert type c)))
    (last : ∀ t, t.isChain = false → P t) (t : Tree ι) : P t := by
  induction t using induct with
  | h label n ih =>
    cases n with
    | annotated mark c => exact annotated label mark c (ih c (by simp [Node.children]))
    | convert type c => exact convert label type c (ih c (by simp [Node.children]))
    | _ => exact last _ rfl

theorem chainLinks_sublist (t : Tree ι) : t.chainLinks.Sublist t.subtrees := by
  have hbelow {label : ι} {x c : Tree ι} {n : Node (Tree ι)} (hn : n.children = [x, c])
      (h : c.chainLinks.Sublist c.subtrees) :
      (mk label n :: c.chainLinks).Sublist (mk label n).subtrees := by
    rw [subtrees_mk, hn, List.flatMap_cons, List.flatMap_singleton]
    exact (h.trans (List.sublist_append_right ..)).cons_cons _
  induction t using chainInduct with
  | annotated label mark c ih => exact hbelow rfl ih
  | convert label type c ih => exact hbelow rfl ih
  | last t h =>
    rw [chainLinks_of_not_isChain h]
    exact List.nil_sublist _

theorem chainMarks_subset (t : Tree ι) : ∀ m ∈ t.chainMarks, m ∈ t.subtrees := by
  induction t using chainInduct with
  | annotated label mark c ih =>
    intro m hm
    rcases List.mem_cons.mp hm with rfl | hm
    · exact mem_subtrees_mk.mpr (.inr ⟨m, by simp [Node.children], m.self_mem_subtrees⟩)
    · exact mem_subtrees_mk.mpr (.inr ⟨c, by simp [Node.children], ih m hm⟩)
  | convert label type c ih =>
    exact fun m hm => mem_subtrees_mk.mpr (.inr ⟨c, by simp [Node.children], ih m hm⟩)
  | last t h =>
    rw [chainMarks_of_not_isChain h]
    simp

theorem chainEnd_mem_subtrees (t : Tree ι) : t.chainEnd ∈ t.subtrees := by
  induction t using chainInduct with
  | annotated label mark c ih => exact mem_subtrees_mk.mpr (.inr ⟨c, by simp [Node.children], ih⟩)
  | convert label type c ih => exact mem_subtrees_mk.mpr (.inr ⟨c, by simp [Node.children], ih⟩)
  | last t h =>
    rw [chainEnd_of_not_isChain h]
    exact t.self_mem_subtrees

/-- The `param` block of a body. -/
def params? (n : Node (Tree ι)) : Option (Tree ι) :=
  match n with
  | .scriptBlock _ params _ => params
  | _ => none

/-- The attributes of a `param` block. -/
def blockMarks (t : Tree ι) : List (Tree ι) :=
  match t.node with
  | .paramBlock attributes _ => attributes
  | _ => []

def bodyMarks (body : Tree ι) : List (Tree ι) := (params? body.node).toList.flatMap blockMarks

theorem blockMarks_subset (t : Tree ι) : ∀ m ∈ t.blockMarks, m ∈ t.node.children := by
  intro m hm
  rw [blockMarks] at hm
  split at hm
  · rename_i attributes parameters hn
    rw [hn]
    exact List.mem_append_left _ hm
  · exact absurd hm nofun

theorem bodyMarks_subset (body : Tree ι) : ∀ m ∈ body.bodyMarks, m ∈ body.subtrees := by
  intro m hm
  obtain ⟨p, hp, hm⟩ := List.mem_flatMap.mp hm
  unfold params? at hp
  split at hp
  · rename_i usings params blocks hn
    have hchild : p ∈ body.node.children := by
      rw [hn]
      exact List.mem_append_left _ (List.mem_append_right _ hp)
    exact mem_subtrees_of_child hchild
      (mem_subtrees_of_child (blockMarks_subset p m hm) m.self_mem_subtrees)
  · exact absurd hp nofun

def chainSite? (t : Tree ι) : Option Site :=
  match t.chainEnd.node with
  | .variableRef .. => some .variableChain
  | .scriptBlockExpression _ => some .scriptBlock
  | _ => none

end Tree

/-- A mark that does not apply to what bears it. -/
structure Misplaced where
  mark : NodeId
  marker : Marker
  bearer : NodeId

def Misplaced.warning (a : Arena) (m : Misplaced) : Warning :=
  .misplacedMarker m.marker (a.label m.bearer)

namespace Survey

variable (site? : Option Site) (bearer : NodeId) (declaration? : Option NodeId)

/-- What becomes of a mark whose marker applies. -/
def filedMark (mark : Tree NodeId) : List (Role × Candidate) :=
  match mark.marker? with
  | none => []
  | some marker =>
    match site?.bind marker.role? with
    | some role => [(role, ⟨bearer, mark.label, declaration?⟩)]
    | none => []

/-- What becomes of a mark whose marker does not apply. -/
def misplacedMark (mark : Tree NodeId) : List Misplaced :=
  match mark.marker? with
  | none => []
  | some marker =>
    match site?.bind marker.role? with
    | some _ => []
    | none => [⟨mark.label, marker, bearer⟩]

/-- Each mark is filed or misplaced. -/
theorem filedMark_misplacedMark_perm (marks : List (Tree NodeId)) :
    ((marks.flatMap (filedMark site? bearer declaration?)).map (·.2.mark) ++
      (marks.flatMap (misplacedMark site? bearer)).map (·.mark)).Perm
        ((marks.filter Tree.isMarker).map Tree.label) := by
  induction marks with
  | nil => rfl
  | cons m ms ih =>
    rw [List.flatMap_cons, List.flatMap_cons, List.filter_cons, Tree.isMarker]
    cases hm : m.marker? with
    | none => simpa [filedMark, misplacedMark, hm] using ih
    | some marker =>
      cases hr : site?.bind marker.role? with
      | none => simpa [filedMark, misplacedMark, hm, hr] using List.perm_middle.trans (ih.cons _)
      | some role => simpa [filedMark, misplacedMark, hm, hr] using ih

end Survey

/-- A node of a tree with the function or script block that owns its parameters. -/
structure Position where
  owner : NodeId
  standing : Standing
  tree : Tree NodeId

namespace Position

open Survey

variable (p : Position)

/-- The attributes that the survey looks at when it comes to the node. -/
def marks : List (Tree NodeId) :=
  match p.tree.node, p.standing with
  | .functionDefinition _ _ _ body, _ => body.bodyMarks
  | .paramBlock .., .functionParams => []
  | .paramBlock attributes _, _ => attributes
  | .parameter attributes _ _, _ => attributes
  | .annotated .., .link | .convert .., .link => []
  | .annotated .., _ | .convert .., _ => p.tree.chainMarks
  | _, _ => []

/-- What kind of node the attributes stand on. -/
def site? : Option Site :=
  match p.tree.node with
  | .functionDefinition .. => some .function
  | .parameter .. => some .parameter
  | .annotated .. | .convert .. => p.tree.chainSite?
  | _ => none

/-- The node that the attributes stand on. -/
def bearer : NodeId :=
  match p.tree.node with
  | .paramBlock .. => p.owner
  | _ => p.tree.label

/-- The statement or parameter that declares the variable in question. -/
def declaration? : Option NodeId :=
  match p.site?, p.standing with
  | some .parameter, _ => some p.tree.label
  | some .variableChain, .declared statement => some statement
  | _, _ => none

def filed : List (Role × Candidate) :=
  p.marks.flatMap (filedMark p.site? p.bearer p.declaration?)

def misplaced : List Misplaced := p.marks.flatMap (misplacedMark p.site? p.bearer)

def candidates : List (Role × Candidate) := if p.site? = some .parameter then [] else p.filed

def parameters : List (NodeId × Candidate) :=
  if p.site? = some .parameter then p.filed.map fun (_, c) => (p.owner, c) else []

def usings : List NodeId :=
  match p.tree.node with
  | .usingStatement .. => [p.tree.label]
  | _ => []

theorem marks_subset : ∀ m ∈ p.marks, m ∈ p.tree.subtrees := by
  obtain ⟨owner, σ, t⟩ := p
  intro m hm
  have hchild (h : m ∈ t.node.children) : m ∈ t.subtrees :=
    Tree.mem_subtrees_of_child h m.self_mem_subtrees
  obtain ⟨l, n⟩ := t
  cases n with
  | functionDefinition name isFilter parameters body =>
    exact Tree.mem_subtrees_mk.mpr (.inr ⟨body, by simp [Node.children], body.bodyMarks_subset m hm⟩)
  | paramBlock attributes parameters =>
    cases σ with
    | functionParams => exact absurd hm List.not_mem_nil
    | _ => exact hchild (List.mem_append_left _ hm)
  | parameter attributes name value =>
    exact hchild (List.mem_append_left _ (List.mem_append_left _ hm))
  | annotated mark child =>
    cases σ with
    | link => exact absurd hm List.not_mem_nil
    | _ => exact Tree.chainMarks_subset _ m hm
  | convert type child =>
    cases σ with
    | link => exact absurd hm List.not_mem_nil
    | _ => exact Tree.chainMarks_subset _ m hm
  | _ => exact absurd hm List.not_mem_nil

/-- Only what a `param` block without a function has is not the node's own. -/
theorem bearer_of_site? (h : p.site?.isSome = true) : p.bearer = p.tree.label := by
  obtain ⟨owner, σ, l, n⟩ := p
  cases n with
  | paramBlock => exact absurd h nofun
  | _ => rfl

theorem isChain_of_site? (h : p.site? = some .variableChain) : p.tree.isChain = true := by
  obtain ⟨owner, σ, l, n⟩ := p
  cases n with
  | annotated | convert => rfl
  | _ => exact absurd h nofun

theorem declaration?_eq_iff {d : NodeId} (h : p.site? = some .variableChain) :
    p.declaration? = some d ↔ p.standing = .declared d := by
  rw [declaration?, h]
  cases p.standing <;> simp

/-- Whatever a node is, each marker among its marks becomes one thing. -/
theorem accounts_perm : (p.candidates.map (·.2.mark) ++ p.parameters.map (·.2.mark) ++
    p.misplaced.map (·.mark)).Perm ((p.marks.filter Tree.isMarker).map Tree.label) := by
  have hperm := filedMark_misplacedMark_perm p.site? p.bearer p.declaration? p.marks
  rw [candidates, parameters]
  split
  · simpa [filed, misplaced, Function.comp_def] using hperm
  · simpa [filed, misplaced] using hperm

end Position

namespace Tree

/-- The nodes of a tree in pre-order, with where they stand. -/
def positions : Tree NodeId → NodeId → Standing → List Position :=
  para fun label n owner σ =>
    ⟨owner, σ, .mk label (n.map (·.1))⟩ ::
      (σ.below label n).flatMap fun c =>
        c.2.2 (Survey.ownerBelow owner label (n.map (·.1.label))) c.1

variable {label owner : NodeId} {n : Node (Tree NodeId)} {σ : Standing} {t : Tree NodeId}

theorem positions_mk : (mk label n).positions owner σ =
    ⟨owner, σ, mk label n⟩ :: (σ.below label n).flatMap fun c =>
      c.2.positions (Survey.ownerBelow owner label (n.map Tree.label)) c.1 := by
  rw [positions, para_mk]
  simp only [Node.map_map, Standing.below_map, List.flatMap_map, Function.comp_def]
  rw [show n.map (fun t => t) = n from Node.map_id n]

theorem map_tree_positions (t : Tree NodeId) (owner : NodeId) (σ : Standing) :
    (t.positions owner σ).map Position.tree = t.subtrees := by
  induction t using induct generalizing owner σ with
  | h label n ih =>
    rw [positions_mk, subtrees_mk, List.map_cons, List.map_flatMap]
    congr 1
    rw [← Standing.map_snd_below σ label n, List.flatMap_map]
    exact List.flatMap_congr fun c hc => ih c.2 (Standing.mem_children_of_below hc) _ _

/-! Each attribute is looked at once: where it stands, or with something above it. -/

theorem children_eq {ι : Type} (n : Node (Tree ι)) : n.children = attributesOf n ++ unattributed n := by
  cases n with
  | parameter attributes name value => simp [Node.children, attributesOf, unattributed]
  | _ => rfl

/-- The attributes below a node that the survey looks at before it comes to the node. -/
def owed (σ : Standing) (t : Tree NodeId) : List (Tree NodeId) :=
  match σ with
  | .functionBody => t.bodyMarks
  | .functionParams => t.blockMarks
  | .link => t.chainMarks
  | _ => []

variable {x : Tree NodeId}

@[simp] theorem owed_free : owed .free x = [] := rfl

@[simp] theorem owed_functionBody : owed .functionBody x = x.bodyMarks := rfl

@[simp] theorem owed_functionParams : owed .functionParams x = x.blockMarks := rfl

@[simp] theorem owed_link : owed .link x = x.chainMarks := rfl

@[simp] theorem owed_declared {d : NodeId} : owed (.declared d) x = [] := rfl

@[simp] theorem owed_sole {d : NodeId} : owed (.sole d) x = [] := rfl

@[simp] theorem flatMap_owed_each_free (ts : List (Tree NodeId)) :
    ((Standing.each .free ts).flatMap fun c => owed c.1 c.2) = [] := by
  simp [Standing.each, List.flatMap_map]

@[simp] theorem flatMap_owed_each_params (ts : List (Tree NodeId)) :
    ((Standing.each .functionParams ts).flatMap fun c => owed c.1 c.2) = ts.flatMap blockMarks := by
  simp [Standing.each, List.flatMap_map]

/-- Where the `param` block of a function should be, there is one. -/
def Suits (σ : Standing) (n : Node (Tree NodeId)) : Prop :=
  σ = .functionParams → ∃ attributes parameters, n = .paramBlock attributes parameters

theorem Suits.below (hm : MarksPlaced n) {c : Standing × Tree NodeId} (hc : c ∈ σ.below label n) :
    Suits c.1 c.2.node := by
  intro hσ
  have hreason := Standing.reason_of_below hc
  rw [hσ] at hreason
  cases hreason with
  | functionParams usings params blocks => exact hm.params usings c.2 blocks rfl

theorem marks_append_owed (h : Suits σ n) :
    (⟨owner, σ, mk label n⟩ : Position).marks ++ owed σ (mk label n) =
      attributesOf n ++ (σ.below label n).flatMap fun c => owed c.1 c.2 := by
  -- Most nodes have no attributes, and none are owed below them.
  have hother (hp : params? n = none) (hc : (mk label n).isChain = false)
      (hb : (mk label n).blockMarks = []) : owed σ (mk label n) = [] := by
    cases σ with
    | functionBody => rw [owed_functionBody, bodyMarks, node_mk, hp]; rfl
    | functionParams => exact hb
    | link => exact chainMarks_of_not_isChain hc
    | _ => rfl
  have hlink : (mk label n).isChain = false → (mk label n).chainMarks = [] :=
    chainMarks_of_not_isChain
  cases n with
  | functionDefinition name isFilter parameters body =>
    rw [hother rfl rfl rfl]
    cases σ <;> simp [Standing.below, Position.marks, attributesOf]
  | scriptBlock usings params blocks =>
    cases σ with
    | functionBody => simp [Standing.below, Position.marks, attributesOf, bodyMarks, params?]
    | link => simp [Standing.below, Position.marks, attributesOf, hlink rfl]
    | _ => simp [Standing.below, Position.marks, attributesOf, blockMarks]
  | paramBlock attributes parameters =>
    cases σ with
    | functionParams => simp [Standing.below, Position.marks, attributesOf, blockMarks]
    | functionBody => simp [Standing.below, Position.marks, attributesOf, bodyMarks, params?]
    | link => simp [Standing.below, Position.marks, attributesOf, hlink rfl]
    | _ => simp [Standing.below, Position.marks, attributesOf]
  | parameter attributes name value =>
    rw [hother rfl rfl rfl]
    cases σ <;> simp [Standing.below, Position.marks, attributesOf]
  | annotated mark child =>
    cases σ with
    | functionParams => exact absurd (h rfl) (by simp)
    | functionBody =>
      simp [Standing.below, Position.marks, attributesOf, bodyMarks, params?, chainMarks_annotated]
    | _ => simp [Standing.below, Position.marks, attributesOf, chainMarks_annotated]
  | convert type child =>
    cases σ with
    | functionParams => exact absurd (h rfl) (by simp)
    | functionBody =>
      simp [Standing.below, Position.marks, attributesOf, bodyMarks, params?, chainMarks_convert]
    | _ => simp [Standing.below, Position.marks, attributesOf, chainMarks_convert]
  | pipeline elements =>
    rw [hother rfl rfl rfl]
    rcases elements with - | ⟨e, - | ⟨f, elements⟩⟩ <;>
      cases σ <;> simp [Standing.below, Position.marks, attributesOf, Node.children]
  | commandExpression expression =>
    rw [hother rfl rfl rfl]
    cases σ <;> simp [Standing.below, Position.marks, attributesOf]
  | assignment left operator right =>
    rw [hother rfl rfl rfl]
    cases σ <;> simp [Standing.below, Position.marks, attributesOf]
  | _ =>
    rw [hother rfl rfl rfl]
    cases σ <;> simp [Standing.below, Position.marks, attributesOf]

/-- Over a whole tree the survey looks at every attribute once. -/
theorem marks_perm (owner : NodeId) (h : Suits σ t.node) (hm : t.All MarksPlaced) :
    ((t.positions owner σ).flatMap Position.marks ++ owed σ t).Perm
      (t.subtrees.flatMap fun s => attributesOf s.node) := by
  induction t using induct generalizing owner σ with
  | h label n ih =>
    obtain ⟨hn, hc⟩ := all_mk.mp hm
    let step := Survey.ownerBelow owner label (n.map Tree.label)
    have hbelow : ((σ.below label n).flatMap fun c =>
        (c.2.positions step c.1).flatMap Position.marks ++ owed c.1 c.2).Perm
          (n.children.flatMap fun c => c.subtrees.flatMap fun s => attributesOf s.node) := by
      rw [← Standing.map_snd_below σ label n, List.flatMap_map]
      refine List.Perm.flatMap_left _ fun c hmem => ?_
      have hchild := Standing.mem_children_of_below hmem
      exact ih c.2 hchild step (.below hn hmem) (hc c.2 hchild)
    rw [positions_mk, subtrees_mk, List.flatMap_cons, List.flatMap_cons, List.flatMap_assoc,
      List.flatMap_assoc, node_mk]
    let marks := (⟨owner, σ, mk label n⟩ : Position).marks
    let inner := (σ.below label n).flatMap fun c => (c.2.positions step c.1).flatMap Position.marks
    have hown : (marks ++ inner ++ owed σ (mk label n)).Perm
        (marks ++ owed σ (mk label n) ++ inner) := by
      rw [List.append_assoc, List.append_assoc]
      exact List.perm_append_comm.append_left _
    have hrest : (((σ.below label n).flatMap fun c => owed c.1 c.2) ++ inner).Perm
        ((σ.below label n).flatMap fun c =>
          (c.2.positions step c.1).flatMap Position.marks ++ owed c.1 c.2) :=
      List.perm_append_comm.trans (List.flatMap_append_perm ..)
    refine hown.trans ?_
    rw [show marks ++ owed σ (mk label n) = _ from marks_append_owed h, List.append_assoc]
    exact (hrest.trans hbelow).append_left _

/-- All nodes but the top one are children of another. -/
theorem children_perm {ι : Type} (t : Tree ι) :
    (t.subtrees.flatMap fun s => s.node.children).Perm t.subtrees.tail := by
  induction t using induct with
  | h label n ih =>
    have hbelow : (n.children.flatMap fun c => c.subtrees.flatMap fun s => s.node.children).Perm
        (n.children.flatMap fun c => c.subtrees.tail) := List.Perm.flatMap_left _ ih
    have hcons : (n.children.flatMap fun c => c :: c.subtrees.tail) = n.children.flatMap subtrees := by
      refine List.flatMap_congr fun c _ => ?_
      obtain ⟨l, m⟩ := c
      rw [subtrees_mk, List.tail_cons]
    rw [subtrees_mk, List.flatMap_cons, List.flatMap_assoc, node_mk, List.tail_cons, ← hcons]
    refine (hbelow.append_left _).trans ?_
    simpa using List.map_append_flatMap_perm n.children (fun c => c) fun c => c.subtrees.tail

/-- The markers of a tree stand among the attributes of its nodes. -/
theorem markers_perm (hm : t.All MarksPlaced) (htop : t.isMarker = false) :
    ((t.subtrees.flatMap fun s => attributesOf s.node).filter isMarker).Perm
      (t.subtrees.filter isMarker) := by
  have hchildren : (t.subtrees.flatMap fun s => s.node.children.filter isMarker) =
      t.subtrees.flatMap fun s => (attributesOf s.node).filter isMarker := by
    refine List.flatMap_congr fun s hs => ?_
    have hnone : (unattributed s.node).filter isMarker = [] := by
      simpa using (hm s hs).unattributed
    rw [children_eq, List.filter_append, hnone, List.append_nil]
  have htail : t.subtrees.tail.filter isMarker = t.subtrees.filter isMarker := by
    obtain ⟨l, n⟩ := t
    rw [subtrees_mk, List.tail_cons, List.filter_cons, htop]
    rfl
  rw [List.filter_flatMap, ← hchildren, ← List.filter_flatMap, ← htail]
  exact t.children_perm.filter _

/-- The survey looks at every marker once. -/
theorem marks_perm_markers (hm : t.All MarksPlaced) (htop : t.isMarker = false) :
    (((t.positions owner .free).flatMap Position.marks).filter isMarker).Perm
      (t.subtrees.filter isMarker) := by
  have hall := marks_perm owner (σ := .free) nofun hm
  rw [owed_free, List.append_nil] at hall
  exact (hall.filter _).trans (markers_perm hm htop)

/-! Positions and the positions below them. -/

end Tree

/-- Where a child of the node stands. -/
def Position.child (p : Position) (c : Standing × Tree NodeId) : Position :=
  ⟨Survey.ownerBelow p.owner p.tree.label (p.tree.node.map Tree.label), c.1, c.2⟩

/-- The children of the node with their standings. -/
def Position.below (p : Position) : List (Standing × Tree NodeId) :=
  p.standing.below p.tree.label p.tree.node

namespace Tree

variable {t : Tree NodeId} {owner : NodeId} {σ : Standing} {p q : Position}

theorem mem_positions_iff : p ∈ t.positions owner σ ↔ p = ⟨owner, σ, t⟩ ∨
    ∃ c ∈ (⟨owner, σ, t⟩ : Position).below,
      p ∈ c.2.positions ((⟨owner, σ, t⟩ : Position).child c).owner c.1 := by
  obtain ⟨l, n⟩ := t
  rw [positions_mk, List.mem_cons, List.mem_flatMap]
  rfl

theorem self_mem_positions : ⟨owner, σ, t⟩ ∈ t.positions owner σ :=
  mem_positions_iff.mpr (.inl rfl)

/-- From the top position to those below. -/
theorem positions_induct {P : Position → Prop} (top : P ⟨owner, σ, t⟩)
    (child : ∀ q ∈ t.positions owner σ, P q → ∀ c ∈ q.below, P (q.child c)) :
    ∀ p ∈ t.positions owner σ, P p := by
  induction t using induct generalizing owner σ with
  | h label n ih =>
    intro p hp
    rcases mem_positions_iff.mp hp with rfl | ⟨c, hc, hp⟩
    · exact top
    · refine ih c.2 (Standing.mem_children_of_below hc) (child _ self_mem_positions top c hc) ?_ p hp
      intro q hq
      exact child q (mem_positions_iff.mpr (.inr ⟨c, hc, hq⟩))

theorem child_mem_positions (hq : q ∈ t.positions owner σ) {c : Standing × Tree NodeId}
    (hc : c ∈ q.below) : q.child c ∈ t.positions owner σ := by
  induction t using induct generalizing owner σ with
  | h label n ih =>
    rcases mem_positions_iff.mp hq with rfl | ⟨d, hd, hq⟩
    · exact mem_positions_iff.mpr (.inr ⟨c, hc, self_mem_positions⟩)
    · exact mem_positions_iff.mpr (.inr ⟨d, hd, ih d.2 (Standing.mem_children_of_below hd) hq⟩)

/-- Below the top, a position comes from the one above it. -/
theorem eq_child_of_mem_positions (hp : p ∈ t.positions owner σ) : p = ⟨owner, σ, t⟩ ∨
    ∃ q ∈ t.positions owner σ, ∃ c ∈ q.below, p = q.child c :=
  positions_induct (P := fun p => p = ⟨owner, σ, t⟩ ∨
      ∃ q ∈ t.positions owner σ, ∃ c ∈ q.below, p = q.child c)
    (.inl rfl) (fun q hq _ c hc => .inr ⟨q, hq, c, hc, rfl⟩) p hp

theorem exists_position (owner : NodeId) (σ : Standing) (hs : s ∈ t.subtrees) : ∃ p ∈ t.positions owner σ, p.tree = s := by
  rw [← map_tree_positions t owner σ] at hs
  exact List.mem_map.mp hs

theorem tree_mem_subtrees (hp : p ∈ t.positions owner σ) : p.tree ∈ t.subtrees := by
  rw [← map_tree_positions t owner σ]
  exact List.mem_map_of_mem hp

theorem map_label_positions (t : Tree NodeId) (owner : NodeId) (σ : Standing) :
    ((t.positions owner σ).map fun p => p.tree.label) = t.labels := by
  rw [labels, ← map_tree_positions t owner σ, List.map_map]
  rfl

theorem position_unique (hnodup : t.labels.Nodup) (hp : p ∈ t.positions owner σ)
    (hq : q ∈ t.positions owner σ) (h : p.tree.label = q.tree.label) : p = q := by
  rw [← map_label_positions t owner σ] at hnodup
  exact List.inj_on_of_nodup_map hnodup hp hq h

end Tree

end ScriptInject
