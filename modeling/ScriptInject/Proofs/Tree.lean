import Mathlib.Algebra.GroupWithZero.Nat
import ScriptInject.Node
/-! Syntax trees: nodes that hold their children themselves, each with a label of its own. -/
namespace ScriptInject

inductive Tree (ι : Type) where
  | mk (label : ι) (node : Node (Tree ι))

namespace Node
variable {α β γ : Type} {f g : α → β} {n : Node α}

@[simp] theorem children_map (f : α → β) (n : Node α) :
    (n.map f).children = n.children.map f := by
  cases n <;> simp [children, map, Option.toList_map, List.map_flatMap, List.flatMap_map]

theorem optionMap_eq_iff {o : Option α} : o.map f = o.map g ↔ ∀ a, o = some a → f a = g a := by
  cases o <;> simp

theorem map_congr (h : ∀ a ∈ n.children, f a = g a) : n.map f = n.map g := by
  cases n <;> simp_all [children, map, or_imp, forall_and, optionMap_eq_iff]
  all_goals grind

theorem map_map (f : α → β) (g : β → γ) (n : Node α) : (n.map f).map g = n.map (g ∘ f) := by
  cases n <;> simp [map, Function.comp_def]

theorem map_id (n : Node α) : n.map id = n := by
  cases n <;> simp [map]

end Node

namespace Tree
variable {ι κ β : Type} {s t : Tree ι}

def label : Tree ι → ι
  | .mk label _ => label

def node : Tree ι → Node (Tree ι)
  | .mk _ n => n

mutual

/-- The value of a tree, by a rule that sees each node's subtrees with their values. -/
def para (f : ι → Node (Tree ι × β) → β) : Tree ι → β
  | .mk label n => f label (paraNode f n)

def paraNode (f : ι → Node (Tree ι × β) → β) : Node (Tree ι) → Node (Tree ι × β)
  | .scriptBlock usings params blocks =>
    .scriptBlock (paraList f usings) (paraOption f params) (paraList f blocks)
  | .namedBlock kind unnamed statements traps =>
    .namedBlock kind unnamed (paraList f statements) (paraList f traps)
  | .paramBlock annotations parameters =>
    .paramBlock (paraList f annotations) (paraList f parameters)
  | .parameter annotations name value =>
    .parameter (paraList f annotations) (name, para f name) (paraOption f value)
  | .attributeSpec type positional named =>
    .attributeSpec type (paraList f positional) (paraList f named)
  | .namedArgument name value => .namedArgument name (paraOption f value)
  | .typeConstraint type => .typeConstraint type
  | .statementBlock statements => .statementBlock (paraList f statements)
  | .usingStatement kind name => .usingStatement kind name
  | .functionDefinition name isFilter parameters body =>
    .functionDefinition name isFilter (paraList f parameters) (body, para f body)
  | .pipeline elements => .pipeline (paraList f elements)
  | .command invocation elements => .command invocation (paraList f elements)
  | .commandParameter name argument => .commandParameter name (paraOption f argument)
  | .commandExpression expression => .commandExpression (expression, para f expression)
  | .assignment left operator right =>
    .assignment (left, para f left) operator (right, para f right)
  | .ifStatement clauses elseBody => .ifStatement (paraPairs f clauses) (paraOption f elseBody)
  | .whileLoop label condition body =>
    .whileLoop label (condition, para f condition) (body, para f body)
  | .doWhile label body condition =>
    .doWhile label (body, para f body) (condition, para f condition)
  | .doUntil label body condition =>
    .doUntil label (body, para f body) (condition, para f condition)
  | .forLoop label start condition step body =>
    .forLoop label (paraOption f start) (paraOption f condition) (paraOption f step)
      (body, para f body)
  | .forEach label item items body =>
    .forEach label (item, para f item) (items, para f items) (body, para f body)
  | .tryStatement body catches cleanup =>
    .tryStatement (body, para f body) (paraList f catches) (paraOption f cleanup)
  | .catchClause types body => .catchClause (paraList f types) (body, para f body)
  | .trap type body => .trap (paraOption f type) (body, para f body)
  | .returnStatement value => .returnStatement (paraOption f value)
  | .throwStatement value => .throwStatement (paraOption f value)
  | .breakStatement label => .breakStatement label
  | .continueStatement label => .continueStatement label
  | .number text => .number text
  | .stringConstant value kind => .stringConstant value kind
  | .expandableString value kind => .expandableString value kind
  | .variableRef path splatted => .variableRef path splatted
  | .usingExpression target => .usingExpression (target, para f target)
  | .typeExpression type => .typeExpression type
  | .convert type child => .convert (type, para f type) (child, para f child)
  | .annotated mark child => .annotated (mark, para f mark) (child, para f child)
  | .binary operator left right => .binary operator (left, para f left) (right, para f right)
  | .unary operator child => .unary operator (child, para f child)
  | .ternary condition whenTrue whenFalse =>
    .ternary (condition, para f condition) (whenTrue, para f whenTrue) (whenFalse, para f whenFalse)
  | .arrayLiteral elements => .arrayLiteral (paraList f elements)
  | .arrayExpression statements => .arrayExpression (paraList f statements)
  | .subExpression statements => .subExpression (paraList f statements)
  | .paren statement => .paren (statement, para f statement)
  | .hashtable pairs => .hashtable (paraPairs f pairs)
  | .scriptBlockExpression body => .scriptBlockExpression (body, para f body)
  | .member target name isStatic nullConditional =>
    .member (target, para f target) (name, para f name) isStatic nullConditional
  | .invokeMember target name arguments isStatic nullConditional =>
    .invokeMember (target, para f target) (name, para f name) (paraList f arguments) isStatic
      nullConditional
  | .index target key nullConditional =>
    .index (target, para f target) (key, para f key) nullConditional
  | .error text => .error text

def paraList (f : ι → Node (Tree ι × β) → β) : List (Tree ι) → List (Tree ι × β)
  | [] => []
  | t :: ts => (t, para f t) :: paraList f ts

def paraOption (f : ι → Node (Tree ι × β) → β) : Option (Tree ι) → Option (Tree ι × β)
  | none => none
  | some t => some (t, para f t)

def paraPairs (f : ι → Node (Tree ι × β) → β) :
    List (Tree ι × Tree ι) → List ((Tree ι × β) × (Tree ι × β))
  | [] => []
  | (s, t) :: ps => ((s, para f s), (t, para f t)) :: paraPairs f ps

end

theorem paraList_eq (f : ι → Node (Tree ι × β) → β) (ts : List (Tree ι)) :
    paraList f ts = ts.map fun t => (t, para f t) := by
  induction ts with
  | nil => simp [paraList]
  | cons t ts ih => simp [paraList, ih]

theorem paraPairs_eq (f : ι → Node (Tree ι × β) → β) (ps : List (Tree ι × Tree ι)) :
    paraPairs f ps = ps.map fun (s, t) => ((s, para f s), (t, para f t)) := by
  induction ps with
  | nil => simp [paraPairs]
  | cons p ps ih => obtain ⟨s, t⟩ := p; simp [paraPairs, ih]

theorem paraOption_eq (f : ι → Node (Tree ι × β) → β) (t : Option (Tree ι)) :
    paraOption f t = t.map fun t => (t, para f t) := by
  cases t <;> simp [paraOption]

theorem para_mk (f : ι → Node (Tree ι × β) → β) (label : ι) (n : Node (Tree ι)) :
    para f (.mk label n) = f label (n.map fun t => (t, para f t)) := by
  rw [para]
  congr 1
  cases n <;> simp only [paraNode, Node.map, paraList_eq, paraOption_eq, paraPairs_eq]

theorem induct {P : Tree ι → Prop}
    (h : ∀ label n, (∀ t ∈ n.children, P t) → P (.mk label n)) (t : Tree ι) : P t := by
  apply @Tree.rec ι P (fun n => ∀ t ∈ n.children, P t) (fun ts => ∀ t ∈ ts, P t)
    (fun o => ∀ t ∈ o, P t) (fun ps => ∀ p ∈ ps, P p.1 ∧ P p.2) (fun p => P p.1 ∧ P p.2) h
  all_goals try simp only [Node.children, List.mem_append, List.mem_cons, List.mem_flatMap,
    Option.mem_toList, List.not_mem_nil]
  all_goals grind

/-- The tree with `f` applied to each label. -/
def map (f : ι → κ) : Tree ι → Tree κ :=
  para fun label n => .mk (f label) (n.map (·.2))

/-- The tree without its labels. -/
def shape (t : Tree ι) : Tree Unit := t.map fun _ => ()

/-- A tree and all the trees inside it, in pre-order. -/
def subtrees : Tree ι → List (Tree ι) :=
  para fun label n => .mk label (n.map (·.1)) :: n.children.flatMap (·.2)

def labels (t : Tree ι) : List ι := t.subtrees.map label

/-- Some property holds of every node of the tree. -/
def All (P : Node (Tree ι) → Prop) (t : Tree ι) : Prop := ∀ s ∈ t.subtrees, P s.node

@[simp] theorem label_mk (label : ι) (n : Node (Tree ι)) : (mk label n).label = label := rfl

@[simp] theorem node_mk (label : ι) (n : Node (Tree ι)) : (mk label n).node = n := rfl

theorem map_mk (f : ι → κ) (label : ι) (n : Node (Tree ι)) :
    (mk label n).map f = .mk (f label) (n.map (map f)) := by
  simp only [map, para_mk, Node.map_map]
  rfl

@[simp] theorem label_map (f : ι → κ) (t : Tree ι) : (t.map f).label = f t.label := by
  cases t
  rw [map_mk, label_mk, label_mk]

@[simp] theorem node_map (f : ι → κ) (t : Tree ι) : (t.map f).node = t.node.map (map f) := by
  cases t
  rw [map_mk, node_mk, node_mk]

theorem map_id (t : Tree ι) : t.map id = t := by
  induction t using induct with
  | h label n ih =>
    rw [map_mk, Node.map_congr ih]
    exact congrArg _ (Node.map_id n)

theorem map_comp (f : ι → κ) (g : κ → β) (t : Tree ι) : (t.map f).map g = t.map (g ∘ f) := by
  induction t using induct with
  | h label n ih =>
    simp only [map_mk, Node.map_map]
    congr 1
    exact Node.map_congr ih

theorem subtrees_mk (label : ι) (n : Node (Tree ι)) :
    (mk label n).subtrees = .mk label n :: n.children.flatMap subtrees := by
  rw [subtrees, para_mk]
  simp only [Node.map_map, Node.children_map, List.flatMap_map, Function.comp_def]
  rw [show n.map (fun t => t) = n from Node.map_id n]

theorem subtrees_map (f : ι → κ) (t : Tree ι) : (t.map f).subtrees = t.subtrees.map (map f) := by
  induction t using induct with
  | h label n ih =>
    rw [map_mk, subtrees_mk, subtrees_mk, List.map_cons, map_mk, Node.children_map,
      List.flatMap_map, List.map_flatMap]
    rw [List.flatMap_def, List.flatMap_def, List.map_congr_left ih]

theorem labels_map (f : ι → κ) (t : Tree ι) : (t.map f).labels = t.labels.map f := by
  simp [labels, subtrees_map, Function.comp_def]

theorem labels_mk (label : ι) (n : Node (Tree ι)) :
    (mk label n).labels = label :: n.children.flatMap labels := by
  simp only [labels, subtrees_mk, List.map_cons, label_mk, List.map_flatMap]
  rfl

/-- How many nodes the tree has. -/
def size (t : Tree ι) : Nat := t.labels.length

theorem size_mk (l : ι) (n : Node (Tree ι)) : (mk l n).size = (n.children.map size).sum + 1 := by
  rw [size, labels_mk, List.length_cons, List.length_flatMap]
  rfl

theorem map_congr {f g : ι → κ} (h : ∀ l ∈ t.labels, f l = g l) : t.map f = t.map g := by
  induction t using induct with
  | h label n ih =>
    rw [labels_mk] at h
    rw [map_mk, map_mk, h label (by simp)]
    congr 1
    refine Node.map_congr fun c hc => ih c hc fun l hl => h l ?_
    exact List.mem_cons_of_mem _ (List.mem_flatMap.mpr ⟨c, hc, hl⟩)

theorem self_mem_subtrees (t : Tree ι) : t ∈ t.subtrees := by
  cases t
  simp [subtrees_mk]

theorem mem_subtrees_mk {label : ι} {n : Node (Tree ι)} :
    s ∈ (mk label n).subtrees ↔ s = .mk label n ∨ ∃ t ∈ n.children, s ∈ t.subtrees := by
  simp [subtrees_mk]

theorem mem_subtrees_of_child {c : Tree ι} (hc : c ∈ t.node.children) (hs : s ∈ c.subtrees) :
    s ∈ t.subtrees := by
  cases t
  exact mem_subtrees_mk.mpr (.inr ⟨c, hc, hs⟩)

theorem subtrees_trans {u : Tree ι} (hs : s ∈ t.subtrees) (ht : t ∈ u.subtrees) :
    s ∈ u.subtrees := by
  induction u using induct with
  | h label n ih =>
    rcases mem_subtrees_mk.mp ht with rfl | ⟨c, hc, hu⟩
    · exact hs
    · exact mem_subtrees_mk.mpr (.inr ⟨c, hc, ih c hc hu⟩)

theorem all_mk {P : Node (Tree ι) → Prop} {label : ι} {n : Node (Tree ι)} :
    (mk label n).All P ↔ P n ∧ ∀ t ∈ n.children, t.All P := by
  simp only [All, subtrees_mk, List.mem_cons, forall_eq_or_imp, node_mk, List.mem_flatMap]
  grind

theorem All.mono {P Q : Node (Tree ι) → Prop} (h : t.All P) (hpq : ∀ n, P n → Q n) : t.All Q :=
  fun s hs => hpq _ (h s hs)

end Tree

end ScriptInject
