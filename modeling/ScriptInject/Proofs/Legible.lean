import ScriptInject.Proofs.Phrase
/-! Which trees read back from their source text. Next to the shape of a tree, which the grammar
fixes, it matters what a phrase begins with where something else could begin as well. -/
namespace ScriptInject
namespace Tree

variable {ι : Type} {loose : Tree ι → Bool} {s t x y : Tree ι} {xs : List (Tree ι)}

/-- What may stand behind an access mark. -/
def isName (t : Tree ι) : Bool := t.isSimple || t.lead == .bracket

/-- A statement that is a list and nothing else. -/
def isLoneArray (t : Tree ι) : Bool :=
  match t.node with
  | .pipeline [element] =>
    match element.node with
    | .commandExpression expression => expression.isArray
    | _ => false
  | _ => false

/-- The statement does not call `keyword` with what begins like `lead`, unless that is loose. -/
def Spares (loose : Tree ι → Bool) (keyword : String) (lead : Lead) (t : Tree ι) : Prop :=
  ∀ name x others, t.call? = some (name, x :: others) → name.isKeyword keyword = true →
    x.lead = lead → loose x = true

/-- Each element that ends in a type keeps apart from an operand behind it. -/
def Apart (loose : Tree ι → Bool) : List (Tree ι) → Prop
  | x :: y :: rest =>
    (x.ending.type = true → y.lead.isOperand = true → loose y = true) ∧ Apart loose (y :: rest)
  | _ => True

theorem Apart.append (h : Apart loose (xs ++ [x]))
    (hy : x.ending.type = true → y.lead.isOperand = true → loose y = true) :
    Apart loose (xs ++ [x] ++ [y]) := by
  induction xs with
  | nil => exact ⟨hy, trivial⟩
  | cons z zs ih =>
    cases zs with
    | nil => exact ⟨h.1, ih h.2⟩
    | cons w ws => exact ⟨h.1, ih h.2⟩

/-- What is read where a statement may begin. -/
def Begins (loose : Tree ι → Bool) (t : Tree ι) : Prop := t.Spares loose "foreach" .paren

/-- A word where a bare word would be read is nothing but a word. -/
def wordAlone (t : Tree ι) : Bool := t.lead != .word || t.isWord

/-- The parts of a node can be told from one another. A list may be loose, that is, stand without
the parentheses that are written around it. -/
def Placed (loose : Tree ι → Bool) : Node (Tree ι) → Prop
  | .scriptBlock _ params blocks => ∀ s, opening? blocks = some s →
    (params = none → s.Spares loose "param" .paren) ∧
      ∀ kind ∈ BlockKind.all, s.Spares (fun _ => false) kind.keyword .brace
  | .namedBlock _ _ statements _ => ∀ s ∈ statements, s.Begins loose
  | .statementBlock statements | .arrayExpression statements | .subExpression statements =>
    ∀ s ∈ statements, s.Begins loose
  | .attributeSpec _ positional _ => ∀ x ∈ positional, x.isWord = false
  | .command invocation elements =>
    (∀ x ∈ elements, x.wordAlone = true) ∧
      (∀ x ∈ if invocation.isSome then elements.tail else elements, x.lead ≠ .dash) ∧
      Apart loose elements
  | .commandParameter _ argument => ∀ x, argument = some x → x.wordAlone = true
  | .commandExpression expression => expression.lead ≠ .word
  | .assignment left _ right => left.lead ≠ .word ∧ right.Begins loose
  | .convert _ child => child.lead.isOperand = true
  | .paren statement => statement.isLoneArray = false
  | .hashtable pairs => ∀ p ∈ pairs, p.1.wordAlone = true ∧ p.2.Begins loose
  | .member _ name _ _ | .invokeMember _ name _ _ _ => name.isName = true
  | _ => True

end Tree

end ScriptInject
