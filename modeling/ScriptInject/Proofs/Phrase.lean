import ScriptInject.Grammar.Statement
import ScriptInject.Proofs.Tree
import ScriptInject.Proofs.Wording
/-! Which trees the grammar makes: the kinds of phrases, and the trees that fit each of them. -/
namespace ScriptInject

/-- What a phrase begins with, as far as it decides how the phrase is read. -/
inductive Lead where
  | word | dash | sign | operand | bracket | paren | brace | other
deriving DecidableEq, Repr

/-- The operand of a conversion may begin in this way. -/
def Lead.isOperand : Lead → Bool
  | .operand | .bracket | .paren => true
  | _ => false

def Token.lead : Token → Lead
  | .word _ => .word
  | .dashWord _ => .dash
  | .variableName _ | .splat _ | .number _ | .singleQuoted _ | .doubleQuoted _
  | .singleHereString _ | .doubleHereString _ => .operand
  | .newline => .other
  | .mark m =>
    match m with
    | .lparen => .paren
    | .lbracket => .bracket
    | .lbrace => .brace
    | .dollarParen | .atParen | .atBrace => .operand
    | .bang | .minus | .plus | .plusPlus | .minusMinus => .sign
    | _ => .other

theorem Token.lead_isOperand (t : Token) : t.lead.isOperand = Grammar.startsOperand t := by
  cases t with
  | mark m => cases m <;> rfl
  | _ => rfl

/-- What the end of a phrase would go on with. -/
structure Ending where
  /-- A type alone, which takes an operand behind it for what it converts. -/
  type : Bool := false
  /-- A member, which takes a parenthesis behind it for its arguments. -/
  member : Bool := false
  /-- A word, which takes dashes behind it for its own. -/
  word : Bool := false
deriving DecidableEq, Repr

namespace Tree
variable {ι β : Type} {s t : Tree ι}

/-- The value of a tree, by a rule that sees each node with the values below it. -/
def fold (f : Node β → β) : Tree ι → β := para fun _ n => f (n.map (·.2))

theorem fold_mk (f : Node β → β) (label : ι) (n : Node (Tree ι)) :
    (mk label n).fold f = f (n.map (fold f)) := by
  simp only [fold, para_mk, Node.map_map]
  rfl

def leadOf : Node Lead → Lead
  | .stringConstant _ .bareWord => .word
  | .number _ | .stringConstant .. | .expandableString .. | .variableRef .. | .usingExpression _
  | .arrayExpression _ | .subExpression _ | .hashtable _ => .operand
  | .typeExpression _ | .convert .. | .annotated .. => .bracket
  | .paren _ | .arrayLiteral _ => .paren
  | .scriptBlockExpression _ => .brace
  | .unary operator child =>
    if operator.isTrailing then child else if operator.isWord then .dash else .sign
  | .binary _ left _ => left
  | .ternary condition _ _ => condition
  | .member target .. | .invokeMember target .. | .index target .. => target
  | _ => .other

/-- How the source text of an expression begins. -/
def lead : Tree ι → Lead := fold leadOf

/-- Operands that end where their last token ends. -/
def isSimple (t : Tree ι) : Bool :=
  match t.node with
  | .number _ | .stringConstant .. | .expandableString .. | .variableRef .. | .usingExpression _
  | .paren _ | .arrayLiteral _ | .arrayExpression _ | .subExpression _ | .hashtable _
  | .scriptBlockExpression _ => true
  | _ => false

def endingOf : Node (Tree ι × Ending) → Ending
  | .typeExpression _ => { type := true }
  | .stringConstant _ .bareWord => { word := true }
  | .unary operator child => if operator.isTrailing then {} else child.2
  | .binary _ _ right => right.2
  | .ternary _ _ whenFalse => whenFalse.2
  | .convert _ child | .annotated _ child => child.2
  | .member _ name _ _ => { name.2 with member := name.1.isSimple || name.2.member }
  | .commandParameter _ (some argument) => argument.2
  | _ => {}

/-- How the source text of an expression or of an argument ends. -/
def ending : Tree ι → Ending := para fun _ n => endingOf n

/-- A word on its own. -/
def isWord (t : Tree ι) : Bool :=
  match t.node with
  | .stringConstant _ .bareWord => true
  | _ => false

def isType (t : Tree ι) : Bool :=
  match t.node with
  | .typeExpression _ => true
  | _ => false

def isArray (t : Tree ι) : Bool :=
  match t.node with
  | .arrayLiteral _ => true
  | _ => false

def isTrap (t : Tree ι) : Bool :=
  match t.node with
  | .trap .. => true
  | _ => false

/-- Whether an access behind the operand applies to the operand and not to its last part. -/
def isClosed (t : Tree ι) : Bool :=
  match t.node with
  | .member _ name .. => name.isSimple
  | _ => true

/-- The name of the command that a statement begins with, and the first argument. -/
def call? (t : Tree ι) : Option (Tree ι × List (Tree ι)) :=
  match t.node with
  | .pipeline (first :: _) =>
    match first.node with
    | .command none (name :: others) => some (name, others)
    | _ => none
  | _ => none

end Tree

/-- The statement that a body without sections begins with. Traps stand before all other
statements. -/
def Tree.opening? {ι : Type} (blocks : List (Tree ι)) : Option (Tree ι) :=
  match blocks with
  | b :: _ =>
    match b.node with
    | .namedBlock _ true (s :: _) [] => some s
    | _ => none
  | [] => none

/-- The tree is a certain word, in any case. -/
def Tree.isKeyword {ι : Type} (t : Tree ι) (keyword : String) : Bool :=
  match t.node with
  | .stringConstant value .bareWord => Text.caselessEq value keyword
  | _ => false

/-- What would be read as a `using` line at the start of a script. -/
def Tree.IsUsingCall {ι : Type} (t : Tree ι) : Prop :=
  ∃ name x others value kind, t.call? = some (name, x :: others) ∧
    name.isKeyword "using" = true ∧ x.node = .stringConstant value .bareWord ∧
    UsingKind.ofKeyword? kind ≠ none ∧ IsBareWord (.word kind) value

/-- The words that begin statements of their own wherever a statement may begin. -/
def keywords : List String :=
  ["while", "do", "for", "function", "filter", "if", "try", "trap", "return", "throw", "break",
    "continue"]

/-- Tokens that begin the name of a command. -/
def startsName (later : Bool) : Token → Bool
  | .word _ => true
  | .mark .dot | .mark .backslash => true
  | .mark .question | .mark .percent => later
  | _ => false

/-- Tokens that begin a bare word among the arguments of a command. -/
def startsArgument : Token → Bool
  | .word _ => true
  | .mark .dot | .mark .backslash | .mark .slash | .mark .star => true
  | _ => false

/-- The scope of a long path: its first six bytes, if these are whole characters. -/
def scope? (path : String) : Option String :=
  if 6 < Text.size path.toList then (Text.slice? path.toList 0 6).map String.ofList else some ""

/-- The token of a constant. -/
def constantToken (value : String) : StringKind → Token
  | .bareWord => .word value
  | .singleQuoted => .singleQuoted value
  | .doubleQuoted => .doubleQuoted value
  | .singleQuotedHereString => .singleHereString value
  | .doubleQuotedHereString => .doubleHereString value

/-- Constants in which something may be replaced. -/
def StringKind.isDouble : StringKind → Bool
  | .doubleQuoted | .doubleQuotedHereString => true
  | _ => false

/-- The kinds of phrases. -/
inductive Phrase where
  | script (whole : Bool) | part (unnamed : Bool)
  | params | parameter | head | mark | constraint | named | usingLine
  | statement | body | handler
  | pipeline | element (later : Bool) | item | argument
  | expression | level (k : Nat) | target | simple | reference | key
deriving DecidableEq, Repr

open Grammar ScriptInject.Tree

/-- The tree is what a phrase of a certain kind stands for. -/
inductive Tree.Fits {ι : Type} : Phrase → Tree ι → Prop
  | scriptBlock {l whole usings params blocks unnamed} :
      (whole = false → usings = []) → (∀ x ∈ usings, Fits .usingLine x) →
      (∀ x, params = some x → Fits .params x) → (∀ x ∈ blocks, Fits (.part unnamed) x) →
      (unnamed = true → blocks.length ≤ 1) →
      (whole = true → params = none → ∀ s, opening? blocks = some s → ¬ s.IsUsingCall) →
      Fits (.script whole) (.mk l (.scriptBlock usings params blocks))
  | namedBlock {l kind unnamed statements traps} :
      (∀ x ∈ statements, Fits .statement x) → (∀ x ∈ traps, Fits .statement x) →
      (∀ x ∈ statements, x.isTrap = false) → (∀ x ∈ traps, x.isTrap = true) →
      (unnamed = true → kind = .endBlock ∧ statements ++ traps ≠ []) →
      Fits (.part unnamed) (.mk l (.namedBlock kind unnamed statements traps))
  | paramBlock {l annotations parameters} :
      (∀ x ∈ annotations, Fits .mark x) → (∀ x ∈ parameters, Fits .parameter x) →
      Fits .params (.mk l (.paramBlock annotations parameters))
  | parameter {l annotations name value} :
      (∀ x ∈ annotations, Fits .head x) → Fits .reference name →
      (∀ x, value = some x → Fits .expression x) →
      Fits .parameter (.mk l (.parameter annotations name value))
  | headMark {t} : Fits .mark t → Fits .head t
  | headConstraint {t} : Fits .constraint t → Fits .head t
  | attributeSpec {l type positional named} : type.Written →
      (∀ x ∈ positional, Fits .expression x) → (∀ x ∈ named, Fits .named x) →
      Fits .mark (.mk l (.attributeSpec type positional named))
  | namedArgument {l name value} : (Token.word name).Occurs →
      (∀ x, value = some x → Fits .expression x) →
      Fits .named (.mk l (.namedArgument name value))
  | typeConstraint {l type} : type.Written → Fits .constraint (.mk l (.typeConstraint type))
  | usingStatement {l kind name} : IsUsingName name →
      Fits .usingLine (.mk l (.usingStatement kind name))
  | statementBlock {l statements} : (∀ x ∈ statements, Fits .statement x) →
      Fits .body (.mk l (.statementBlock statements))
  | functionDefinition {l name word isFilter parameters body} : IsBareWord (.word word) name →
      (∀ x ∈ parameters, Fits .parameter x) → Fits (.script false) body →
      Fits .statement (.mk l (.functionDefinition name isFilter parameters body))
  | ifStatement {l clauses elseBody} : clauses ≠ [] → (∀ p ∈ clauses, Fits .pipeline p.1) →
      (∀ p ∈ clauses, Fits .body p.2) → (∀ x, elseBody = some x → Fits .body x) →
      Fits .statement (.mk l (.ifStatement clauses elseBody))
  | whileLoop {l label condition body} : (∀ w, label = some w → (Token.word w).Occurs) →
      Fits .pipeline condition → Fits .body body →
      Fits .statement (.mk l (.whileLoop label condition body))
  | doWhile {l label body condition} : (∀ w, label = some w → (Token.word w).Occurs) →
      Fits .body body → Fits .pipeline condition →
      Fits .statement (.mk l (.doWhile label body condition))
  | doUntil {l label body condition} : (∀ w, label = some w → (Token.word w).Occurs) →
      Fits .body body → Fits .pipeline condition →
      Fits .statement (.mk l (.doUntil label body condition))
  | forLoop {l label start condition step body} : (∀ w, label = some w → (Token.word w).Occurs) →
      (∀ x, start = some x → Fits .pipeline x) → (∀ x, condition = some x → Fits .pipeline x) →
      (∀ x, step = some x → Fits .pipeline x) → Fits .body body →
      Fits .statement (.mk l (.forLoop label start condition step body))
  | forEach {l label item items body} : (∀ w, label = some w → (Token.word w).Occurs) →
      Fits .reference item → Fits .pipeline items → Fits .body body →
      Fits .statement (.mk l (.forEach label item items body))
  | tryStatement {l body catches cleanup} : Fits .body body → (∀ x ∈ catches, Fits .handler x) →
      (∀ x, cleanup = some x → Fits .body x) → (catches = [] → cleanup ≠ none) →
      Fits .statement (.mk l (.tryStatement body catches cleanup))
  | catchClause {l types body} : (∀ x ∈ types, Fits .constraint x) → Fits .body body →
      Fits .handler (.mk l (.catchClause types body))
  | trap {l type body} : (∀ x, type = some x → Fits .constraint x) → Fits .body body →
      Fits .statement (.mk l (.trap type body))
  | returnStatement {l value} : (∀ x, value = some x → Fits .pipeline x) →
      Fits .statement (.mk l (.returnStatement value))
  | throwStatement {l value} : (∀ x, value = some x → Fits .pipeline x) →
      Fits .statement (.mk l (.throwStatement value))
  | breakStatement {l label} : (∀ w, label = some w → (Token.word w).Occurs) →
      Fits .statement (.mk l (.breakStatement label))
  | continueStatement {l label} : (∀ w, label = some w → (Token.word w).Occurs) →
      Fits .statement (.mk l (.continueStatement label))
  | statementPipeline {t} : Fits .pipeline t →
      (∀ name others value word, t.call? = some (name, others) →
        name.node = .stringConstant value .bareWord → IsBareWord (.word word) value →
        Text.lower word ∉ keywords) →
      Fits .statement t
  | pipeline {l first others} : Fits (.element false) first →
      (∀ x ∈ others, Fits (.element true) x) → Fits .pipeline (.mk l (.pipeline (first :: others)))
  | assignment {l left operator right} : Fits .expression left → Fits .statement right →
      Fits .pipeline (.mk l (.assignment left operator right))
  | namedCommand {l m later token value others} : IsBareWord token value →
      startsName later token = true → (∀ x ∈ others, Fits .item x) →
      Fits (.element later)
        (.mk l (.command none (.mk m (.stringConstant value .bareWord) :: others)))
  | invocation {l later mark name others} : Fits .argument name → (∀ x ∈ others, Fits .item x) →
      Fits (.element later) (.mk l (.command (some mark) (name :: others)))
  | commandExpression {l later expression} : Fits .expression expression →
      Fits (.element later) (.mk l (.commandExpression expression))
  | commandParameter {l name} : (Token.dashWord ("-" ++ name)).Occurs →
      name.toList.getLast? ≠ some ':' → Fits .item (.mk l (.commandParameter name none))
  | commandArgument {l name argument} : (Token.dashWord ("-" ++ name ++ ":")).Occurs →
      Fits .argument argument → Fits .item (.mk l (.commandParameter name (some argument)))
  | itemArgument {t} : Fits .argument t → Fits .item t
  | bareArgument {l token value} : IsBareWord token value → startsArgument token = true →
      Fits .argument (.mk l (.stringConstant value .bareWord))
  | argumentOperand {t} : Fits (.level 7) t → Fits .argument t
  | ternary {l condition whenTrue whenFalse} : Fits (.level 0) condition →
      Fits .expression whenTrue → Fits .expression whenFalse →
      Fits .expression (.mk l (.ternary condition whenTrue whenFalse))
  | expressionLevel {t} : Fits (.level 0) t → Fits .expression t
  | binary {l operator left right} : Fits (.level operator.precedence) left →
      Fits (.level (operator.precedence + 1)) right →
      Fits (.level operator.precedence) (.mk l (.binary operator left right))
  | tighter {t k} : k < 7 → Fits (.level (k + 1)) t → Fits (.level k) t
  | leadingUnary {l operator child} : operator.isTrailing = false → Fits (.level 7) child →
      Fits (.level 7) (.mk l (.unary operator child))
  | convert {l type child} : Fits .constraint type → Fits (.level 7) child →
      Fits (.level 7) (.mk l (.convert type child))
  | annotated {l mark child} : Fits .mark mark → Fits (.level 7) child →
      Fits (.level 7) (.mk l (.annotated mark child))
  | levelTarget {t} : Fits .target t → Fits (.level 7) t
  | typeExpression {l type} : type.Written → Fits .target (.mk l (.typeExpression type))
  | member {l target name isStatic nullConditional} : Fits .target target →
      target.isClosed = true → Fits (.level 7) name →
      Fits .target (.mk l (.member target name isStatic nullConditional))
  | invokeMember {l target name arguments isStatic nullConditional} : Fits .target target →
      target.isClosed = true → Fits (.level 7) name → name.ending.type = false →
      name.ending.member = false → (∀ x ∈ arguments, Fits .expression x) →
      Fits .target (.mk l (.invokeMember target name arguments isStatic nullConditional))
  | index {l target key nullConditional} : Fits .target target → target.isClosed = true →
      (nullConditional = false → target.isType = false) → Fits .expression key →
      Fits .target (.mk l (.index target key nullConditional))
  | trailingUnary {l operator child} : operator.isTrailing = true → Fits .target child →
      child.isClosed = true → (operator = .postDecrement → child.ending.word = false) →
      Fits .target (.mk l (.unary operator child))
  | targetSimple {t} : Fits .simple t → Fits .target t
  | number {l text} : (Token.number text).Occurs → Fits .simple (.mk l (.number text))
  | constant {l value kind} : (constantToken value kind).Occurs →
      (kind.isDouble = true → isExpandable value = false) →
      Fits .simple (.mk l (.stringConstant value kind))
  | expandable {l value kind} : (constantToken value kind).Occurs → kind.isDouble = true →
      isExpandable value = true → Fits .simple (.mk l (.expandableString value kind))
  | splat {l name} : (Token.splat name).Occurs → Fits .simple (.mk l (.variableRef name true))
  | simpleReference {t} : Fits .reference t → Fits .simple t
  | reference {l path scope} : (Token.variableName path).Occurs → scope? path = some scope →
      Text.caselessEq scope "using:" = false → Fits .reference (.mk l (.variableRef path false))
  | outerReference {l m path scope} : (Token.variableName (scope ++ path)).Occurs →
      Text.caselessEq scope "using:" = true → path ≠ "" →
      Fits .reference (.mk l (.usingExpression (.mk m (.variableRef path false))))
  | array {l elements} : elements ≠ [] → (∀ x ∈ elements, Fits (.level 7) x) →
      Fits .simple (.mk l (.arrayLiteral elements))
  | paren {l statement} : Fits .pipeline statement → Fits .simple (.mk l (.paren statement))
  | arrayExpression {l statements} : (∀ x ∈ statements, Fits .statement x) →
      Fits .simple (.mk l (.arrayExpression statements))
  | subExpression {l statements} : (∀ x ∈ statements, Fits .statement x) →
      Fits .simple (.mk l (.subExpression statements))
  | hashtable {l pairs} : (∀ p ∈ pairs, Fits .key p.1) → (∀ p ∈ pairs, Fits .statement p.2) →
      Fits .simple (.mk l (.hashtable pairs))
  | scriptBlockExpression {l body} : Fits (.script false) body →
      Fits .simple (.mk l (.scriptBlockExpression body))
  | bareKey {l word value} : IsBareWord (.word word) value →
      Fits .key (.mk l (.stringConstant value .bareWord))
  | keyOperand {t} : Fits (.level 7) t → Fits .key t

/-- A list is a list in whatever kind of phrase it stands. -/
theorem Tree.Fits.array_inv {ι : Type} {phrase : Phrase} {l : ι} {elements : List (Tree ι)}
    (h : Tree.Fits phrase (.mk l (.arrayLiteral elements))) :
    Tree.Fits .simple (.mk l (.arrayLiteral elements)) := by
  generalize hx : Tree.mk l (Node.arrayLiteral elements) = x at h
  induction h with
  | array hne hall => exact .array hne hall
  | headMark _ ih | headConstraint _ ih | statementPipeline _ _ ih | itemArgument _ ih
  | argumentOperand _ ih | expressionLevel _ ih | tighter _ _ ih | levelTarget _ ih
  | targetSimple _ ih | simpleReference _ ih | keyOperand _ ih => exact ih hx
  | _ => exact absurd (Tree.mk.inj hx).2 nofun

end ScriptInject
