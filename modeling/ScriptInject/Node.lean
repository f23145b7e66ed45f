import ScriptInject.Operator
import ScriptInject.TypeName
/-! One node of a script's syntax. A node is a container of its children, so that the same type
serves with ids, subtrees or nothing at all in their places. -/
namespace ScriptInject

inductive Node (α : Type) where
  /-- The whole script or the body of a function. -/
  | scriptBlock (usings : List α) (params : Option α) (blocks : List α)
  /-- An `unnamed` block holds the statements of a body that names no section. -/
  | namedBlock (kind : BlockKind) (unnamed : Bool) (statements traps : List α)
  | paramBlock (annotations parameters : List α)
  /-- The annotations and type constraints before a parameter keep their order. -/
  | parameter (annotations : List α) (name : α) (value : Option α)
  /-- A type with arguments in brackets, which says something of what it stands before. -/
  | attributeSpec (type : TypeName) (positional named : List α)
  /-- An argument of an annotation; its value may be left out. -/
  | namedArgument (name : String) (value : Option α)
  | typeConstraint (type : TypeName)
  | statementBlock (statements : List α)
  | usingStatement (kind : UsingKind) (name : String)
  | functionDefinition (name : String) (isFilter : Bool) (parameters : List α) (body : α)
  | pipeline (elements : List α)
  | command (invocation : Option Invocation) (elements : List α)
  | commandParameter (name : String) (argument : Option α)
  | commandExpression (expression : α)
  | assignment (left : α) (operator : AssignmentOperator) (right : α)
  | ifStatement (clauses : List (α × α)) (elseBody : Option α)
  | whileLoop (label : Option String) (condition body : α)
  | doWhile (label : Option String) (body condition : α)
  | doUntil (label : Option String) (body condition : α)
  | forLoop (label : Option String) (start condition step : Option α) (body : α)
  | forEach (label : Option String) (item items body : α)
  | tryStatement (body : α) (catches : List α) (cleanup : Option α)
  | catchClause (types : List α) (body : α)
  | trap (type : Option α) (body : α)
  | returnStatement (value : Option α)
  | throwStatement (value : Option α)
  | breakStatement (label : Option String)
  | continueStatement (label : Option String)
  | number (text : String)
  | stringConstant (value : String) (kind : StringKind)
  | expandableString (value : String) (kind : StringKind)
  | variableRef (path : String) (splatted : Bool)
  | usingExpression (target : α)
  | typeExpression (type : TypeName)
  | convert (type child : α)
  | annotated (mark child : α)
  | binary (operator : BinaryOperator) (left right : α)
  | unary (operator : UnaryOperator) (child : α)
  | ternary (condition whenTrue whenFalse : α)
  | arrayLiteral (elements : List α)
  | arrayExpression (statements : List α)
  | subExpression (statements : List α)
  | paren (statement : α)
  | hashtable (pairs : List (α × α))
  | scriptBlockExpression (body : α)
  | member (target name : α) (isStatic nullConditional : Bool)
  | invokeMember (target name : α) (arguments : List α) (isStatic nullConditional : Bool)
  | index (target key : α) (nullConditional : Bool)
  /-- Source text that could not be read, kept as it stands. -/
  | error (text : String)
deriving DecidableEq

namespace Node
variable {α β γ : Type}

/-- The short name of the kind of node, for diagnostics. -/
def kindName : Node α → String
  | .scriptBlock .. => "script block"
  | .namedBlock .. => "named block"
  | .paramBlock .. => "param block"
  | .parameter .. => "parameter"
  | .attributeSpec .. => "attribute"
  | .namedArgument .. => "named argument"
  | .typeConstraint .. => "type constraint"
  | .statementBlock .. => "statement block"
  | .usingStatement .. => "using statement"
  | .functionDefinition .. => "function definition"
  | .pipeline .. => "pipeline"
  | .command .. => "command"
  | .commandParameter .. => "command parameter"
  | .commandExpression .. => "command expression"
  | .assignment .. => "assignment"
  | .ifStatement .. => "if statement"
  | .whileLoop .. => "while statement"
  | .doWhile .. => "do-while statement"
  | .doUntil .. => "do-until statement"
  | .forLoop .. => "for statement"
  | .forEach .. => "foreach statement"
  | .tryStatement .. => "try statement"
  | .catchClause .. => "catch clause"
  | .trap .. => "trap statement"
  | .returnStatement .. => "return statement"
  | .throwStatement .. => "throw statement"
  | .breakStatement .. => "break statement"
  | .continueStatement .. => "continue statement"
  | .number .. => "number"
  | .stringConstant .. => "string constant"
  | .expandableString .. => "expandable string"
  | .variableRef .. => "variable"
  | .usingExpression .. => "using expression"
  | .typeExpression .. => "type expression"
  | .convert .. => "convert expression"
  | .annotated .. => "attributed expression"
  | .binary .. => "binary expression"
  | .unary .. => "unary expression"
  | .ternary .. => "ternary expression"
  | .arrayLiteral .. => "array literal"
  | .arrayExpression .. => "array expression"
  | .subExpression .. => "sub-expression"
  | .paren .. => "paren expression"
  | .hashtable .. => "hashtable"
  | .scriptBlockExpression .. => "script block expression"
  | .member .. => "member expression"
  | .invokeMember .. => "invoke-member expression"
  | .index .. => "index expression"
  | .error .. => "error"

/-- The children in source order. -/
def children : Node α → List α
  | .scriptBlock usings params blocks => usings ++ params.toList ++ blocks
  | .namedBlock _ _ statements traps => statements ++ traps
  | .paramBlock annotations parameters => annotations ++ parameters
  | .parameter annotations name value => annotations ++ [name] ++ value.toList
  | .attributeSpec _ positional named => positional ++ named
  | .namedArgument _ value => value.toList
  | .statementBlock statements => statements
  | .functionDefinition _ _ parameters body => parameters ++ [body]
  | .pipeline elements => elements
  | .command _ elements => elements
  | .commandParameter _ argument => argument.toList
  | .commandExpression expression => [expression]
  | .assignment left _ right => [left, right]
  | .ifStatement clauses elseBody => (clauses.flatMap fun (a, b) => [a, b]) ++ elseBody.toList
  | .whileLoop _ condition body => [condition, body]
  | .doWhile _ body condition => [body, condition]
  | .doUntil _ body condition => [body, condition]
  | .forLoop _ start condition step body =>
    start.toList ++ condition.toList ++ step.toList ++ [body]
  | .forEach _ item items body => [item, items, body]
  | .tryStatement body catches cleanup => [body] ++ catches ++ cleanup.toList
  | .catchClause types body => types ++ [body]
  | .trap type body => type.toList ++ [body]
  | .returnStatement value => value.toList
  | .throwStatement value => value.toList
  | .usingExpression target => [target]
  | .convert type child => [type, child]
  | .annotated mark child => [mark, child]
  | .binary _ left right => [left, right]
  | .unary _ child => [child]
  | .ternary condition whenTrue whenFalse => [condition, whenTrue, whenFalse]
  | .arrayLiteral elements => elements
  | .arrayExpression statements => statements
  | .subExpression statements => statements
  | .paren statement => [statement]
  | .hashtable pairs => pairs.flatMap fun (a, b) => [a, b]
  | .scriptBlockExpression body => [body]
  | .member target name _ _ => [target, name]
  | .invokeMember target name arguments _ _ => [target, name] ++ arguments
  | .index target key _ => [target, key]
  | .typeConstraint .. | .usingStatement .. | .breakStatement .. | .continueStatement ..
  | .number .. | .stringConstant .. | .expandableString .. | .variableRef .. | .typeExpression ..
  | .error .. => []

/-- The node with `f` applied to each child. -/
def map (f : α → β) : Node α → Node β
  | .scriptBlock usings params blocks =>
    .scriptBlock (usings.map f) (params.map f) (blocks.map f)
  | .namedBlock kind unnamed statements traps =>
    .namedBlock kind unnamed (statements.map f) (traps.map f)
  | .paramBlock annotations parameters => .paramBlock (annotations.map f) (parameters.map f)
  | .parameter annotations name value => .parameter (annotations.map f) (f name) (value.map f)
  | .attributeSpec type positional named => .attributeSpec type (positional.map f) (named.map f)
  | .namedArgument name value => .namedArgument name (value.map f)
  | .typeConstraint type => .typeConstraint type
  | .statementBlock statements => .statementBlock (statements.map f)
  | .usingStatement kind name => .usingStatement kind name
  | .functionDefinition name isFilter parameters body =>
    .functionDefinition name isFilter (parameters.map f) (f body)
  | .pipeline elements => .pipeline (elements.map f)
  | .command invocation elements => .command invocation (elements.map f)
  | .commandParameter name argument => .commandParameter name (argument.map f)
  | .commandExpression expression => .commandExpression (f expression)
  | .assignment left operator right => .assignment (f left) operator (f right)
  | .ifStatement clauses elseBody =>
    .ifStatement (clauses.map fun (a, b) => (f a, f b)) (elseBody.map f)
  | .whileLoop label condition body => .whileLoop label (f condition) (f body)
  | .doWhile label body condition => .doWhile label (f body) (f condition)
  | .doUntil label body condition => .doUntil label (f body) (f condition)
  | .forLoop label start condition step body =>
    .forLoop label (start.map f) (condition.map f) (step.map f) (f body)
  | .forEach label item items body => .forEach label (f item) (f items) (f body)
  | .tryStatement body catches cleanup => .tryStatement (f body) (catches.map f) (cleanup.map f)
  | .catchClause types body => .catchClause (types.map f) (f body)
  | .trap type body => .trap (type.map f) (f body)
  | .returnStatement value => .returnStatement (value.map f)
  | .throwStatement value => .throwStatement (value.map f)
  | .breakStatement label => .breakStatement label
  | .continueStatement label => .continueStatement label
  | .number text => .number text
  | .stringConstant value kind => .stringConstant value kind
  | .expandableString value kind => .expandableString value kind
  | .variableRef path splatted => .variableRef path splatted
  | .usingExpression target => .usingExpression (f target)
  | .typeExpression type => .typeExpression type
  | .convert type child => .convert (f type) (f child)
  | .annotated mark child => .annotated (f mark) (f child)
  | .binary operator left right => .binary operator (f left) (f right)
  | .unary operator child => .unary operator (f child)
  | .ternary condition whenTrue whenFalse => .ternary (f condition) (f whenTrue) (f whenFalse)
  | .arrayLiteral elements => .arrayLiteral (elements.map f)
  | .arrayExpression statements => .arrayExpression (statements.map f)
  | .subExpression statements => .subExpression (statements.map f)
  | .paren statement => .paren (f statement)
  | .hashtable pairs => .hashtable (pairs.map fun (a, b) => (f a, f b))
  | .scriptBlockExpression body => .scriptBlockExpression (f body)
  | .member target name isStatic nullConditional =>
    .member (f target) (f name) isStatic nullConditional
  | .invokeMember target name arguments isStatic nullConditional =>
    .invokeMember (f target) (f name) (arguments.map f) isStatic nullConditional
  | .index target key nullConditional => .index (f target) (f key) nullConditional
  | .error text => .error text

/-- Both members of a pair, the first one first. -/
def pairM {m : Type → Type} [Monad m] (f : α → m β) (p : α × α) : m (β × β) := do
  let a ← f p.1
  let b ← f p.2
  return (a, b)

/-- The node with each child replaced by the outcome of `f`, run in source order. -/
def mapM {m : Type → Type} [Monad m] (f : α → m β) : Node α → m (Node β)
  | .scriptBlock usings params blocks => do
    return .scriptBlock (← usings.mapM f) (← params.mapM f) (← blocks.mapM f)
  | .namedBlock kind unnamed statements traps => do
    return .namedBlock kind unnamed (← statements.mapM f) (← traps.mapM f)
  | .paramBlock annotations parameters => do
    return .paramBlock (← annotations.mapM f) (← parameters.mapM f)
  | .parameter annotations name value => do
    return .parameter (← annotations.mapM f) (← f name) (← value.mapM f)
  | .attributeSpec type positional named => do
    return .attributeSpec type (← positional.mapM f) (← named.mapM f)
  | .namedArgument name value => do return .namedArgument name (← value.mapM f)
  | .typeConstraint type => pure (.typeConstraint type)
  | .statementBlock statements => do return .statementBlock (← statements.mapM f)
  | .usingStatement kind name => pure (.usingStatement kind name)
  | .functionDefinition name isFilter parameters body => do
    return .functionDefinition name isFilter (← parameters.mapM f) (← f body)
  | .pipeline elements => do return .pipeline (← elements.mapM f)
  | .command invocation elements => do return .command invocation (← elements.mapM f)
  | .commandParameter name argument => do return .commandParameter name (← argument.mapM f)
  | .commandExpression expression => do return .commandExpression (← f expression)
  | .assignment left operator right => do
    return .assignment (← f left) operator (← f right)
  | .ifStatement clauses elseBody => do
    return .ifStatement (← clauses.mapM (pairM f)) (← elseBody.mapM f)
  | .whileLoop label condition body => do
    return .whileLoop label (← f condition) (← f body)
  | .doWhile label body condition => do
    return .doWhile label (← f body) (← f condition)
  | .doUntil label body condition => do
    return .doUntil label (← f body) (← f condition)
  | .forLoop label start condition step body => do
    return .forLoop label (← start.mapM f) (← condition.mapM f) (← step.mapM f) (← f body)
  | .forEach label item items body => do
    return .forEach label (← f item) (← f items) (← f body)
  | .tryStatement body catches cleanup => do
    return .tryStatement (← f body) (← catches.mapM f) (← cleanup.mapM f)
  | .catchClause types body => do
    return .catchClause (← types.mapM f) (← f body)
  | .trap type body => do
    return .trap (← type.mapM f) (← f body)
  | .returnStatement value => do return .returnStatement (← value.mapM f)
  | .throwStatement value => do return .throwStatement (← value.mapM f)
  | .breakStatement label => pure (.breakStatement label)
  | .continueStatement label => pure (.continueStatement label)
  | .number text => pure (.number text)
  | .stringConstant value kind => pure (.stringConstant value kind)
  | .expandableString value kind => pure (.expandableString value kind)
  | .variableRef path splatted => pure (.variableRef path splatted)
  | .usingExpression target => do return .usingExpression (← f target)
  | .typeExpression type => pure (.typeExpression type)
  | .convert type child => do
    return .convert (← f type) (← f child)
  | .annotated mark child => do
    return .annotated (← f mark) (← f child)
  | .binary operator left right => do
    return .binary operator (← f left) (← f right)
  | .unary operator child => do return .unary operator (← f child)
  | .ternary condition whenTrue whenFalse => do
    return .ternary (← f condition) (← f whenTrue) (← f whenFalse)
  | .arrayLiteral elements => do return .arrayLiteral (← elements.mapM f)
  | .arrayExpression statements => do return .arrayExpression (← statements.mapM f)
  | .subExpression statements => do return .subExpression (← statements.mapM f)
  | .paren statement => do return .paren (← f statement)
  | .hashtable pairs => do return .hashtable (← pairs.mapM (pairM f))
  | .scriptBlockExpression body => do return .scriptBlockExpression (← f body)
  | .member target name isStatic nullConditional => do
    return .member (← f target) (← f name) isStatic nullConditional
  | .invokeMember target name arguments isStatic nullConditional => do
    return .invokeMember (← f target) (← f name) (← arguments.mapM f) isStatic nullConditional
  | .index target key nullConditional => do
    return .index (← f target) (← f key) nullConditional
  | .error text => pure (.error text)

/-- The node without its children: its kind, its data and the places of the children. -/
def shell (n : Node α) : Node Unit := n.map fun _ => ()

end Node

end ScriptInject
