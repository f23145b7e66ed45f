import ScriptInject.ScriptError
import ScriptInject.Source.Literal
/-! The source text of a tree. Blanks, comments and needless parentheses are not kept; each
statement ends with a semicolon and a line end. -/
namespace ScriptInject.Source

/-- `{}`, or the body on lines of its own between braces. -/
def braced (body : String) : String :=
  if body.isEmpty then "\x7b\x7d" else "\x7b\n" ++ body ++ "\n\x7d"

def labelled (label : Option String) (loop : String) : String :=
  match label with
  | some name => ":" ++ name ++ " " ++ loop
  | none => loop

def jump (word : String) (label : Option String) : String :=
  match label with
  | some name => word ++ " " ++ name
  | none => word

def accessMark (isStatic nullConditional : Bool) : String :=
  if isStatic then "::" else if nullConditional then "?." else "."

/-- A leading operator and its operand; words and signs keep apart from what would join them. -/
def leading (operator : UnaryOperator) (operand : String) : String :=
  let signed := match operand.toList with
    | c :: _ => c == '-' || c == '+'
    | [] => false
  if operator.isWord || signed then operator.text ++ " " ++ operand else operator.text ++ operand

/-- What generating source makes: a text or a reason why there is none. -/
abbrev Printed := Except ScriptError String

variable (a : Arena) (emit : NodeId → Printed)

def joined (separator : String) (ids : List NodeId) : Printed :=
  return separator.intercalate (← ids.mapM emit)

/-- The text of a part after `lead`, or nothing without the part. -/
def optional (lead : String) (id? : Option NodeId) : Printed :=
  match id? with
  | some id => return lead ++ (← emit id)
  | none => return ""

/-- The parameters of a function in parentheses, if there are any. -/
def parenthesized (ids : List NodeId) : Printed :=
  if ids.isEmpty then return "" else return "(" ++ (← joined emit ", " ids) ++ ")"

/-- The types whose errors a block handles, if it names any. -/
def caught (types : List NodeId) : Printed :=
  if types.isEmpty then return "" else return (← joined emit ", " types) ++ " "

/-- One statement on each line. -/
def statementLines (ids : List NodeId) : Printed :=
  return "\n".intercalate (← ids.mapM fun id => return (← emit id) ++ ";")

def bracedStatements (ids : List NodeId) : Printed := return braced (← statementLines emit ids)

/-- What an access applies to. Before a question mark a variable needs braces. -/
def accessTarget (target : NodeId) (nullConditional : Bool) : Printed := do
  match ← a.node target with
  | .variableRef path false =>
    if nullConditional then return variableText path true else emit target
  | _ => emit target

def memberName (name : NodeId) : Printed := do
  match ← a.node name with
  | .stringConstant value .bareWord => return value
  | _ => emit name

def outerVariable (target : NodeId) : Printed := do
  match ← a.node target with
  | .variableRef path _ => return "$using:" ++ path
  | _ => emit target

def scriptBlock (usings : List NodeId) (params : Option NodeId) (blocks : List NodeId) :
    Printed := do
  let usings ← usings.mapM fun id => return (← emit id) ++ ";"
  let params ← params.toList.mapM emit
  let blocks ← blocks.mapM emit
  return "\n".intercalate (usings ++ params ++ blocks.filter (!·.isEmpty))

def clause (word : String) (p : NodeId × NodeId) : Printed :=
  return word ++ " (" ++ (← emit p.1) ++ ") " ++ (← emit p.2)

def pair (p : NodeId × NodeId) : Printed := return (← emit p.1) ++ " = " ++ (← emit p.2)

/-- The text of a node, given the texts of the nodes below it. -/
def ofNode (id : NodeId) : Node NodeId → Printed
  | .scriptBlock usings params blocks => scriptBlock emit usings params blocks
  | .namedBlock kind unnamed statements traps =>
    if unnamed then statementLines emit (traps ++ statements)
    else return kind.keyword ++ " " ++ (← bracedStatements emit (traps ++ statements))
  | .paramBlock annotations parameters => do
    let annotations ← annotations.mapM fun id => return (← emit id) ++ "\n"
    return String.join annotations ++ "param(" ++ (← joined emit ", " parameters) ++ ")"
  | .parameter annotations name value =>
    return (← joined emit "" annotations) ++ (← emit name) ++ (← optional emit " = " value)
  | .attributeSpec type positional named =>
    return "[" ++ type.fullName ++ "(" ++ (← joined emit ", " (positional ++ named)) ++ ")]"
  | .namedArgument name value => return name ++ (← optional emit " = " value)
  | .typeConstraint type => return type.describe
  | .statementBlock statements => bracedStatements emit statements
  | .usingStatement kind name => return "using " ++ kind.keyword ++ " " ++ name
  | .functionDefinition name isFilter parameters body => do
    let parameters ← parenthesized emit parameters
    return (if isFilter then "filter " else "function ") ++ name ++ parameters ++ " " ++
      braced (← emit body)
  | .pipeline elements => joined emit " | " elements
  | .command invocation elements =>
    return (match invocation with
      | some mark => mark.text ++ " "
      | none => "") ++ (← joined emit " " elements)
  | .commandParameter name argument => return "-" ++ name ++ (← optional emit ":" argument)
  | .commandExpression expression => emit expression
  | .assignment left operator right =>
    return (← emit left) ++ " " ++ operator.text ++ " " ++ (← emit right)
  | .ifStatement clauses elseBody => do
    let first ← clauses.head?.toList.mapM (clause emit "if")
    let others ← clauses.tail.mapM (clause emit " elseif")
    return String.join (first ++ others) ++ (← optional emit " else " elseBody)
  | .whileLoop label condition body =>
    return labelled label ("while (" ++ (← emit condition) ++ ") " ++ (← emit body))
  | .doWhile label body condition =>
    return labelled label ("do " ++ (← emit body) ++ " while (" ++ (← emit condition) ++ ")")
  | .doUntil label body condition =>
    return labelled label ("do " ++ (← emit body) ++ " until (" ++ (← emit condition) ++ ")")
  | .forLoop label start condition step body =>
    return labelled label ("for (" ++ (← optional emit "" start) ++ "; " ++
      (← optional emit "" condition) ++ "; " ++ (← optional emit "" step) ++ ") " ++ (← emit body))
  | .forEach label item items body =>
    return labelled label ("foreach (" ++ (← emit item) ++ " in " ++ (← emit items) ++ ") " ++
      (← emit body))
  | .tryStatement body catches cleanup => do
    let body ← emit body
    let catches ← catches.mapM fun id => return " " ++ (← emit id)
    return "try " ++ body ++ String.join catches ++ (← optional emit " finally " cleanup)
  | .catchClause types body =>
    return "catch " ++ (← caught emit types) ++ (← emit body)
  | .trap type body =>
    return "trap " ++ (← caught emit type.toList) ++ (← emit body)
  | .returnStatement value => return "return" ++ (← optional emit " " value)
  | .throwStatement value => return "throw" ++ (← optional emit " " value)
  | .breakStatement label => return jump "break" label
  | .continueStatement label => return jump "continue" label
  | .number text => return text
  | .stringConstant value kind => return quoted value kind
  | .expandableString value kind => return quoted value kind
  | .variableRef path splatted =>
    return if splatted then "@" ++ path else variableText path false
  | .usingExpression target => outerVariable a emit target
  | .typeExpression type => return type.describe
  | .convert type child => return (← emit type) ++ (← emit child)
  | .annotated mark child => return (← emit mark) ++ (← emit child)
  | .binary operator left right => do
    let left ← emit left
    let right ← emit right
    return if operator = .range then left ++ ".." ++ right
      else left ++ " " ++ operator.text ++ " " ++ right
  | .unary operator child => do
    let operand ← emit child
    return if operator.isTrailing then operand ++ operator.text else leading operator operand
  | .ternary condition whenTrue whenFalse =>
    return (← emit condition) ++ " ? " ++ (← emit whenTrue) ++ " : " ++ (← emit whenFalse)
  | .arrayLiteral elements =>
    return "(" ++ (if elements.length = 1 then ", " else "") ++ (← joined emit ", " elements) ++ ")"
  | .arrayExpression statements => return "@(" ++ (← joined emit "; " statements) ++ ")"
  | .subExpression statements => return "$(" ++ (← joined emit "; " statements) ++ ")"
  | .paren statement => return "(" ++ (← emit statement) ++ ")"
  | .hashtable pairs => return "@\x7b" ++ "; ".intercalate (← pairs.mapM (pair emit)) ++ "\x7d"
  | .scriptBlockExpression body => return braced (← emit body)
  | .member target name isStatic nullConditional =>
    return (← accessTarget a emit target nullConditional) ++
      accessMark isStatic nullConditional ++ (← memberName a emit name)
  | .invokeMember target name arguments isStatic nullConditional =>
    return (← accessTarget a emit target nullConditional) ++
      accessMark isStatic nullConditional ++ (← memberName a emit name) ++ "(" ++
      (← joined emit ", " arguments) ++ ")"
  | .index target key nullConditional =>
    return (← accessTarget a emit target nullConditional) ++
      (if nullConditional then "?[" else "[") ++ (← emit key) ++ "]"
  | .error _ => throw (.unprintable "error" ((a.span? id).getD {}))

/-- The text of the tree below an id, down to the given depth. -/
def generateUpTo (a : Arena) : Nat → NodeId → Printed
  | 0, id => throw (.arena (.missingNode id))
  | depth + 1, id => do ofNode a (generateUpTo a depth) id (← a.node id)

/-- The text of the tree below an id. -/
def generate (a : Arena) (id : NodeId) : Printed := generateUpTo a a.depthBound id

/-- The text of the whole script. -/
def generateScript (a : Arena) : Printed := do generate a (← a.root)

end ScriptInject.Source
