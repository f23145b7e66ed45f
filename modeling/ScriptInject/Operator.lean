import ScriptInject.Text.Caseless
/-! The closed sets of words and marks that the language knows. -/
namespace ScriptInject

/-- The named sections of a script block. -/
inductive BlockKind where
  | beginBlock | processBlock | endBlock | dynamicParam
deriving DecidableEq, Repr, Inhabited

namespace BlockKind

def keyword : BlockKind → String
  | .beginBlock => "begin"
  | .processBlock => "process"
  | .endBlock => "end"
  | .dynamicParam => "dynamicparam"

def all : List BlockKind := [.beginBlock, .processBlock, .endBlock, .dynamicParam]

def ofKeyword? (word : String) : Option BlockKind :=
  all.find? fun kind => Text.caselessEq kind.keyword word

end BlockKind

/-- What a `using` statement brings in. -/
inductive UsingKind where
  | namespaceName | moduleName | assemblyName
deriving DecidableEq, Repr, Inhabited

namespace UsingKind

def keyword : UsingKind → String
  | .namespaceName => "namespace"
  | .moduleName => "module"
  | .assemblyName => "assembly"

def all : List UsingKind := [.namespaceName, .moduleName, .assemblyName]

def ofKeyword? (word : String) : Option UsingKind :=
  all.find? fun kind => Text.caselessEq kind.keyword word

end UsingKind

/-- The mark before the name of a command that is invoked. -/
inductive Invocation where
  | call | dotSource
deriving DecidableEq, Repr, Inhabited

def Invocation.text : Invocation → String
  | .call => "&"
  | .dotSource => "."

inductive AssignmentOperator where
  | assign | add | subtract | multiply | divide | remainder
deriving DecidableEq, Repr, Inhabited

def AssignmentOperator.text : AssignmentOperator → String
  | .assign => "="
  | .add => "+="
  | .subtract => "-="
  | .multiply => "*="
  | .divide => "/="
  | .remainder => "%="

inductive BinaryOperator where
  | add | subtract | multiply | divide | remainder | range | format
  | equal | notEqual | greater | greaterOrEqual | less | lessOrEqual
  | like | notLike | matches | notMatches | contains | notContains | isIn | isNotIn
  | replace | isType | isNotType | asType | join | split
  | bitwiseAnd | bitwiseOr | bitwiseXor | and | or | xor
deriving DecidableEq, Repr, Inhabited

namespace BinaryOperator

/-- The word after the dash, of an operator that is written as one. -/
def dashWord? : BinaryOperator → Option String
  | .add | .subtract | .multiply | .divide | .remainder | .range => none
  | .format => some "f"
  | .equal => some "eq"
  | .notEqual => some "ne"
  | .greater => some "gt"
  | .greaterOrEqual => some "ge"
  | .less => some "lt"
  | .lessOrEqual => some "le"
  | .like => some "like"
  | .notLike => some "notlike"
  | .matches => some "match"
  | .notMatches => some "notmatch"
  | .contains => some "contains"
  | .notContains => some "notcontains"
  | .isIn => some "in"
  | .isNotIn => some "notin"
  | .replace => some "replace"
  | .isType => some "is"
  | .isNotType => some "isnot"
  | .asType => some "as"
  | .join => some "join"
  | .split => some "split"
  | .bitwiseAnd => some "band"
  | .bitwiseOr => some "bor"
  | .bitwiseXor => some "bxor"
  | .and => some "and"
  | .or => some "or"
  | .xor => some "xor"

def text : BinaryOperator → String
  | .add => "+"
  | .subtract => "-"
  | .multiply => "*"
  | .divide => "/"
  | .remainder => "%"
  | .range => ".."
  | op => "-" ++ (dashWord? op).getD ""

def all : List BinaryOperator :=
  [.add, .subtract, .multiply, .divide, .remainder, .range, .format, .equal, .notEqual, .greater,
    .greaterOrEqual, .less, .lessOrEqual, .like, .notLike, .matches, .notMatches, .contains,
    .notContains, .isIn, .isNotIn, .replace, .isType, .isNotType, .asType, .join, .split,
    .bitwiseAnd, .bitwiseOr, .bitwiseXor, .and, .or, .xor]

/-- The operator of a word without its dash, in any case. -/
def ofDashWord? (word : String) : Option BinaryOperator :=
  all.find? fun op => (dashWord? op).any (Text.caselessEq · word)

/-- How tightly the operator binds; zero is the loosest of seven levels. -/
def precedence : BinaryOperator → Nat
  | .and | .or | .xor => 0
  | .bitwiseAnd | .bitwiseOr | .bitwiseXor => 1
  | .equal | .notEqual | .greater | .greaterOrEqual | .less | .lessOrEqual | .like | .notLike
  | .matches | .notMatches | .contains | .notContains | .isIn | .isNotIn | .replace
  | .isType | .isNotType | .asType | .join | .split => 2
  | .add | .subtract => 3
  | .multiply | .divide | .remainder => 4
  | .format => 5
  | .range => 6

end BinaryOperator

inductive UnaryOperator where
  | not | bang | negate | plus | bitwiseNot | join | split
  | preIncrement | preDecrement | postIncrement | postDecrement
deriving DecidableEq, Repr, Inhabited

namespace UnaryOperator

def text : UnaryOperator → String
  | .not => "-not"
  | .bang => "!"
  | .negate => "-"
  | .plus => "+"
  | .bitwiseNot => "-bnot"
  | .join => "-join"
  | .split => "-split"
  | .preIncrement | .postIncrement => "++"
  | .preDecrement | .postDecrement => "--"

/-- Written after its operand. -/
def isTrailing : UnaryOperator → Bool
  | .postIncrement | .postDecrement => true
  | _ => false

/-- Written as a word, which keeps a space before its operand. -/
def isWord : UnaryOperator → Bool
  | .not | .bitwiseNot | .join | .split => true
  | _ => false

def all : List UnaryOperator :=
  [.not, .bang, .negate, .plus, .bitwiseNot, .join, .split, .preIncrement, .preDecrement,
    .postIncrement, .postDecrement]

/-- The operator of a word with its dash, in any case. -/
def ofDashWord? (word : String) : Option UnaryOperator :=
  all.find? fun op => op.isWord && Text.caselessEq op.text word

end UnaryOperator

/-- How a text constant is delimited. -/
inductive StringKind where
  | bareWord | singleQuoted | doubleQuoted | singleQuotedHereString | doubleQuotedHereString
deriving DecidableEq, Repr, Inhabited

end ScriptInject
