import ScriptInject.Span
/-! The words and marks of the language. -/
namespace ScriptInject

/-- Tokens that have one spelling only. -/
inductive Mark where
  | lparen | rparen | lbrace | rbrace | lbracket | rbracket
  | dollarParen | atParen | atBrace
  | comma | semicolon | dot | dotDot | colonColon | colon
  | question | questionDot | questionBracket | pipe | ampersand | backslash
  | assign | plusAssign | minusAssign | starAssign | slashAssign | percentAssign
  | plus | minus | star | slash | percent | bang | plusPlus | minusMinus
deriving DecidableEq, Repr, Inhabited

def Mark.text : Mark → String
  | .lparen => "("
  | .rparen => ")"
  | .lbrace => "\x7b"
  | .rbrace => "\x7d"
  | .lbracket => "["
  | .rbracket => "]"
  | .dollarParen => "$("
  | .atParen => "@("
  | .atBrace => "@\x7b"
  | .comma => ","
  | .semicolon => ";"
  | .dot => "."
  | .dotDot => ".."
  | .colonColon => "::"
  | .colon => ":"
  | .question => "?"
  | .questionDot => "?."
  | .questionBracket => "?["
  | .pipe => "|"
  | .ampersand => "&"
  | .backslash => "\\"
  | .assign => "="
  | .plusAssign => "+="
  | .minusAssign => "-="
  | .starAssign => "*="
  | .slashAssign => "/="
  | .percentAssign => "%="
  | .plus => "+"
  | .minus => "-"
  | .star => "*"
  | .slash => "/"
  | .percent => "%"
  | .bang => "!"
  | .plusPlus => "++"
  | .minusMinus => "--"

inductive Token where
  /-- `$name`, `$scope:name` or a name in braces, without what surrounds the name. -/
  | variableName (path : String)
  /-- `@name`, without the mark. -/
  | splat (name : String)
  | number (text : String)
  /-- The value, in which doubled quotes stand once. -/
  | singleQuoted (value : String)
  /-- The text between the quotes as it is written. -/
  | doubleQuoted (body : String)
  | singleHereString (value : String)
  | doubleHereString (body : String)
  | word (text : String)
  /-- A word with its leading dash and, for a named parameter, its trailing colon. -/
  | dashWord (text : String)
  | newline
  | mark (m : Mark)
deriving DecidableEq, Repr, Inhabited

/-- How an error message speaks of the token. -/
def Token.describe : Token → String
  | .variableName path => "variable $" ++ path
  | .splat name => "splat @" ++ name
  | .number text => "number " ++ text
  | .singleQuoted _ | .doubleQuoted _ => "string"
  | .singleHereString _ | .doubleHereString _ => "here-string"
  | .word text | .dashWord text => "'" ++ text ++ "'"
  | .newline => "newline"
  | .mark m => "'" ++ m.text ++ "'"

/-- A token and where it stands. -/
structure Lexeme where
  token : Token
  span : Span
deriving DecidableEq, Repr, Inhabited

end ScriptInject
