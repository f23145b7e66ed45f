import ScriptInject.Operator
/-! The written form of names and constants. -/
namespace ScriptInject.Source

def isPlainChar (c : Char) : Bool := c.isAlphanum || c == '_'

def isPlainName (name : List Char) : Bool := !name.isEmpty && name.all isPlainChar

/-- Whether a path reads back as one variable without braces: a plain name, with a plain scope
before it or not, or one of the three names that are a single mark. -/
def needsNoBraces (path : String) : Bool :=
  let cs := path.toList
  let first := cs.takeWhile (· != ':')
  match cs.drop first.length with
  | _ :: name =>
    isPlainName first && isPlainName name && !Text.caselessEq (String.ofList first) "using"
  | [] => isPlainName cs || path == "?" || path == "^" || path == "$"

/-- `$name`, or `${name}` where braces are needed or wanted. -/
def variableText (path : String) (braced : Bool) : String :=
  if needsNoBraces path && !braced then "$" ++ path else "$\x7b" ++ path ++ "\x7d"

/-- A text with each single quote written twice. -/
def doubleQuotes (value : String) : String :=
  String.ofList (value.toList.flatMap fun c => if c == '\x27' then [c, c] else [c])

def quoted (value : String) : StringKind → String
  | .bareWord => value
  | .singleQuoted => "'" ++ doubleQuotes value ++ "'"
  | .doubleQuoted => "\x22" ++ value ++ "\x22"
  | .singleQuotedHereString => "@'\n" ++ value ++ "\n'@"
  | .doubleQuotedHereString => "@\x22\n" ++ value ++ "\n\x22@"

end ScriptInject.Source
