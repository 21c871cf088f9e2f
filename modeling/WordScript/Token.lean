import WordScript.Text.Position

/-! The tokens of a source text. Block structure is explicit: `newline` ends a logical line,
`indent` and `dedent` open and close a block. -/
namespace WordScript

namespace Token

inductive Keyword
  | define | ret | pass | ifWord | elifWord | elseWord | whileWord | not | is | and | or
deriving DecidableEq, Repr

inductive ArithSign
  | plus | minus | star | slash | floorDiv | mod | power
deriving DecidableEq, Repr

inductive CompareSign
  | eq | ne | lt | gt | le | ge
deriving DecidableEq, Repr

inductive Kind
  | keyword (word : Keyword)
  | arith (sign : ArithSign)
  | compare (sign : CompareSign)
  | assign | lparen | rparen | comma | colon | arrow
  | name | number | string | boolean | noneWord
  | newline | indent | dedent | eof
deriving DecidableEq, Repr

def Keyword.text : Keyword → String
  | .define => "def"
  | .ret => "return"
  | .pass => "pass"
  | .ifWord => "if"
  | .elifWord => "elif"
  | .elseWord => "else"
  | .whileWord => "while"
  | .not => "not"
  | .is => "is"
  | .and => "and"
  | .or => "or"

def Keyword.all : List Keyword :=
  [.define, .ret, .pass, .ifWord, .elifWord, .elseWord, .whileWord, .not, .is, .and, .or]

def Kind.ofWord (word : String) : Kind :=
  match Keyword.all.find? (·.text == word) with
  | some k => .keyword k
  | none =>
    if word = "True" ∨ word = "False" then .boolean
    else if word = "None" then .noneWord
    else .name

def Kind.ofPair? : Char → Char → Option Kind
  | '/', '/' => some (.arith .floorDiv)
  | '*', '*' => some (.arith .power)
  | '=', '=' => some (.compare .eq)
  | '!', '=' => some (.compare .ne)
  | '<', '=' => some (.compare .le)
  | '>', '=' => some (.compare .ge)
  | '-', '>' => some .arrow
  | _, _ => none

def Kind.ofChar? : Char → Option Kind
  | '+' => some (.arith .plus)
  | '-' => some (.arith .minus)
  | '*' => some (.arith .star)
  | '/' => some (.arith .slash)
  | '%' => some (.arith .mod)
  | '<' => some (.compare .lt)
  | '>' => some (.compare .gt)
  | '=' => some .assign
  | '(' => some .lparen
  | ')' => some .rparen
  | ',' => some .comma
  | ':' => some .colon
  | _ => none

/-- Layout tokens shape the blocks and never become leaves of a tree. -/
def Kind.isLayout : Kind → Bool
  | .newline | .indent | .dedent | .eof => true
  | _ => false

end Token

/-- A token: its text, its byte range `[start, stop)` and its span. The text of a string literal
keeps its quotes. -/
structure Token where
  kind : Token.Kind
  value : String
  start : Nat
  stop : Nat
  span : Span
deriving DecidableEq, Repr

namespace Token

def describe (t : Token) : String :=
  match t.kind with
  | .newline => "newline"
  | .indent => "indent"
  | .dedent => "dedent"
  | .eof => "end of file"
  | _ => "`" ++ t.value ++ "`"

/-- The name of a token as a leaf of a tree: its class, or its own text. -/
def label (t : Token) : String :=
  match t.kind with
  | .name => "VariableName"
  | .number => "Number"
  | .string => "String"
  | .boolean => "Boolean"
  | .noneWord => "None"
  | .arith _ => "ArithOp"
  | .compare _ => "CompareOp"
  | _ => t.value

end Token
end WordScript
