import WordScript.Text.Utf8

/-! S-expressions: the shape of the text of modules. -/
namespace WordScript

/-- An atom is a word or a string literal, kept as it was written. -/
inductive Sexpr
  | atom (text : Bytes)
  | list (items : List Sexpr)
deriving Repr

namespace Sexpr

instance : Inhabited Sexpr := ⟨.list []⟩

def text : Sexpr → Bytes
  | .atom t => t
  | .list _ => []

def items : Sexpr → List Sexpr
  | .atom _ => []
  | .list is => is

def operands (s : Sexpr) : List Sexpr := s.items.tail

def isList : Sexpr → Bool
  | .atom _ => false
  | .list _ => true

def head : Sexpr → Bytes
  | .list (.atom t :: _) => t
  | _ => []

def isName : Sexpr → Bool
  | .atom (36 :: _) => true
  | _ => false

mutual

/-- The text of an S-expression: one space between the items of a list. -/
def print : Sexpr → Bytes
  | .atom t => t
  | .list is => 40 :: printAll is ++ [41]

def printAll : List Sexpr → Bytes
  | [] => []
  | [s] => s.print
  | s :: rest => s.print ++ 32 :: printAll rest

end

end Sexpr
end WordScript
