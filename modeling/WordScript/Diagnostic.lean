import WordScript.Text.Position

/-! What is wrong with a source, and how a pass over a tree stops. -/
namespace WordScript

/-- The stage of compilation an error comes from. -/
inductive Stage
  | reading | building | checking | generating
deriving DecidableEq, Repr

def Stage.word : Stage → String
  | .reading => "syntax"
  | .building => "build"
  | .checking => "type"
  | .generating => "generator"

/-- An error in the compiled program. It ends the whole compilation. -/
structure Diagnostic where
  stage : Stage
  message : String
  span : Option Span
deriving DecidableEq, Repr

def Diagnostic.text (d : Diagnostic) : String := d.stage.word ++ " error: " ++ d.message

/-- How a pass over a tree stops early: at a place for a cause, or because the tree lacks a part
that every tree of its kind has. -/
inductive Stop (ε : Type)
  | fault (span : Span) (cause : ε)
  | crash
deriving DecidableEq, Repr

def orCrash {ε α : Type} : Option α → Except (Stop ε) α
  | some a => .ok a
  | none => .error .crash

/-- The word for a count, in the plural unless that is one: `1 argument`, `2 arguments`. -/
def plural (word : String) (n : Int) : String := if n = 1 then word else word ++ "s"

end WordScript
