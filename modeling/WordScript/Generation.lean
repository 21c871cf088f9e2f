import WordScript.Program
import WordScript.Word

/-! What both code generators share: the causes they stop for and the encoding of values.

A checked program never makes a generator stop. -/
namespace WordScript

/-- Why no code can be generated for a program. -/
inductive GenerateProblem
  | noStorage (name : String)
  | scope (name : String)
  | unprintable (type : Option Ty)
  | operatorCode (code : Int)
  | operator
  | unknownFunction (name : String)
  | expression
  | statement
deriving DecidableEq, Repr

def GenerateProblem.message : GenerateProblem → String
  | .noStorage n => "no storage for variable `" ++ n ++ "`"
  | .scope n => "storage class of `" ++ n ++ "` disagrees with its resolved scope"
  | .unprintable t => "cannot print a value of type " ++ typeName t
  | .operatorCode n => "unknown binary operator `" ++ toString n ++ "`"
  | .operator => "unknown binary operator"
  | .unknownFunction f => "unknown function: `" ++ f ++ "`"
  | .expression => "unsupported expression"
  | .statement => "unsupported statement"

def Literal.encode (l : Literal) : Int :=
  match l.kind with
  | .isTrue => 1
  | .isFalse => 0
  | .unit => Word.noneCode
  | _ => l.value

/-- Whether the top-level statements end in an expression, whose value is then the result. -/
def hasResult (body : List Stmt) : Bool := (body.getLast?.map Stmt.isExpr).getD false

/-- What a function yields when control falls off the end of its body. -/
def defaultValue (returns : Option Ty) : Int := if returns = some .unit then Word.noneCode else 0

def BinaryOp.wordOp? (mode : Arithmetic) : BinaryOp → Option WordOp
  | .add => some .add
  | .sub => some .sub
  | .mul => some .mul
  | .floorDiv => some (.div mode)
  | .mod => some (.rem mode)
  | .gt => some (.gt mode)
  | .ge => some (.ge mode)
  | .lt => some (.lt mode)
  | .le => some (.le mode)
  | .eq | .is => some .eq
  | .ne => some .ne
  | .other _ => none

def printer? : Option Ty → Option String
  | some .int => some "print_num"
  | some .bool => some "print_bool"
  | some .unit => some "print_none"
  | none => none

end WordScript
