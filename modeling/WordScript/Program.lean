import WordScript.Text.Position

/-! Program trees.

The language has three types of values. A tree is written without types and scopes; checking
fills them in. Trees may also come from elsewhere, with nodes, operators, literals or scopes
that the language does not have: these are kept by their number and no pass knows them. -/
namespace WordScript

/-- The types. `unit` is the type of `None`. -/
inductive Ty
  | int | bool | unit
deriving DecidableEq, Repr

def Ty.name : Ty → String
  | .int => "int"
  | .bool => "bool"
  | .unit => "None"

def Ty.ofName? : String → Option Ty
  | "int" => some .int
  | "bool" => some .bool
  | "None" | "none" => some .unit
  | _ => none

def typeName : Option Ty → String
  | some t => t.name
  | none => "<invalid>"

/-- Where the value of a name is stored. -/
inductive Scope
  | unresolved | global | slot
  | other (code : Int)
deriving DecidableEq, Repr

inductive BinaryOp
  | add | sub | mul | floorDiv | mod
  | gt | ge | lt | le
  | eq | ne | is
  | other (code : Int)
deriving DecidableEq, Repr

namespace BinaryOp

def all : List BinaryOp :=
  [.add, .sub, .mul, .floorDiv, .mod, .gt, .ge, .lt, .le, .eq, .ne, .is]

def text? : BinaryOp → Option String
  | .add => some "+"
  | .sub => some "-"
  | .mul => some "*"
  | .floorDiv => some "//"
  | .mod => some "%"
  | .gt => some ">"
  | .ge => some ">="
  | .lt => some "<"
  | .le => some "<="
  | .eq => some "=="
  | .ne => some "!="
  | .is => some "is"
  | .other _ => none

def ofText? (text : String) : Option BinaryOp := all.find? (·.text? == some text)

/-- The number of an operator: its place in the list of operators. -/
def code : BinaryOp → Int
  | .other n => n
  | op => all.idxOf op

def ofCode (n : Int) : BinaryOp :=
  if 0 ≤ n then all[n.toNat]?.getD (.other n) else .other n

def isArith : BinaryOp → Bool
  | .add | .sub | .mul | .floorDiv | .mod => true
  | _ => false

def isOrder : BinaryOp → Bool
  | .gt | .ge | .lt | .le => true
  | _ => false

end BinaryOp

inductive UnaryOp
  | neg | not
  | other (code : Int)
deriving DecidableEq, Repr

namespace UnaryOp

def text? : UnaryOp → Option String
  | .neg => some "-"
  | .not => some "not"
  | .other _ => none

def ofText? : String → Option UnaryOp
  | "-" => some .neg
  | "not" => some .not
  | _ => none

def code : UnaryOp → Int
  | .neg => 0
  | .not => 1
  | .other n => n

def ofCode (n : Int) : UnaryOp :=
  if n = 0 then .neg else if n = 1 then .not else .other n

end UnaryOp

inductive LiteralKind
  | int | isTrue | isFalse | unit
  | other (code : Int)
deriving DecidableEq, Repr

/-- A literal. Only an integer literal makes use of its value. -/
structure Literal where
  span : Span
  type : Option Ty
  kind : LiteralKind
  value : Int
deriving DecidableEq, Repr

inductive Expr
  | literal (lit : Literal)
  | name (span : Span) (type : Option Ty) (name : String) (scope : Scope)
  | call (span : Span) (type : Option Ty) (callee : String) (args : List Expr)
  | binary (span : Span) (type : Option Ty) (op : BinaryOp) (lhs rhs : Expr)
  | unary (span : Span) (type : Option Ty) (op : UnaryOp) (operand : Expr)
  | unknown (span : Span) (type : Option Ty)
deriving Repr

namespace Expr

def span : Expr → Span
  | .literal l => l.span
  | .name s _ _ _ | .call s _ _ _ | .binary s _ _ _ _ | .unary s _ _ _ | .unknown s _ => s

def type : Expr → Option Ty
  | .literal l => l.type
  | .name _ t _ _ | .call _ t _ _ | .binary _ t _ _ _ | .unary _ t _ _ | .unknown _ t => t

end Expr

mutual

inductive Stmt
  | pass (span : Span)
  | assign (span : Span) (name : String) (scope : Scope) (value : Expr)
  | expr (span : Span) (e : Expr)
  | ret (span : Span) (value : Expr)
  | while (span : Span) (cond : Expr) (body : List Stmt)
  | cond (span : Span) (cond : Expr) (body : List Stmt) (elifs : List Elif) (otherwise : List Stmt)
  | unknown (span : Span)

/-- An `elif` clause. -/
inductive Elif
  | mk (span : Span) (cond : Expr) (body : List Stmt)

end

namespace Stmt

def span : Stmt → Span
  | .pass s | .assign s _ _ _ | .expr s _ | .ret s _ | .while s _ _ | .cond s _ _ _ _
  | .unknown s => s

/-- Whether a statement is an expression evaluated for its effect. -/
def isExpr : Stmt → Bool
  | .expr _ _ => true
  | _ => false

end Stmt

/-- A variable with its literal initial value. -/
structure VarDecl where
  span : Span
  name : String
  type : Option Ty
  init : Literal
deriving DecidableEq, Repr

structure Param where
  span : Span
  name : String
  type : Option Ty
deriving DecidableEq, Repr

structure FuncDef where
  span : Span
  name : String
  params : List Param
  returns : Option Ty
  locals : List VarDecl
  body : List Stmt

/-- A program: global variables, functions, and the statements that run. -/
structure Program where
  vars : List VarDecl
  funcs : List FuncDef
  stmts : List Stmt

end WordScript
