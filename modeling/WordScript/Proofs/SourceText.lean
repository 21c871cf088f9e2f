import WordScript.Program.Builder
import WordScript.Proofs.Names

/-! Programs as source texts.

A program is written with one statement a line, four blanks for each level of nesting, and
declarations before statements. Operands stand in parentheses only where their operator binds less
tightly than the place they stand in. -/
namespace WordScript

open Token (Kind Keyword)

/-- A line is made of words and of blanks between them. -/
inductive Piece
  | blank
  | word (kind : Kind) (text : String)
deriving DecidableEq, Repr

namespace Piece

def text : Piece → String
  | .blank => " "
  | .word _ x => x

def key (k : Keyword) : Piece := .word (.keyword k) k.text

def lparen : Piece := .word .lparen "("

def rparen : Piece := .word .rparen ")"

def comma : Piece := .word .comma ","

def colon : Piece := .word .colon ":"

def assign : Piece := .word .assign "="

def arrow : Piece := .word .arrow "->"

def minus : Piece := .word (.arith .minus) "-"

/-- The characters of a line without its margin. -/
def chars (ps : List Piece) : List Char := ps.flatMap fun p => p.text.toList

end Piece

/-- How tightly an operator binds: comparisons, sums, products. Below them stands `not`, above them
the sign of a factor. -/
def BinaryOp.level : BinaryOp → Nat
  | .add | .sub => 2
  | .mul | .floorDiv | .mod => 3
  | _ => 1

def BinaryOp.kind : BinaryOp → Kind
  | .add => .arith .plus
  | .sub => .arith .minus
  | .mul => .arith .star
  | .floorDiv => .arith .floorDiv
  | .mod => .arith .mod
  | .gt => .compare .gt
  | .ge => .compare .ge
  | .lt => .compare .lt
  | .le => .compare .le
  | .eq => .compare .eq
  | .ne => .compare .ne
  | .is => .keyword .is
  | .other _ => .name

def BinaryOp.piece (op : BinaryOp) : Piece := .word op.kind (op.text?.getD "")

def Literal.piece (l : Literal) : Piece :=
  match l.kind with
  | .int => .word .number (toString l.value)
  | .isTrue => .word .boolean "True"
  | .isFalse => .word .boolean "False"
  | _ => .word .noneWord "None"

/-- What binds at a level, at a place for operands that bind at `place` or tighter. -/
def enclosed (place level : Nat) (ps : List Piece) : List Piece :=
  if level < place then Piece.lparen :: ps ++ [Piece.rparen] else ps

mutual

/-- An expression at a place for operands that bind at `place` or tighter. An operator takes on its
left what binds as tightly as itself, and on its right only what binds more tightly. -/
def Expr.pieces : (place : Nat) → Expr → List Piece
  | _, .literal l => [l.piece]
  | _, .name _ _ x _ => [.word .name x]
  | _, .call _ _ f args =>
    .word .name f :: Piece.lparen :: Expr.argPieces args ++ [Piece.rparen]
  | place, .binary _ _ op lhs rhs =>
    enclosed place op.level
      (lhs.pieces op.level ++ [.blank, op.piece, .blank] ++ rhs.pieces (op.level + 1))
  | place, .unary _ _ .neg e => enclosed place 4 (Piece.minus :: e.pieces 4)
  | place, .unary _ _ _ e => enclosed place 0 (Piece.key .not :: .blank :: e.pieces 0)
  | _, .unknown _ _ => []

def Expr.argPieces : List Expr → List Piece
  | [] => []
  | [e] => e.pieces 0
  | e :: rest => e.pieces 0 ++ [Piece.comma, .blank] ++ Expr.argPieces rest

end

structure Line where
  depth : Nat
  pieces : List Piece
deriving DecidableEq, Repr

/-- The characters of a line, with its margin and its end. -/
def Line.chars (l : Line) : List Char :=
  List.replicate (4 * l.depth) ' ' ++ Piece.chars l.pieces ++ ['\n']

mutual

def Stmt.lines (depth : Nat) : Stmt → List Line
  | .pass _ => [⟨depth, [Piece.key .pass]⟩]
  | .assign _ x _ e =>
    [⟨depth, [.word .name x, .blank, Piece.assign, .blank] ++ e.pieces 0⟩]
  | .expr _ e => [⟨depth, e.pieces 0⟩]
  | .ret _ e => [⟨depth, [Piece.key .ret, .blank] ++ e.pieces 0⟩]
  | .while _ c body =>
    ⟨depth, [Piece.key .whileWord, .blank] ++ c.pieces 0 ++ [Piece.colon]⟩
      :: Stmt.linesOf (depth + 1) body
  | .cond _ c body elifs otherwise =>
    ⟨depth, [Piece.key .ifWord, .blank] ++ c.pieces 0 ++ [Piece.colon]⟩
      :: Stmt.linesOf (depth + 1) body ++ Stmt.elifLines depth elifs
      ++ (if otherwise.isEmpty then []
        else ⟨depth, [Piece.key .elseWord, Piece.colon]⟩ :: Stmt.linesOf (depth + 1) otherwise)
  | .unknown _ => []

def Stmt.linesOf (depth : Nat) : List Stmt → List Line
  | [] => []
  | s :: rest => s.lines depth ++ Stmt.linesOf depth rest

def Stmt.elifLines (depth : Nat) : List Elif → List Line
  | [] => []
  | .mk _ c body :: rest =>
    ⟨depth, [Piece.key .elifWord, .blank] ++ c.pieces 0 ++ [Piece.colon]⟩
      :: Stmt.linesOf (depth + 1) body ++ Stmt.elifLines depth rest

end

def Ty.piece : Ty → Piece
  | .int => .word .name "int"
  | .bool => .word .name "bool"
  | .unit => .word .noneWord "None"

/-- A declared type; one that the language does not have is left out. -/
def typePieces (type : Option Ty) : List Piece := (type.map Ty.piece).toList

def VarDecl.line (depth : Nat) (v : VarDecl) : Line :=
  ⟨depth, [.word .name v.name, Piece.colon, .blank] ++ typePieces v.type
    ++ [.blank, Piece.assign, .blank, v.init.piece]⟩

def Param.pieces (a : Param) : List Piece :=
  [.word .name a.name, Piece.colon, .blank] ++ typePieces a.type

def Param.listPieces : List Param → List Piece
  | [] => []
  | [a] => a.pieces
  | a :: rest => a.pieces ++ [Piece.comma, .blank] ++ Param.listPieces rest

def FuncDef.lines (f : FuncDef) : List Line :=
  ⟨0, [Piece.key .define, .blank, .word .name f.name, Piece.lparen] ++ Param.listPieces f.params
      ++ [Piece.rparen, .blank, Piece.arrow, .blank] ++ typePieces f.returns ++ [Piece.colon]⟩
    :: f.locals.map (VarDecl.line 1) ++ Stmt.linesOf 1 f.body

def Program.lines (p : Program) : List Line :=
  p.vars.map (VarDecl.line 0) ++ p.funcs.flatMap FuncDef.lines ++ Stmt.linesOf 0 p.stmts

def Program.sourceText (p : Program) : String := String.ofList (p.lines.flatMap Line.chars)

/-- Names as they can stand in a source: identifiers that are no words of the language. -/
def IsPlainName (x : String) : Prop := isIdentifier x = true ∧ Kind.ofWord x = .name

def Literal.Plain (l : Literal) : Prop :=
  l.type = none ∧
    match l.kind with
    | .int => 0 ≤ l.value ∧ l.value ≤ 2147483647
    | .other _ => False
    | _ => l.value = 0

/-- Nodes without types and scopes, as far as it can be told without looking inside. -/
def Expr.Plain : Expr → Prop
  | .literal l => l.Plain
  | .name _ t x s => t = none ∧ s = .unresolved ∧ IsPlainName x
  | .call _ t f args => t = none ∧ IsPlainName f ∧ ∀ k ∈ Builtin.arity? f, args.length = k
  | .binary _ t op _ _ => t = none ∧ op.Known
  | .unary _ t op _ => t = none ∧ op.Known
  | .unknown _ _ => False

def Elif.body : Elif → List Stmt
  | .mk _ _ body => body

def Stmt.Plain : Stmt → Prop
  | .assign _ x s _ => s = .unresolved ∧ IsPlainName x
  | .while _ _ body => body ≠ []
  | .cond _ _ body elifs _ => body ≠ [] ∧ ∀ c ∈ elifs, c.body ≠ []
  | .unknown _ => False
  | _ => True

structure VarDecl.Plain (v : VarDecl) : Prop where
  name : IsPlainName v.name
  type : v.type.isSome
  init : v.init.Plain

structure FuncDef.Plain (f : FuncDef) : Prop where
  name : IsPlainName f.name
  params : ∀ a ∈ f.params, IsPlainName a.name ∧ a.type.isSome
  returns : f.returns.isSome
  locals : ∀ v ∈ f.locals, v.Plain
  body : Stmt.AllIn Expr.Plain Stmt.Plain f.body
  some : f.locals = [] → f.body ≠ []

/-- A program without types and scopes whose names, integers and declared types can be written, in
which no block is empty and every call of a built-in has as many arguments as that takes. -/
structure Program.Plain (p : Program) : Prop where
  vars : ∀ v ∈ p.vars, v.Plain
  funcs : ∀ f ∈ p.funcs, f.Plain
  stmts : Stmt.AllIn Expr.Plain Stmt.Plain p.stmts

def Literal.bare (l : Literal) : Literal := { l with span := default }

mutual

/-- An expression without the places it was read from. -/
def Expr.bare : Expr → Expr
  | .literal l => .literal l.bare
  | .name _ t x s => .name default t x s
  | .call _ t f args => .call default t f (Expr.bareAll args)
  | .binary _ t op lhs rhs => .binary default t op lhs.bare rhs.bare
  | .unary _ t op e => .unary default t op e.bare
  | .unknown _ t => .unknown default t

def Expr.bareAll : List Expr → List Expr
  | [] => []
  | e :: rest => e.bare :: Expr.bareAll rest

end

theorem length_bareAll (es : List Expr) : (Expr.bareAll es).length = es.length := by
  induction es with
  | nil => rfl
  | cons e es ih => simp [Expr.bareAll, ih]

mutual

def Stmt.bare : Stmt → Stmt
  | .pass _ => .pass default
  | .assign _ x s e => .assign default x s e.bare
  | .expr _ e => .expr default e.bare
  | .ret _ e => .ret default e.bare
  | .while _ c body => .while default c.bare (Stmt.bareAll body)
  | .cond _ c body elifs otherwise =>
    .cond default c.bare (Stmt.bareAll body) (Stmt.bareElifs elifs) (Stmt.bareAll otherwise)
  | .unknown _ => .unknown default

def Stmt.bareAll : List Stmt → List Stmt
  | [] => []
  | s :: rest => s.bare :: Stmt.bareAll rest

def Stmt.bareElifs : List Elif → List Elif
  | [] => []
  | .mk _ c body :: rest => .mk default c.bare (Stmt.bareAll body) :: Stmt.bareElifs rest

end

def VarDecl.bare (v : VarDecl) : VarDecl := { v with span := default, init := v.init.bare }

def Param.bare (a : Param) : Param := { a with span := default }

def FuncDef.bare (f : FuncDef) : FuncDef :=
  { f with
    span := default
    params := f.params.map Param.bare
    locals := f.locals.map VarDecl.bare
    body := Stmt.bareAll f.body }

/-- A program without the places it was read from. -/
def Program.bare (p : Program) : Program :=
  ⟨p.vars.map VarDecl.bare, p.funcs.map FuncDef.bare, Stmt.bareAll p.stmts⟩

end WordScript
