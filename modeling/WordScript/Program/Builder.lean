import WordScript.Builtin
import WordScript.Diagnostic
import WordScript.Program
import WordScript.Text.Numeral
import WordScript.Tree

/-! Reading a tree into a program.

The grammar admits more than the language has; what is left out is refused here. Each function
takes the node it reads from. Parts are asked for in a fixed order, so that of two faults the
first one met is reported; a part that no tree of the grammar lacks is asked for by `orCrash`. -/
namespace WordScript

/-- Why a tree is not a program of the language. -/
inductive BuildProblem
  | lateDeclaration
  | misplacedDeclaration
  | nestedFunction
  | untypedParam (name : String)
  | declaredTarget (text : String)
  | noInitializer (name : String)
  | assignedTarget (text : String)
  | statement (text : String)
  | clause (text : String)
  | expression (text : String)
  | fraction (text : String)
  | range (text : String)
  | literal (text : String)
  | type (text : String)
  | unaryOp (text : String)
  | binaryOp (text : String)
  | callee (text : String)
  | arity (name : String) (wanted given : Nat)
deriving DecidableEq, Repr

def BuildProblem.message : BuildProblem → String
  | .lateDeclaration => "declarations must precede statements"
  | .misplacedDeclaration =>
    "variable declarations are only allowed at the start of a function or of the program"
  | .nestedFunction => "function definitions are only allowed at the top level"
  | .untypedParam n => "missing type annotation for parameter `" ++ n ++ "`"
  | .declaredTarget t => "cannot declare `" ++ t ++ "`: expected a variable name"
  | .noInitializer n => "missing initializer for variable `" ++ n ++ "`"
  | .assignedTarget t => "cannot assign to `" ++ t ++ "`"
  | .statement t => "unsupported statement: `" ++ t ++ "`"
  | .clause t => "unexpected `" ++ t ++ "` in if statement"
  | .expression t => "unsupported expression: `" ++ t ++ "`"
  | .fraction t => "unsupported literal: `" ++ t ++ "`: only integers are supported"
  | .range t => "integer literal out of range: `" ++ t ++ "`"
  | .literal t => "unsupported literal: `" ++ t ++ "`"
  | .type t => "unknown type: `" ++ t ++ "`"
  | .unaryOp t => "unsupported unary operator: `" ++ t ++ "`"
  | .binaryOp t => "unsupported binary operator: `" ++ t ++ "`"
  | .callee t => "cannot call `" ++ t ++ "`: only named functions can be called"
  | .arity n wanted given =>
    "built-in `" ++ n ++ "` takes " ++ toString wanted ++ " " ++ plural "argument" wanted
      ++ " but " ++ toString given ++ " were given"

namespace Builder

abbrev Build := Except (Stop BuildProblem)

variable (source : Bytes)

def spanOf (n : Node) : Build Span := orCrash n.span?

def textOf (n : Node) : Build String := orCrash (n.text? source)

def refuse {α : Type} (n : Node) (problem : BuildProblem) : Build α := do
  .error (.fault (← spanOf n) problem)

def refuseText {α : Type} (n : Node) (problem : String → BuildProblem) : Build α := do
  refuse n (problem (← textOf source n))

/-- A declaration is an assignment whose target has a type annotation. -/
def isVarDecl : Node → Bool
  | .branch "AssignStatement" (_ :: typed :: _) => typed.name == "TypeDef"
  | _ => false

/-- One of the four literal forms: an integer, `True`, `False` or `None`. -/
def literal (n : Node) : Build Literal := do
  let span ← spanOf n
  let text ← textOf source n
  let make (kind : LiteralKind) (value : Int) : Literal := ⟨span, none, kind, value⟩
  match n.name with
  | "Number" =>
    if text.toList.contains '.' then refuse n (.fraction text)
    else
      match Numeral.int64? text.toList with
      | some v =>
        if v < 2147483648 then return make .int (v.bmod 4294967296) else refuse n (.range text)
      | none => refuse n (.range text)
  | "Boolean" => return make (if text = "True" then .isTrue else .isFalse) 0
  | "None" => return make .unit 0
  | _ => refuse n (.literal text)

def typeDef (n : Node) : Build Ty := do
  match n with
  | .branch _ (_ :: label :: _) =>
    let text ← textOf source label
    match (if label.name = "VariableName" ∨ label.name = "None" then Ty.ofName? text else none) with
    | some t => return t
    | none => refuse label (.type text)
  | _ => .error .crash

mutual

def expr : Node → Build Expr
  | .leaf t => do
    match t.label with
    | "Number" | "Boolean" | "None" | "String" => return .literal (← literal source (.leaf t))
    | "VariableName" => return .name t.span none (← textOf source (.leaf t)) .unresolved
    | "ParenthesizedExpression" | "UnaryExpression" | "BinaryExpression" | "CallExpression" =>
      .error .crash
    | _ => refuseText source (.leaf t) .expression
  | .branch name content => do
    let n := Node.branch name content
    match name with
    | "Number" | "Boolean" | "None" | "String" => return .literal (← literal source n)
    | "VariableName" =>
      let span ← spanOf n
      return .name span none (← textOf source n) .unresolved
    | "ParenthesizedExpression" =>
      match content with
      | _ :: inner :: _ => expr inner
      | _ => .error .crash
    | "UnaryExpression" =>
      match content with
      | [] => .error .crash
      | sign :: rest =>
        let text ← textOf source sign
        match UnaryOp.ofText? text with
        | none => refuse sign (.unaryOp text)
        | some op =>
          let span ← spanOf n
          match rest with
          | [] => .error .crash
          | operand :: _ => return .unary span none op (← expr operand)
    | "BinaryExpression" =>
      match content with
      | lhs :: sign :: rest =>
        let text ← textOf source sign
        match BinaryOp.ofText? text with
        | none => refuse sign (.binaryOp text)
        | some op =>
          let span ← spanOf n
          let lhs ← expr lhs
          match rest with
          | [] => .error .crash
          | rhs :: _ => return .binary span none op lhs (← expr rhs)
      | _ => .error .crash
    | "CallExpression" =>
      match content with
      | [] => .error .crash
      | callee :: rest =>
        if callee.name ≠ "VariableName" then refuseText source callee .callee
        else
          let f ← textOf source callee
          match rest with
          | .branch _ (_ :: list) :: _ =>
            let args ← arguments list
            match Builtin.arity? f with
            | some k =>
              if args.length ≠ k then refuse n (.arity f k args.length)
              else return .call (← spanOf n) none f args
            | none => return .call (← spanOf n) none f args
          | _ => .error .crash
    | _ => refuseText source n .expression

/-- The arguments of a call, before the node that closes the list. -/
def arguments : List Node → Build (List Expr)
  | [] => .error .crash
  | [_] => return []
  | n :: m :: rest => do
    if n.name = "," then arguments (m :: rest)
    else
      let e ← expr n
      return e :: (← arguments (m :: rest))

end

mutual

def stmt : Node → Build Stmt
  | .leaf t => refuseText source (.leaf t) .statement
  | .branch name content => do
    let n := Node.branch name content
    match name with
    | "PassStatement" => return .pass (← spanOf n)
    | "ReturnStatement" =>
      match content with
      | _ :: value :: _ =>
        let value ← expr source value
        return .ret (← spanOf n) value
      | _ =>
        let span ← spanOf n
        return .ret span (.literal ⟨span, none, .unit, 0⟩)
    | "AssignStatement" =>
      if isVarDecl n then refuse n .misplacedDeclaration
      else
        match content with
        | [] => .error .crash
        | target :: rest =>
          if target.name ≠ "VariableName" then refuseText source target .assignedTarget
          else
            let span ← spanOf n
            let x ← textOf source target
            match rest with
            | _ :: value :: _ => return .assign span x .unresolved (← expr source value)
            | _ => .error .crash
    | "ExpressionStatement" =>
      let span ← spanOf n
      match content with
      | [] => .error .crash
      | e :: _ => return .expr span (← expr source e)
    | "IfStatement" =>
      let span ← spanOf n
      match content with
      | _ :: cond :: rest =>
        let cond ← expr source cond
        match rest with
        | .branch _ (_ :: body) :: rest =>
          let body ← stmts body
          let (elifs, otherwise) ← clauses rest
          return .cond span cond body elifs (otherwise.getD [])
        | _ => .error .crash
      | _ => .error .crash
    | "WhileStatement" =>
      let span ← spanOf n
      match content with
      | _ :: cond :: rest =>
        let cond ← expr source cond
        match rest with
        | .branch _ (_ :: body) :: _ => return .while span cond (← stmts body)
        | _ => .error .crash
      | _ => .error .crash
    | "FunctionDefinition" => refuse n .nestedFunction
    | _ => refuseText source n .statement

def stmts : List Node → Build (List Stmt)
  | [] => return []
  | n :: rest => do
    let s ← stmt n
    return s :: (← stmts rest)

/-- The `elif` and `else` clauses of an if statement. Of several `else` clauses the last one
counts. -/
def clauses : List Node → Build (List Elif × Option (List Stmt))
  | [] => return ([], none)
  | word :: rest => do
    match word.name with
    | "elif" =>
      match rest with
      | cond :: .branch name (colon :: body) :: rest =>
        let first ← spanOf word
        let last ← spanOf (.branch name (colon :: body))
        let cond ← expr source cond
        let body ← stmts body
        let (elifs, otherwise) ← clauses rest
        return (.mk (first.over last) cond body :: elifs, otherwise)
      | _ => .error .crash
    | "else" =>
      match rest with
      | .branch _ (_ :: body) :: rest =>
        let body ← stmts body
        let (elifs, otherwise) ← clauses rest
        return (elifs, some (otherwise.getD body))
      | _ => .error .crash
    | _ => refuseText source word .clause

end

def varDecl : Node → Build VarDecl
  | .branch name (target :: rest) => do
    let n := Node.branch name (target :: rest)
    if target.name ≠ "VariableName" then refuseText source target .declaredTarget
    else
      let x ← textOf source target
      match rest with
      | typed :: rest =>
        let type ← typeDef source typed
        match rest with
        | _ :: init :: _ =>
          let span ← spanOf n
          return ⟨span, x, some type, ← literal source init⟩
        | _ => refuse n (.noInitializer x)
      | [] => .error .crash
  | _ => .error .crash

def params : List Node → Build (List Param)
  | [] => return []
  | n :: rest => do
    if n.name ≠ "VariableName" then params rest
    else
      let x ← textOf source n
      match rest with
      | [] => refuse n (.untypedParam x)
      | typed :: rest =>
        if typed.name ≠ "TypeDef" then refuse n (.untypedParam x)
        else
          let first ← spanOf n
          let last ← spanOf typed
          let type ← typeDef source typed
          return ⟨first.over last, x, some type⟩ :: (← params rest)

def plainStmts (isDecl : Node → Bool) : List Node → Build (List Stmt)
  | [] => return []
  | n :: rest => do
    if isDecl n then refuse n .lateDeclaration
    else
      let s ← stmt source n
      return s :: (← plainStmts isDecl rest)

def funcBody : List Node → Build (List VarDecl × List Stmt)
  | [] => return ([], [])
  | n :: rest => do
    if isVarDecl n then
      let v ← varDecl source n
      let (vars, body) ← funcBody rest
      return (v :: vars, body)
    else return ([], ← plainStmts source isVarDecl (n :: rest))

def funcDef (n : Node) : Build FuncDef := do
  let span ← spanOf n
  match n.content with
  | _ :: name :: rest =>
    let f ← textOf source name
    match rest with
    | .branch _ list :: rest =>
      let params ← params source (list.drop 1).dropLast
      match rest with
      | returns :: _ =>
        let type ← if returns.name = "TypeDef" then typeDef source returns else pure .unit
        let (vars, body) ← funcBody source ((rest.getLastD returns).content.drop 1)
        return ⟨span, f, params, some type, vars, body⟩
      | [] => .error .crash
    | _ => .error .crash
  | _ => .error .crash

def isDeclaration (n : Node) : Bool := isVarDecl n || n.name == "FunctionDefinition"

/-- Variables and functions first, in any order, then statements. -/
def program : List Node → Build Program
  | [] => return ⟨[], [], []⟩
  | n :: rest => do
    if isVarDecl n then
      let v ← varDecl source n
      let p ← program rest
      return { p with vars := v :: p.vars }
    else if n.name = "FunctionDefinition" then
      match n with
      | .leaf _ => .error .crash
      | .branch _ _ =>
        let f ← funcDef source n
        let p ← program rest
        return { p with funcs := f :: p.funcs }
    else return ⟨[], [], ← plainStmts source isDeclaration (n :: rest)⟩

end Builder

def Program.ofTree (t : Tree) : Except (Stop BuildProblem) Program :=
  Builder.program t.source t.root.content

end WordScript
