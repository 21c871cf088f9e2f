import WordScript.Diagnostic
import WordScript.Generation
import WordScript.Program
import WordScript.StackCode

/-! Lowering a program to stack code.

The code of an expression leaves its value on the stack; the code of a statement leaves the stack
as it was. The value of an expression statement goes to a scratch slot, from where the top-level
code returns the last one. Loops are numbered within a function in the order they are written in,
and labels and scratch slot start with a dot, which no name in a source does. -/
namespace WordScript
namespace StackCode

abbrev Lower := Except (Stop GenerateProblem)

def fault {α : Type} (span : Span) (problem : GenerateProblem) : Lower α :=
  .error (.fault span problem)

def scratch : String := ".scratch"

def breakLabel (n : Nat) : String := ".brk_" ++ toString n

def loopLabel (n : Nat) : String := ".loop_" ++ toString n

/-- What code generation depends on: the mode and the names with storage. -/
structure Context where
  mode : Arithmetic
  globals : List String
  slots : List String

namespace Context

def place? (ctx : Context) (name : String) : Option Place :=
  if ctx.slots.contains name then some .slot
  else if ctx.globals.contains name then some .global
  else none

/-- The storage of a name, which must be what checking resolved it to. -/
def place (ctx : Context) (span : Span) (name : String) (scope : Scope) : Lower Place :=
  match ctx.place? name, scope with
  | some .global, .global => .ok .global
  | some .slot, .slot => .ok .slot
  | some _, _ => fault span (.scope name)
  | none, _ => fault span (.noStorage name)

end Context

def callTarget (span : Span) (f : String) (args : List Expr) : Lower String :=
  if f = "print" then
    match args with
    | [] => .error .crash
    | arg :: _ =>
      match printer? arg.type with
      | some printer => .ok printer
      | none => fault span (.unprintable arg.type)
  else .ok f

def unaryCode : UnaryOp → List Instr
  | .neg => [.const (-1), .op .mul]
  | .not => [.const 1, .op .xor]
  | .other _ => []

mutual

def expr (ctx : Context) : Expr → Lower (List Instr)
  | .literal l => .ok [.const l.encode]
  | .name span _ n scope => do return [.get (← ctx.place span n scope) n]
  | .unary _ _ op operand => do return (← expr ctx operand) ++ unaryCode op
  | .binary span _ op lhs rhs => do
    let lhs ← expr ctx lhs
    let rhs ← expr ctx rhs
    match op.wordOp? ctx.mode with
    | some o => return lhs ++ rhs ++ [.op o]
    | none => fault span (.operatorCode op.code)
  | .call span _ f args => do
    let code ← arguments ctx args
    return code ++ [.call (← callTarget span f args)]
  | .unknown span _ => fault span .expression

def arguments (ctx : Context) : List Expr → Lower (List Instr)
  | [] => .ok []
  | e :: rest => do return (← expr ctx e) ++ (← arguments ctx rest)

end

mutual

def loops : Stmt → Nat
  | .while _ _ body => loopsIn body + 1
  | .cond _ _ body elifs otherwise => loopsIn body + loopsInElifs elifs + loopsIn otherwise
  | _ => 0

def loopsIn : List Stmt → Nat
  | [] => 0
  | s :: rest => loops s + loopsIn rest

def loopsInElif : Elif → Nat
  | .mk _ _ body => loopsIn body

def loopsInElifs : List Elif → Nat
  | [] => 0
  | e :: rest => loopsInElif e + loopsInElifs rest

end

mutual

/-- The code of a statement whose first loop has the number `n`. A loop runs inside a block and
leaves it as soon as its condition is false. -/
def stmt (ctx : Context) (n : Nat) : Stmt → Lower (List Instr)
  | .pass _ => .ok [.nop]
  | .assign span x scope e => do
    let place ← ctx.place span x scope
    return (← expr ctx e) ++ [.set place x]
  | .expr _ e => do return (← expr ctx e) ++ [.set .slot scratch]
  | .ret _ e => do return (← expr ctx e) ++ [.ret]
  | .while _ c body => do
    let cond ← expr ctx c
    let body ← stmts ctx (n + 1) body
    let pass := cond ++ [.const 1, .op .xor, .brIf (breakLabel n)] ++ body ++ [.br (loopLabel n)]
    return [.block (breakLabel n) [.loop (loopLabel n) pass]]
  | .cond _ c body clauses otherwise => do
    let cond ← expr ctx c
    let thenArm ← stmts ctx n body
    let next := n + loopsIn body
    let elseArm ← elifs ctx next (stmts ctx (next + loopsInElifs clauses) otherwise) clauses
    return cond ++ [.cond thenArm elseArm]
  | .unknown span => fault span .statement

def stmts (ctx : Context) (n : Nat) : List Stmt → Lower (List Instr)
  | [] => .ok []
  | s :: rest => do
    let first ← stmt ctx n s
    return first ++ (← stmts ctx (n + loops s) rest)

/-- The code of an `else` arm: each `elif` clause is a conditional in the `else` arm of the one
before, and `last` is the code of the `else` clause. -/
def elifs (ctx : Context) (n : Nat) (last : Lower (List Instr)) : List Elif → Lower (List Instr)
  | [] => last
  | .mk _ c body :: rest => do
    let cond ← expr ctx c
    let thenArm ← stmts ctx n body
    let elseArm ← elifs ctx (n + loopsIn body) last rest
    return cond ++ [.cond thenArm elseArm]

end

/-- Initial values are set in the order of declaration, before the body runs. -/
def initCode (v : VarDecl) : List Instr := [.const v.init.encode, .set .slot v.name]

def funcDef (ctx : Context) (f : FuncDef) : Lower (Func Instr) := do
  let ctx := { ctx with slots := f.params.map (·.name) ++ f.locals.map (·.name) }
  let body ← stmts ctx 0 f.body
  return {
    name := f.name, exportName := "", params := f.params.map (·.name), result := true
    locals := scratch :: f.locals.map (·.name)
    body := f.locals.flatMap initCode ++ body ++ [.const (defaultValue f.returns)] }

def funcDefs (ctx : Context) : List FuncDef → Lower (List (Func Instr))
  | [] => .ok []
  | f :: rest => do
    let first ← funcDef ctx f
    return first :: (← funcDefs ctx rest)

def start (ctx : Context) (body : List Stmt) : Lower (Func Instr) := do
  let code ← stmts ctx 0 body
  return {
    name := "", exportName := Builtin.startName, params := [], result := hasResult body
    locals := [scratch]
    body := code ++ (if hasResult body then [.get .slot scratch] else []) }

end StackCode

def Program.toStackCode (mode : Arithmetic) (p : Program) :
    Except (Stop GenerateProblem) (StackCode.Module StackCode.Instr) := do
  let ctx : StackCode.Context := ⟨mode, p.vars.map (·.name), []⟩
  let funcs ← StackCode.funcDefs ctx p.funcs
  let start ← StackCode.start ctx p.stmts
  return ⟨p.vars.map fun v => (v.name, v.init.encode), funcs, some start⟩

end WordScript
