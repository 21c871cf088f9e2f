import WordScript.BlockGraph
import WordScript.Builtin
import WordScript.Diagnostic
import WordScript.Generation
import WordScript.Program

/-! Lowering a program to a control-flow graph.

Code is added to the current block. A statement that leaves it ended makes the statements after it
dead, and these are left out. -/
namespace WordScript
namespace BlockGraph

/-- The body of a function as far as it has been built. -/
structure Body where
  /-- The blocks in the order they were made in. -/
  blocks : List Block
  /-- The number of the block that code is added to. -/
  current : Nat
  /-- The number of blocks made after the entry, removed ones included. -/
  made : Nat
  /-- The number of results given so far. -/
  results : Nat
deriving DecidableEq, Repr

def Body.empty (results : Nat) : Body := ⟨[⟨0, [], none⟩], 0, 0, results⟩

abbrev Build := StateT Body (Except (Stop GenerateProblem))

def fault {α : Type} (span : Span) (problem : GenerateProblem) : Build α :=
  throw (.fault span problem)

def onCurrent (f : Block → Block) : Build Unit :=
  modify fun b => { b with blocks := b.blocks.map fun k => if k.number = b.current then f k else k }

def emit (i : Inst) : Build Unit := onCurrent fun k => { k with insts := k.insts ++ [i] }

def terminate (t : Terminator) : Build Unit := onCurrent fun k => { k with term := some t }

def emitResult (inst : Nat → Inst) : Build Nat := do
  let id := (← get).results
  modify fun b => { b with results := id + 1 }
  emit (inst id)
  return id

def newBlock : Build Nat := do
  let n := (← get).made + 1
  modify fun b => { b with made := n, blocks := b.blocks ++ [⟨n, [], none⟩] }
  return n

def removeBlock (n : Nat) : Build Unit :=
  modify fun b => { b with blocks := b.blocks.filter (·.number ≠ n) }

def enter (n : Nat) : Build Unit := modify fun b => { b with current := n }

def isOpen : Build Bool := do
  let b ← get
  return b.blocks.all fun k => k.number ≠ b.current || k.term.isNone

/-- What code generation depends on. -/
structure Context where
  mode : Arithmetic
  /-- The functions of the program. -/
  funcs : List String
  globals : List String
  /-- The cells of the parameters and variables of the function, the first of a name counts. -/
  slots : List (String × Nat)
  /-- The cell for the value of an expression statement, where it is kept. -/
  scratch : Option Nat

namespace Context

def cell (ctx : Context) (span : Span) (name : String) (scope : Scope) : Build Cell :=
  match scope, ctx.slots.lookup name with
  | .slot, some id => pure (.slot id)
  | .global, _ =>
    if ctx.globals.contains name then pure (.global name) else fault span (.noStorage name)
  | _, _ => fault span (.noStorage name)

/-- The function of a name: functions of the program hide those of the host. -/
def callee? (ctx : Context) (name : String) : Option Symbol :=
  if ctx.funcs.contains name then some (.user name)
  else if (Builtin.imports.lookup name).isSome then some (.outer name)
  else none

def callee (ctx : Context) (span : Span) (f : String) (args : List Expr) : Build Symbol := do
  let name ←
    if f = "print" then
      match args with
      | [] => throw .crash
      | arg :: _ =>
        match printer? arg.type with
        | some name => pure name
        | none => fault span (.unprintable arg.type)
    else pure f
  match ctx.callee? name with
  | some callee => return callee
  | none => fault span (.unknownFunction name)

end Context

def Operand.ofInt (n : Int) : Operand := .const (BitVec.ofInt 32 n)

/-- The code of an operation. A comparison yields a bit, which is widened to the word for its
truth value. -/
def binary (op : WordOp) (lhs rhs : Operand) : Build Operand := do
  if op.isComparison then
    let bit ← emitResult fun id => .compare id op lhs rhs
    return .result (← emitResult fun id => .widen id bit)
  else return .result (← emitResult fun id => .arith id op lhs rhs)

mutual

def expr (ctx : Context) : Expr → Build Operand
  | .literal l => return .ofInt l.encode
  | .name span _ n scope => do
    let cell ← ctx.cell span n scope
    return .result (← emitResult fun id => .load id cell)
  | .unary span _ op operand => do
    let v ← expr ctx operand
    match op with
    | .neg => return .result (← emitResult fun id => .arith id .mul v (.ofInt (-1)))
    | .not => return .result (← emitResult fun id => .arith id .xor v (.ofInt 1))
    | .other _ => fault span .expression
  | .binary span _ op lhs rhs => do
    let lhs ← expr ctx lhs
    let rhs ← expr ctx rhs
    match op.wordOp? ctx.mode with
    | some o => binary o lhs rhs
    | none => fault span .operator
  | .call span _ f args => do
    let values ← arguments ctx args
    let callee ← ctx.callee span f args
    return .result (← emitResult fun id => .call id callee values)
  | .unknown span _ => fault span .expression

def arguments (ctx : Context) : List Expr → Build (List Operand)
  | [] => return []
  | e :: rest => do
    let v ← expr ctx e
    return v :: (← arguments ctx rest)

end

def condition (ctx : Context) (c : Expr) : Build Nat := do
  let v ← expr ctx c
  emitResult fun id => .compare id .ne v (.ofInt 0)

/-- Ends the current block with a jump unless it is ended. Returns whether it jumps. -/
def jumpIfOpen (target : Nat) : Build Bool := do
  if ← isOpen then
    terminate (.jump target)
    return true
  else return false

/-- One branch of a conditional: `body` runs if the condition holds, and what follows goes where
it does not. Returns whether the branch reaches the exit. -/
def branch (ctx : Context) (exit : Nat) (c : Expr) (body : Build Unit) : Build Bool := do
  let thenBlock ← newBlock
  let elseBlock ← newBlock
  let bit ← condition ctx c
  terminate (.branch bit thenBlock elseBlock)
  enter thenBlock
  body
  let reached ← jumpIfOpen exit
  enter elseBlock
  return reached

mutual

def stmt (ctx : Context) : Stmt → Build Unit
  | .pass _ => pure ()
  | .assign span x scope e => do
    let cell ← ctx.cell span x scope
    let v ← expr ctx e
    emit (.store v cell)
  | .expr _ e => do
    let v ← expr ctx e
    match ctx.scratch with
    | some id => emit (.store v (.slot id))
    | none => pure ()
  | .ret _ e => do
    let v ← expr ctx e
    terminate (.ret (some v))
  | .while _ c body => do
    let header ← newBlock
    let inside ← newBlock
    let exit ← newBlock
    terminate (.jump header)
    enter header
    let bit ← condition ctx c
    terminate (.branch bit inside exit)
    enter inside
    stmts ctx body
    let _ ← jumpIfOpen header
    enter exit
  | .cond _ c body clauses otherwise => do
    let exit ← newBlock
    let first ← branch ctx exit c (stmts ctx body)
    let others ← elifs ctx exit clauses
    stmts ctx otherwise
    let last ← jumpIfOpen exit
    if first || others || last then enter exit else removeBlock exit
  | .unknown span => fault span .statement

/-- The code of statements, up to one that leaves the current block ended. -/
def stmts (ctx : Context) : List Stmt → Build Unit
  | [] => pure ()
  | s :: rest => do
    stmt ctx s
    if ← isOpen then stmts ctx rest

def elifs (ctx : Context) (exit : Nat) : List Elif → Build Bool
  | [] => return false
  | .mk _ c body :: rest => do
    let first ← branch ctx exit c (stmts ctx body)
    let others ← elifs ctx exit rest
    return first || others

end

def newSlot (v : Operand) : Build Nat := do
  let id ← emitResult .alloca
  emit (.store v (.slot id))
  return id

/-- Parameters can be assigned to, so each is copied into a cell. -/
def paramSlots (count : Nat) : Nat → List Param → Build (List (String × Nat))
  | _, [] => return []
  | i, p :: rest => do
    if count ≤ i then throw .crash
    let id ← newSlot (.param i)
    return (p.name, id) :: (← paramSlots count (i + 1) rest)

def localSlots : List VarDecl → Build (List (String × Nat))
  | [] => return []
  | v :: rest => do
    let id ← newSlot (.ofInt v.init.encode)
    return (v.name, id) :: (← localSlots rest)

/-- The body of a function that is declared with `count` parameters. -/
def funcBody (ctx : Context) (count : Nat) (f : FuncDef) : Build Unit := do
  let params ← paramSlots count 0 f.params
  let locals ← localSlots f.locals
  let slots := locals.reverse ++ params.reverse
  stmts { ctx with slots } f.body
  if ← isOpen then terminate (.ret (some (.ofInt (defaultValue f.returns))))

def startBody (ctx : Context) (body : List Stmt) : Build Unit := do
  let scratch ← newSlot (.ofInt 0)
  stmts { ctx with scratch := some scratch } body
  if hasResult body then
    let v ← emitResult fun id => .load id (.slot scratch)
    terminate (.ret (some (.result v)))
  else terminate (.ret none)

def build (results : Nat) (b : Build Unit) : Except (Stop GenerateProblem) Body := do
  let (_, body) ← b.run (Body.empty results)
  return body

def hostFuncs : List Func :=
  Builtin.imports.map fun (name, arity) => ⟨.outer name, List.replicate arity "", true, []⟩

/-- The parameters that a name is declared with: of several functions of the name the last
declaration stands. -/
def declaredParams (funcs : List FuncDef) (name : String) : List Param :=
  ((funcs.filter (·.name = name)).getLast?.map (·.params)).getD []

def resultsOf (name : String) (done : List (String × Body)) : Nat :=
  (((done.filter (·.1 = name)).getLast?).map (·.2.results)).getD 0

def bodies (ctx : Context) (all : List FuncDef) (done : List (String × Body)) :
    List FuncDef → Except (Stop GenerateProblem) (List (String × Body))
  | [] => .ok done
  | f :: rest => do
    let body ← build (resultsOf f.name done)
      (funcBody ctx (declaredParams all f.name).length f)
    bodies ctx all (done ++ [(f.name, body)]) rest

/-- The functions as declared. All bodies for a name belong to its last declaration. -/
def assemble (done : List (String × Body)) : List FuncDef → List Func
  | [] => []
  | f :: rest =>
    let blocks :=
      if rest.any (·.name = f.name) then []
      else (done.filter (·.1 = f.name)).flatMap (·.2.blocks)
    ⟨.user f.name, f.params.map (·.name), true, blocks⟩ :: assemble done rest

end BlockGraph

def Program.toBlockGraph (mode : Arithmetic) (p : Program) :
    Except (Stop GenerateProblem) BlockGraph.Module := do
  let ctx : BlockGraph.Context := ⟨mode, p.funcs.map (·.name), p.vars.map (·.name), [], none⟩
  let done ← BlockGraph.bodies ctx p.funcs [] p.funcs
  let start ← BlockGraph.build 0 (BlockGraph.startBody ctx p.stmts)
  return {
    globals := p.vars.map fun v => (v.name, BitVec.ofInt 32 v.init.encode)
    funcs := BlockGraph.hostFuncs ++ BlockGraph.assemble done p.funcs
      ++ [⟨.outer Builtin.startName, [], hasResult p.stmts, start.blocks⟩] }

end WordScript
