import WordScript.Generation
import WordScript.Machine.Host

/-! The meaning of programs.

A checked program is evaluated directly, without code and without a value stack. All values are
words of 32 bits. Loops are the only part that may go on for ever, so the fuel counts the passes
of each loop; how deep calls may nest is part of the meaning, and calls recurse on that. -/
namespace WordScript
namespace Meaning

/-- Why a program is stopped. -/
inductive Trap
  | arith (fault : ArithFault)
  | callStack
deriving DecidableEq, Repr

def Trap.message : Trap → String
  | .arith fault => fault.message
  | .callStack => "call stack exhausted"

/-- How evaluation ends other than with a value. A checked program is never stuck: that stands
for a name without a value, a call of nothing, and nodes that no pass knows. -/
inductive Halt
  | trap (t : Trap)
  | stuck
  | outOfFuel
deriving DecidableEq, Repr

def Halt.message : Halt → String
  | .trap t => "trap: " ++ t.message
  | .stuck => "stuck"
  | .outOfFuel => "out of fuel"

/-- What evaluation changes. -/
structure State where
  globals : List (String × Word)
  /-- The parameters and variables of the running function. -/
  frame : List (String × Word)
  /-- The printed lines, last first. -/
  printed : List String

abbrev Eval := ExceptT Halt (StateM State)

def number : Arithmetic → Word → Int
  | .signed, a => a.toInt
  | .unsigned, a => a.toNat

def literal (l : Literal) : Word :=
  match l.kind with
  | .isTrue => 1
  | .isFalse => 0
  | .unit => BitVec.intMin 32
  | _ => BitVec.ofInt 32 l.value

/-- A quotient is cut toward zero. Only one is too large for its word. -/
def quotient (mode : Arithmetic) (a b : Word) : Except ArithFault Word :=
  if b = 0 then .error .divideByZero
  else if mode = .signed ∧ a.toInt = -2147483648 ∧ b.toInt = -1 then .error .overflow
  else .ok (BitVec.ofInt 32 ((number mode a).tdiv (number mode b)))

def remainder (mode : Arithmetic) (a b : Word) : Except ArithFault Word :=
  if b = 0 then .error .divideByZero
  else .ok (BitVec.ofInt 32 ((number mode a).tmod (number mode b)))

def fallible (result : Except ArithFault Word) : Eval Word :=
  match result with
  | .ok v => pure v
  | .error fault => throw (.trap (.arith fault))

def unary : UnaryOp → Word → Eval Word
  | .neg, a => return -a
  | .not, a => return a ^^^ 1
  | .other _, _ => throw .stuck

def binary (mode : Arithmetic) : BinaryOp → Word → Word → Eval Word
  | .add, a, b => return a + b
  | .sub, a, b => return a - b
  | .mul, a, b => return a * b
  | .floorDiv, a, b => fallible (quotient mode a b)
  | .mod, a, b => fallible (remainder mode a b)
  | .gt, a, b => return Word.ofBool (number mode b < number mode a)
  | .ge, a, b => return Word.ofBool (number mode b ≤ number mode a)
  | .lt, a, b => return Word.ofBool (number mode a < number mode b)
  | .le, a, b => return Word.ofBool (number mode a ≤ number mode b)
  | .eq, a, b | .is, a, b => return Word.ofBool (a = b)
  | .ne, a, b => return Word.ofBool (a ≠ b)
  | .other _, _, _ => throw .stuck

def assign (x : String) (v : Word) (values : List (String × Word)) : List (String × Word) :=
  values.map fun entry => if entry.1 = x then (x, v) else entry

/-- The value of a name. The frame hides the globals. -/
def State.value? (s : State) (x : String) : Option Word :=
  (s.frame.lookup x).or (s.globals.lookup x)

def State.update (s : State) (x : String) (v : Word) : State :=
  if (s.frame.lookup x).isSome then { s with frame := assign x v s.frame }
  else { s with globals := assign x v s.globals }

def read (x : String) : Eval Word := do
  match (← get).value? x with
  | some v => return v
  | none => throw .stuck

def write (x : String) (v : Word) : Eval Unit := do
  let _ ← read x
  modify fun s => s.update x v

/-- The line that prints a word as a value of a type. -/
def line : Ty → Word → String
  | .int, v => toString v.toInt
  | .bool, v => if v = 0 then "False" else "True"
  | .unit, _ => "None"

def print (type : Option Ty) (args : List Word) : Eval Word :=
  match type, args with
  | some type, [v] => do
    modify fun s => { s with printed := line type v :: s.printed }
    return v
  | _, _ => throw .stuck

def hostFunc? : String → Option Machine.HostFunc
  | "abs" => some .abs
  | "max" => some .max
  | "min" => some .min
  | "pow" => some .pow
  | _ => none

def hostCall (f : String) (args : List Word) : Eval Word :=
  match (hostFunc? f).bind (·.reply? args) with
  | some reply => return reply.value
  | none => throw .stuck

/-- How control leaves a statement. -/
inductive Flow
  | next
  | ret (v : Word)
deriving DecidableEq, Repr

def frameOf (f : FuncDef) (args : List Word) : List (String × Word) :=
  f.locals.map (fun v => (v.name, literal v.init)) ++ (f.params.map (·.name)).zip args

/-- What a function yields if control falls off its end. -/
def fallOff (f : FuncDef) : Word := if f.returns = some .unit then BitVec.intMin 32 else 0

/-- Runs the body of a function in a frame of its own. -/
def activation (f : FuncDef) (args : List Word) (body : Eval Flow) : Eval Word := do
  let caller := (← get).frame
  modify fun s => { s with frame := frameOf f args }
  let flow ← body
  modify fun s => { s with frame := caller }
  match flow with
  | .ret v => return v
  | .next => return fallOff f

/-- Repeats a body for as long as a condition holds. -/
def loop (cond : Eval Word) (body : Eval Flow) : (fuel : Nat) → Eval Flow
  | 0 => throw .outOfFuel
  | fuel + 1 => do
    if (← cond) = 0 then return .next
    else
      match ← body with
      | .next => loop cond body fuel
      | .ret v => return .ret v

def choose (cond : Eval Word) (yes no : Eval Flow) : Eval Flow := do
  if (← cond) = 0 then no else yes

section

variable (mode : Arithmetic) (call : String → List Word → Eval Word)

mutual

/-- The value of an expression. Operands and arguments are evaluated from left to right. -/
def expr : Expr → Eval Word
  | .literal l => return literal l
  | .name _ _ x _ => read x
  | .unary _ _ op e => do unary op (← expr e)
  | .binary _ _ op lhs rhs => do
    let a ← expr lhs
    let b ← expr rhs
    binary mode op a b
  | .call _ _ f args => do
    let vs ← arguments args
    if f = "print" then print (args.head?.bind Expr.type) vs else call f vs
  | .unknown _ _ => throw .stuck

def arguments : List Expr → Eval (List Word)
  | [] => return []
  | e :: rest => do
    let v ← expr e
    return v :: (← arguments rest)

end

variable (fuel : Nat)

mutual

def stmt : Stmt → Eval Flow
  | .pass _ => return .next
  | .assign _ x _ e => do
    write x (← expr mode call e)
    return .next
  | .expr _ e => do
    let _ ← expr mode call e
    return .next
  | .ret _ e => return .ret (← expr mode call e)
  | .while _ c body => loop (expr mode call c) (block body) fuel
  | .cond _ c body clauses otherwise =>
    choose (expr mode call c) (block body) (elifs (block otherwise) clauses)
  | .unknown _ => throw .stuck

def block : List Stmt → Eval Flow
  | [] => return .next
  | s :: rest => do
    match ← stmt s with
    | .next => block rest
    | .ret v => return .ret v

/-- The `elif` clauses of a conditional before its `else` clause. -/
def elifs (last : Eval Flow) : List Elif → Eval Flow
  | [] => last
  | .mk _ c body :: rest => choose (expr mode call c) (block body) (elifs last rest)

end

/-- The top-level statements. If the last one is an expression, its value is the result. -/
def topLevel : List Stmt → Eval (Option Word)
  | [] => return none
  | [.expr _ e] => return some (← expr mode call e)
  | s :: rest => do
    match ← stmt mode call fuel s with
    | .next => topLevel rest
    | .ret _ => throw .stuck

end

/-- The largest number of activations that are live at one time, the top level included. -/
def maxActivations : Nat := 4096

/-- Calls a function by its name. The functions of the program may nest `left` times more. -/
def call (p : Program) (mode : Arithmetic) (fuel : Nat) :
    (left : Nat) → String → List Word → Eval Word
  | 0, f, args =>
    match p.funcs.find? (·.name == f) with
    | some _ => throw (.trap .callStack)
    | none => hostCall f args
  | left + 1, f, args =>
    match p.funcs.find? (·.name == f) with
    | some d => activation d args (block mode (call p mode fuel left) fuel d.body)
    | none => hostCall f args

def initialState (p : Program) : State :=
  ⟨p.vars.map fun v => (v.name, literal v.init), [], []⟩

end Meaning

/-- Runs a program. Its top level is the first activation. -/
def Program.run (p : Program) (mode : Arithmetic) (fuel : Nat) :
    Except Meaning.Halt (Option Word) × Meaning.State :=
  (Meaning.topLevel mode (Meaning.call p mode fuel (Meaning.maxActivations - 1)) fuel p.stmts).run
    (Meaning.initialState p)

/-- What can be seen of a run that has ended: the result or a message, the printed lines, and the
last values of the globals. -/
structure Behaviour where
  outcome : Except String (Option Word)
  printed : List String
  global : String → Option Word

/-- What can be seen of a run; nothing if the fuel did not suffice. -/
def Program.behaviour? (p : Program) (mode : Arithmetic) (fuel : Nat) : Option Behaviour :=
  match p.run mode fuel with
  | (.ok v, s) => some ⟨.ok v, s.printed.reverse, fun x => s.globals.lookup x⟩
  | (.error .outOfFuel, _) => none
  | (.error h, s) => some ⟨.error h.message, s.printed.reverse, fun x => s.globals.lookup x⟩

end WordScript
