import WordScript.Machine.Host

/-! Executing functions.

Instructions are S-expressions. Operands written inside an instruction run before it; all values
pass through one stack, which a function shares with its callers. Whatever is wrong with an
instruction shows only when it runs. -/
namespace WordScript
namespace Machine

/-- The value stack. Popping leaves a value in its slot, so that cutting the stack to a height
above its top brings the slots in between back. -/
structure Stack where
  /-- The values, top first. -/
  live : List Word
  /-- The slots above the top, lowest first. -/
  stale : List Word
deriving DecidableEq, Repr

namespace Stack

def empty : Stack := ⟨[], []⟩

def height (s : Stack) : Nat := s.live.length

def push (s : Stack) (v : Word) : Stack := ⟨v :: s.live, s.stale.tail⟩

def pop? (s : Stack) : Option (Word × Stack) :=
  match s.live with
  | [] => none
  | v :: rest => some (v, ⟨rest, v :: s.stale⟩)

/-- Cuts the stack to a height; there is none above the highest slot ever filled. -/
def cut? (s : Stack) (height : Nat) : Option Stack :=
  let top := s.live.take (s.height - height)
  let back := s.stale.take (height - s.height)
  if back.length = height - s.height then
    some ⟨back.reverse ++ s.live.drop (s.height - height),
      top.reverse ++ s.stale.drop (height - s.height)⟩
  else none

/-- Pops values and returns them in the order they were pushed in. -/
def popMany? (s : Stack) (n : Nat) : Option (List Word × Stack) :=
  if n ≤ s.height then
    some ((s.live.take n).reverse, ⟨s.live.drop n, (s.live.take n).reverse ++ s.stale⟩)
  else none

end Stack

/-- Why execution cannot go on. -/
inductive Trap
  | callStack
  | unknownLabel (label : Bytes)
  | noValue (function : Bytes)
  | form (s : Sexpr)
  | instruction (op : Bytes)
  | unreachable
  | underflow
  | immediates (op : Bytes) (count : Nat)
  | unknownFunction (name : Bytes)
  | unknownLocal (name : Bytes)
  | unknownGlobal (name : Bytes)
  | immutable (name : Bytes)
  | constant (text : Bytes)
  | arith (fault : ArithFault)
  | cancelled

def Trap.message : Trap → String
  | .callStack => "call stack exhausted"
  | .unknownLabel l => "unknown label " ++ Utf8.decode l
  | .noValue f => "function " ++ Utf8.decode f ++ " returned without a value"
  | .form s => "unsupported instruction: " ++ Utf8.decode s.print
  | .instruction op => "unsupported instruction: " ++ Utf8.decode op
  | .unreachable => "unreachable executed"
  | .underflow => "value stack underflow"
  | .immediates op n =>
    "`" ++ Utf8.decode op ++ "` expects 1 immediate, got " ++ toString n
  | .unknownFunction f => "unknown function " ++ Utf8.decode f
  | .unknownLocal x => "unknown local " ++ Utf8.decode x
  | .unknownGlobal x => "unknown global " ++ Utf8.decode x
  | .immutable x => "global " ++ Utf8.decode x ++ " is immutable"
  | .constant t => constantMessage t
  | .arith fault => fault.message
  | .cancelled => "execution cancelled"

/-- How execution ends other than by running to its end. `crash` stands for what no module should
bring about: a host function without its arguments, or a stack cut above its slots. -/
inductive Halt
  | trap (t : Trap)
  | crash
  | outOfFuel

def Halt.message : Halt → String
  | .trap t => "trap: " ++ t.message
  | .crash => "crash"
  | .outOfFuel => "out of fuel"

/-- How control leaves an instruction. -/
inductive Control
  | next
  | branch (label : Bytes)
  | ret
deriving DecidableEq, Repr

/-- What execution changes. -/
structure State where
  globals : List Global
  stack : Stack
  /-- The slots of the running function. Of several of one name the first counts. -/
  locals : List (Bytes × Word)
  /-- The printed lines, last first. -/
  printed : List String
  /-- How often it was asked whether to go on. -/
  checks : Nat

/-- What execution depends on. -/
structure Env where
  funcs : List (Func HostFunc)
  /-- How often the answer is to go on. -/
  budget : Option Nat

abbrev Exec := ExceptT Halt (StateM State)

def stop {α : Type} (t : Trap) : Exec α := throw (.trap t)

def push (v : Word) : Exec Unit := modify fun s => { s with stack := s.stack.push v }

def pop : Exec Word := do
  match (← get).stack.pop? with
  | some (v, stack) =>
    modify fun s => { s with stack }
    return v
  | none => stop .underflow

def popMany (n : Nat) : Exec (List Word) := do
  match (← get).stack.popMany? n with
  | some (vs, stack) =>
    modify fun s => { s with stack }
    return vs
  | none => stop .underflow

def height : Exec Nat := return (← get).stack.height

def cut (height : Nat) : Exec Unit := do
  match (← get).stack.cut? height with
  | some stack => modify fun s => { s with stack }
  | none => throw .crash

def check (env : Env) : Exec Unit := do
  match env.budget with
  | some n => if n ≤ (← get).checks then stop .cancelled
  | none => pure ()
  modify fun s => { s with checks := s.checks + 1 }

def immediate (op : Bytes) : List Bytes → Exec Bytes
  | [i] => pure i
  | is => stop (.immediates op is.length)

def getLocal (name : Bytes) : Exec Word := do
  match (← get).locals.lookup name with
  | some v => return v
  | none => stop (.unknownLocal name)

def setSlot (name : Bytes) (v : Word) : List (Bytes × Word) → List (Bytes × Word)
  | [] => []
  | (n, w) :: rest => if n == name then (n, v) :: rest else (n, w) :: setSlot name v rest

def setLocal (name : Bytes) (v : Word) : Exec Unit :=
  modify fun s => { s with locals := setSlot name v s.locals }

def getGlobal (name : Bytes) : Exec Global := do
  match (← get).globals.find? (·.name == name) with
  | some g => return g
  | none => stop (.unknownGlobal name)

def setGlobal (name : Bytes) (v : Word) : Exec Unit :=
  modify fun s =>
    { s with globals := s.globals.map fun g => if g.name == name then { g with value := v } else g }

/-- The instructions that run nothing else. -/
inductive Simple
  | nop | unreachable | drop | ret | br | brIf | const
  | localGet | localSet | localTee | globalGet | globalSet
  | eqz
  | op (op : WordOp)
deriving DecidableEq, Repr

inductive Op
  | block | loop | cond | call
  | simple (s : Simple)
deriving DecidableEq, Repr

def Op.names : List (Bytes × Op) := [
  (keyword "local.get", .simple .localGet), (keyword "local.set", .simple .localSet),
  (keyword "i32.const", .simple .const),
  (keyword "block", .block), (keyword "loop", .loop), (keyword "if", .cond), (keyword "call", .call),
  (keyword "nop", .simple .nop), (keyword "unreachable", .simple .unreachable),
  (keyword "drop", .simple .drop), (keyword "return", .simple .ret), (keyword "br", .simple .br),
  (keyword "br_if", .simple .brIf), (keyword "local.tee", .simple .localTee),
  (keyword "global.get", .simple .globalGet), (keyword "global.set", .simple .globalSet),
  (keyword "i32.eqz", .simple .eqz)]
  ++ WordOp.all.map fun o => (keyword o.name, .simple (.op o))

def Op.ofName? (name : Bytes) : Option Op := names.lookup name

def simple (op : Bytes) (imms : List Bytes) : Simple → Exec Control
  | .nop => return .next
  | .unreachable => stop .unreachable
  | .drop => do
    let _ ← pop
    return .next
  | .ret => return .ret
  | .br => return .branch (← immediate op imms)
  | .brIf => do
    let label ← immediate op imms
    return if (← pop) = 0 then .next else .branch label
  | .const => do
    let text ← immediate op imms
    match constant? text with
    | some v =>
      push v
      return .next
    | none => stop (.constant text)
  | .localGet => do
    push (← getLocal (← immediate op imms))
    return .next
  | .localSet => do
    let name ← immediate op imms
    let _ ← getLocal name
    setLocal name (← pop)
    return .next
  | .localTee => do
    let v ← pop
    let name ← immediate op imms
    let _ ← getLocal name
    setLocal name v
    push v
    return .next
  | .globalGet => do
    push (← getGlobal (← immediate op imms)).value
    return .next
  | .globalSet => do
    let name ← immediate op imms
    if (← getGlobal name).isMutable then
      setGlobal name (← pop)
      return .next
    else stop (.immutable name)
  | .eqz => do
    push (Word.ofBool ((← pop) == 0))
    return .next
  | .op o => do
    let rhs ← pop
    let lhs ← pop
    match o.eval lhs rhs with
    | .ok v =>
      push v
      return .next
    | .error fault => stop (.arith fault)

/-- The label of a structured instruction, and the other operands. -/
def splitLabel : List Sexpr → Option Bytes × List Sexpr
  | [] => (none, [])
  | s :: rest => if s.isName then (some s.text, rest) else (none, s :: rest)

def isArm (s : Sexpr) : Bool := s.head == keyword "then" || s.head == keyword "else"

/-- The instructions of an arm of a conditional; of several arms of a kind the last one counts. -/
def arm (kind : Bytes) (items : List Sexpr) : List Sexpr :=
  ((items.filter (·.head == kind)).getLast?.map Sexpr.operands).getD []

def maxDepth : Nat := 4096

def initialLocals (f : Func HostFunc) (locals : List Bytes) (args : List Word) :
    List (Bytes × Word) :=
  locals.map (·, 0) ++ (f.params.zip args).reverse

mutual

/-- Executes instructions one after the other, at a depth of nested calls. -/
def seq (env : Env) : (fuel depth : Nat) → List Sexpr → Exec Control
  | 0, _, _ => throw .outOfFuel
  | _ + 1, _, [] => return .next
  | fuel + 1, depth, s :: rest => do
    match ← instr env fuel depth s with
    | .next => seq env fuel depth rest
    | c => return c

def instr (env : Env) : (fuel depth : Nat) → Sexpr → Exec Control
  | 0, _, _ => throw .outOfFuel
  | fuel + 1, depth, s => do
    if s.head.isEmpty then stop (.form s)
    match Op.ofName? s.head with
    | some .block =>
      let (label, body) := splitLabel s.operands
      passes env fuel depth false label (← height) body
    | some .loop =>
      let (label, body) := splitLabel s.operands
      passes env fuel depth true label (← height) body
    | some .cond =>
      let (label, items) := splitLabel s.operands
      match ← seq env fuel depth (items.filter fun i => !isArm i) with
      | .next =>
        let kind := if (← pop) = 0 then keyword "else" else keyword "then"
        let height ← height
        match ← seq env fuel depth (arm kind items) with
        | .branch l =>
          if label = some l then
            cut height
            return .next
          else return .branch l
        | c => return c
      | c => return c
    | op? =>
      match ← seq env fuel depth (s.operands.filter (·.isList)) with
      | .next =>
        let imms := (s.operands.filter fun i => !i.isList).map (·.text)
        match op? with
        | some (.simple op) => simple s.head imms op
        | some .call =>
          let name ← immediate s.head imms
          match env.funcs.find? (·.name == name) with
          | some f =>
            let v ← call env fuel depth f
            if f.result then push v
            return .next
          | none => stop (.unknownFunction name)
        | _ => stop (.instruction s.head)
      | c => return c

/-- Executes the body of a block or a loop. A branch to its label cuts the stack to the height it
had before; it leaves a block and starts a loop again. -/
def passes (env : Env) : (fuel depth : Nat) → (isLoop : Bool) → (label : Option Bytes) →
    (height : Nat) → List Sexpr → Exec Control
  | 0, _, _, _, _, _ => throw .outOfFuel
  | fuel + 1, depth, isLoop, label, height, body => do
    check env
    match ← seq env fuel depth body with
    | .branch l =>
      if label = some l then
        cut height
        if isLoop then passes env fuel depth isLoop label height body else return .next
      else return .branch l
    | c => return c

/-- Pops the arguments of a function and calls it. A function without a result yields zero. -/
def call (env : Env) : (fuel depth : Nat) → Func HostFunc → Exec Word
  | 0, _, _ => throw .outOfFuel
  | fuel + 1, depth, f => do
    let args ← popMany f.params.length
    match f.code with
    | .imported host =>
      match host.reply? args with
      | some reply =>
        modify fun s => { s with printed := reply.line.toList ++ s.printed }
        return if f.result then reply.value else 0
      | none => throw .crash
    | .defined locals body =>
      if maxDepth ≤ depth then stop .callStack
      let caller := (← get).locals
      modify fun s => { s with locals := initialLocals f locals args }
      let before ← height
      match ← seq env fuel (depth + 1) body with
      | .branch l => stop (.unknownLabel l)
      | _ =>
        let result ←
          if f.result then
            match (← get).stack.live with
            | v :: _ => if (← height) ≤ before then stop (.noValue f.name) else pure v
            | [] => stop (.noValue f.name)
          else pure 0
        cut before
        modify fun s => { s with locals := caller }
        return result

end

end Machine
end WordScript
