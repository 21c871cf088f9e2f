import WordScript.Word

/-! Control-flow graphs: functions as blocks of instructions that branch to each other.

Values are words. Variables live in cells, which are global or belong to one activation of a
function; instructions load from them and store to them, and every result is given once. -/
namespace WordScript
namespace BlockGraph

/-- A value: a constant, the result of the instruction of a number, or the parameter at a place. -/
inductive Operand
  | const (value : Word)
  | result (id : Nat)
  | param (index : Nat)
deriving DecidableEq, Repr

/-- A cell: the one made by the instruction of a number, or a global. -/
inductive Cell
  | slot (id : Nat)
  | global (name : String)
deriving DecidableEq, Repr

/-- What a function is known by: a function of the program within its module only, a function of
the host and the start everywhere. -/
inductive Symbol
  | user (name : String)
  | outer (name : String)
deriving DecidableEq, Repr

/-- Instructions. The ones with a result carry its number first. -/
inductive Inst
  | alloca (id : Nat)
  | store (value : Operand) (cell : Cell)
  | load (id : Nat) (cell : Cell)
  | arith (id : Nat) (op : WordOp) (lhs rhs : Operand)
  /-- Yields one bit, which only `widen` and a branch take. -/
  | compare (id : Nat) (op : WordOp) (lhs rhs : Operand)
  | widen (id : Nat) (bit : Nat)
  | call (id : Nat) (callee : Symbol) (args : List Operand)
deriving DecidableEq, Repr

def Inst.result? : Inst → Option Nat
  | .store _ _ => none
  | .alloca id | .load id _ | .arith id _ _ _ | .compare id _ _ _ | .widen id _ | .call id _ _ =>
    some id

/-- How a block ends. -/
inductive Terminator
  | ret (value : Option Operand)
  | jump (target : Nat)
  | branch (bit : Nat) (thenBlock elseBlock : Nat)
deriving DecidableEq, Repr

/-- A block. The entry has the number zero. -/
structure Block where
  number : Nat
  insts : List Inst
  term : Option Terminator
deriving DecidableEq, Repr

/-- A function. One of the host has no blocks. -/
structure Func where
  symbol : Symbol
  params : List String
  result : Bool
  blocks : List Block
deriving DecidableEq, Repr

structure Module where
  globals : List (String × Word)
  funcs : List Func
deriving DecidableEq, Repr

end BlockGraph
end WordScript
