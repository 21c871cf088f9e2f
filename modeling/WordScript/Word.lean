/-! 32-bit words: the values of a running program, and the operations on two of them. -/
namespace WordScript

abbrev Word := BitVec 32

/-- How division, remainder and order read a word. -/
inductive Arithmetic
  | signed | unsigned
deriving DecidableEq, Repr

def Arithmetic.ofName? : String → Option Arithmetic
  | "" | "signed" => some .signed
  | "unsigned" => some .unsigned
  | _ => none

namespace Word

/-- The encoding of `None`: one past the largest integer literal. -/
def noneCode : Int := 2147483648

def ofBool (b : Bool) : Word := if b then 1 else 0

end Word

/-- An operation on two words. -/
inductive WordOp
  | add | sub | mul | and | or | xor
  | div (mode : Arithmetic) | rem (mode : Arithmetic)
  | eq | ne
  | lt (mode : Arithmetic) | le (mode : Arithmetic) | gt (mode : Arithmetic) | ge (mode : Arithmetic)
deriving DecidableEq, Repr

/-- Why an operation has no result. -/
inductive ArithFault
  | divideByZero | overflow
deriving DecidableEq, Repr

def ArithFault.message : ArithFault → String
  | .divideByZero => "integer divide by zero"
  | .overflow => "integer overflow"

namespace WordOp

def all : List WordOp := [
  .add, .sub, .mul, .and, .or, .xor, .div .signed, .div .unsigned, .rem .signed, .rem .unsigned,
  .eq, .ne, .lt .signed, .le .signed, .gt .signed, .ge .signed,
  .lt .unsigned, .le .unsigned, .gt .unsigned, .ge .unsigned]

def modeSuffix : Arithmetic → String
  | .signed => "_s"
  | .unsigned => "_u"

def name : WordOp → String
  | .add => "i32.add"
  | .sub => "i32.sub"
  | .mul => "i32.mul"
  | .and => "i32.and"
  | .or => "i32.or"
  | .xor => "i32.xor"
  | .div m => "i32.div" ++ modeSuffix m
  | .rem m => "i32.rem" ++ modeSuffix m
  | .eq => "i32.eq"
  | .ne => "i32.ne"
  | .lt m => "i32.lt" ++ modeSuffix m
  | .le m => "i32.le" ++ modeSuffix m
  | .gt m => "i32.gt" ++ modeSuffix m
  | .ge m => "i32.ge" ++ modeSuffix m

def ofName? (name : String) : Option WordOp := all.find? (·.name == name)

def isComparison : WordOp → Bool
  | .eq | .ne | .lt _ | .le _ | .gt _ | .ge _ => true
  | _ => false

def below : Arithmetic → Word → Word → Bool
  | .signed, a, b => a.slt b
  | .unsigned, a, b => a.ult b

/-- Sums, differences and products wrap around. Division truncates toward zero, and the
remainder has the sign of the dividend. -/
def eval : WordOp → Word → Word → Except ArithFault Word
  | .add, a, b => .ok (a + b)
  | .sub, a, b => .ok (a - b)
  | .mul, a, b => .ok (a * b)
  | .and, a, b => .ok (a &&& b)
  | .or, a, b => .ok (a ||| b)
  | .xor, a, b => .ok (a ^^^ b)
  | .div .signed, a, b =>
    if b = 0 then .error .divideByZero
    else if a = BitVec.intMin 32 ∧ b = -1 then .error .overflow
    else .ok (a.sdiv b)
  | .div .unsigned, a, b => if b = 0 then .error .divideByZero else .ok (a / b)
  | .rem .signed, a, b =>
    if b = 0 then .error .divideByZero
    else if b = -1 then .ok 0
    else .ok (a.srem b)
  | .rem .unsigned, a, b => if b = 0 then .error .divideByZero else .ok (a % b)
  | .eq, a, b => .ok (Word.ofBool (a == b))
  | .ne, a, b => .ok (Word.ofBool (a != b))
  | .lt m, a, b => .ok (Word.ofBool (below m a b))
  | .le m, a, b => .ok (Word.ofBool (!below m b a))
  | .gt m, a, b => .ok (Word.ofBool (below m b a))
  | .ge m, a, b => .ok (Word.ofBool (!below m a b))

end WordOp
end WordScript
