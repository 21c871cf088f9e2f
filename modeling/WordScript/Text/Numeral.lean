/-! Reading decimal integers. -/
namespace WordScript
namespace Numeral

def digit? (c : Char) : Option Nat :=
  if '0' ≤ c ∧ c ≤ '9' then some (c.toNat - '0'.toNat) else none

/-- The number written by digits, after the digits that gave `acc`. -/
def digits? (acc : Nat) : List Char → Option Nat
  | [] => some acc
  | c :: rest => do digits? (acc * 10 + (← digit? c)) rest

/-- A number without a sign: at least one digit and nothing else. -/
def nat? : List Char → Option Nat
  | [] => none
  | cs => digits? 0 cs

def int? : List Char → Option Int
  | '-' :: cs => (nat? cs).map fun n => -(n : Int)
  | '+' :: cs => (nat? cs).map (·)
  | cs => (nat? cs).map (·)

def int64? (cs : List Char) : Option Int :=
  match int? cs with
  | some n => if -9223372036854775808 ≤ n ∧ n < 9223372036854775808 then some n else none
  | none => none

end Numeral
end WordScript
