import WordScript.Builtin
import WordScript.Machine.Image

/-! The functions that the host lends to a module: printing and some arithmetic. -/
namespace WordScript

namespace Word

/-- One round for each of the lowest `bits` binary digits of `e`, from the lowest on:
`raise bits r b e` is `r * b ^ e` if `e` has no more digits. -/
def raise : (bits : Nat) → (result base : Word) → (e : Nat) → Word
  | 0, r, _, _ => r
  | n + 1, r, b, e => raise n (if e % 2 = 1 then r * b else r) (b * b) (e / 2)

/-- A power, modulo 2 ^ 32. With a negative exponent it is the integer part of the fraction, and
zero for base zero. -/
def power (base e : Word) : Word :=
  if e.slt 0 then
    if base = 1 then 1
    else if base = -1 then if e.toNat % 2 = 0 then 1 else -1
    else 0
  else raise 32 1 base e.toNat

end Word

namespace Machine

inductive HostFunc
  | printNum | printBool | printNone | abs | max | min | pow
deriving DecidableEq, Repr

/-- What a host function does: it may print a line, and it returns a word. -/
structure Reply where
  line : Option String
  value : Word
deriving DecidableEq, Repr

namespace HostFunc

def names : List (Bytes × HostFunc) := [
  (keyword "print", .printNum), (keyword "print_num", .printNum),
  (keyword "print_bool", .printBool), (keyword "print_none", .printNone),
  (keyword "abs", .abs), (keyword "max", .max), (keyword "min", .min), (keyword "pow", .pow)]

def find? (i : Import) : Option HostFunc :=
  if i.source = keyword Builtin.source then names.lookup i.name else none

def reads : HostFunc → Nat
  | .max | .min | .pow => 2
  | _ => 1

/-- Calls a function. Arguments beyond those it reads are ignored; too few give nothing. The
printing functions return their argument. -/
def reply? : HostFunc → List Word → Option Reply
  | .printNum, a :: _ => some ⟨some (toString a.toInt), a⟩
  | .printBool, a :: _ => some ⟨some (if a = 0 then "False" else "True"), a⟩
  | .printNone, a :: _ => some ⟨some "None", a⟩
  | .abs, a :: _ => some ⟨none, if a.slt 0 then -a else a⟩
  | .max, a :: b :: _ => some ⟨none, if b.slt a then a else b⟩
  | .min, a :: b :: _ => some ⟨none, if a.slt b then a else b⟩
  | .pow, a :: b :: _ => some ⟨none, Word.power a b⟩
  | _, _ => none

theorem reply?_isSome (f : HostFunc) (args : List Word) :
    (f.reply? args).isSome = decide (f.reads ≤ args.length) := by
  rcases args with _ | ⟨a, _ | ⟨b, rest⟩⟩ <;> cases f <;> simp [reply?, reads]

end HostFunc
end Machine
end WordScript
