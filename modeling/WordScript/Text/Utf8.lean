/-! Byte strings and their reading as Unicode text.
A byte that starts no well-formed sequence is read alone, as U+FFFD. -/
namespace WordScript

/-- Sources, module texts and file contents are byte strings. -/
abbrev Bytes := List UInt8

namespace Utf8

/-- A character together with the number of bytes it was read from. -/
structure Scalar where
  char : Char
  width : Nat
deriving DecidableEq, Repr

def replacement : Char := '�'

def isTail (b : UInt8) : Bool := 0x80 ≤ b && b ≤ 0xBF

/-- The second byte of a longer sequence is bounded by the first one: this keeps out overlong
forms, surrogates and numbers past U+10FFFF. -/
def isSecond (a b : UInt8) : Bool :=
  if a = 0xE0 then 0xA0 ≤ b && b ≤ 0xBF
  else if a = 0xED then 0x80 ≤ b && b ≤ 0x9F
  else if a = 0xF0 then 0x90 ≤ b && b ≤ 0xBF
  else if a = 0xF4 then 0x80 ≤ b && b ≤ 0x8F
  else isTail b

def lowBits (n : Nat) (b : UInt8) : Nat := b.toNat % Nat.pow 2 n

def first (a : UInt8) (rest : Bytes) : Scalar :=
  if a < 0x80 then ⟨Char.ofNat a.toNat, 1⟩
  else if 0xC2 ≤ a && a ≤ 0xDF then
    match rest with
    | b :: _ =>
      if isTail b then ⟨Char.ofNat (lowBits 5 a * 64 + lowBits 6 b), 2⟩ else ⟨replacement, 1⟩
    | [] => ⟨replacement, 1⟩
  else if 0xE0 ≤ a && a ≤ 0xEF then
    match rest with
    | b :: c :: _ =>
      if isSecond a b && isTail c then
        ⟨Char.ofNat ((lowBits 4 a * 64 + lowBits 6 b) * 64 + lowBits 6 c), 3⟩
      else ⟨replacement, 1⟩
    | _ => ⟨replacement, 1⟩
  else if 0xF0 ≤ a && a ≤ 0xF4 then
    match rest with
    | b :: c :: d :: _ =>
      if isSecond a b && isTail c && isTail d then
        ⟨Char.ofNat (((lowBits 3 a * 64 + lowBits 6 b) * 64 + lowBits 6 c) * 64 + lowBits 6 d), 4⟩
      else ⟨replacement, 1⟩
    | _ => ⟨replacement, 1⟩
  else ⟨replacement, 1⟩

def scalarsAfter : (skip : Nat) → Bytes → List Scalar
  | _, [] => []
  | 0, a :: rest => first a rest :: scalarsAfter ((first a rest).width - 1) rest
  | n + 1, _ :: rest => scalarsAfter n rest

def scalars (bytes : Bytes) : List Scalar := scalarsAfter 0 bytes

def decode (bytes : Bytes) : String := String.ofList ((scalars bytes).map (·.char))

def encode (text : String) : Bytes := text.toList.flatMap String.utf8EncodeChar

theorem first_width_pos (a : UInt8) (rest : Bytes) : 0 < (first a rest).width := by
  unfold first
  repeat' split
  all_goals simp

theorem scalarsAfter_eq_drop (skip : Nat) (bytes : Bytes) :
    scalarsAfter skip bytes = scalars (bytes.drop skip) := by
  induction bytes generalizing skip with
  | nil => cases skip <;> rfl
  | cons a rest ih =>
    cases skip with
    | zero => rfl
    | succ n => simpa [scalarsAfter] using ih n

theorem scalars_cons (a : UInt8) (rest : Bytes) :
    scalars (a :: rest) = first a rest :: scalars (rest.drop ((first a rest).width - 1)) := by
  rw [scalars, scalarsAfter, scalarsAfter_eq_drop]

end Utf8
end WordScript
