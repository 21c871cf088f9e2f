import WordScript.Text.Utf8

/-! String literals between quotation marks.

A literal stands for bytes: characters for their encoding, `\x` and octal escapes for one byte
each, `\u` and `\U` for the encoding of a character. -/
namespace WordScript
namespace Quoted

/-- How far an escape has been read. -/
inductive Mode
  | plain
  | backslash
  /-- Digits still to be read, the number so far, and whether it is one of a character. -/
  | hex (left value : Nat) (isChar : Bool)
  | octal (left value : Nat)
deriving DecidableEq, Repr

def hexDigit? (c : Char) : Option Nat :=
  if '0' ≤ c ∧ c ≤ '9' then some (c.toNat - '0'.toNat)
  else if 'a' ≤ c ∧ c ≤ 'f' then some (c.toNat - 'a'.toNat + 10)
  else if 'A' ≤ c ∧ c ≤ 'F' then some (c.toNat - 'A'.toNat + 10)
  else none

def octalDigit? (c : Char) : Option Nat :=
  if '0' ≤ c ∧ c ≤ '7' then some (c.toNat - '0'.toNat) else none

def letter? (c : Char) : Option UInt8 :=
  match c with
  | 'a' => some 7
  | 'b' => some 8
  | 'f' => some 12
  | 'n' => some 10
  | 'r' => some 13
  | 't' => some 9
  | 'v' => some 11
  | '\\' => some 92
  | '"' => some 34
  | _ => none

def byte? (n : Nat) : Option Bytes := if n < 256 then some [UInt8.ofNat n] else none

/-- The encoding of a character by its number: surrogates and numbers past the last character
have none. -/
def char? (n : Nat) : Option Bytes :=
  if n.isValidChar then some (String.utf8EncodeChar (Char.ofNat n)) else none

/-- Reads one character: the new mode and the bytes that are complete. -/
def step : Mode → Char → Option (Mode × Bytes)
  | .plain, c =>
    if c = '\\' then some (.backslash, [])
    else if c = '\n' ∨ c = '"' then none
    else some (.plain, String.utf8EncodeChar c)
  | .backslash, c =>
    if c = 'x' then some (.hex 2 0 false, [])
    else if c = 'u' then some (.hex 4 0 true, [])
    else if c = 'U' then some (.hex 8 0 true, [])
    else
      match letter? c, octalDigit? c with
      | some b, _ => some (.plain, [b])
      | none, some d => some (.octal 2 d, [])
      | none, none => none
  | .hex left value isChar, c => do
    let value := value * 16 + (← hexDigit? c)
    if 1 < left then return (.hex (left - 1) value isChar, [])
    else return (.plain, ← if isChar then char? value else byte? value)
  | .octal left value, c => do
    let value := value * 8 + (← octalDigit? c)
    if 1 < left then return (.octal (left - 1) value, []) else return (.plain, ← byte? value)

def contents? : Mode → List Char → Option Bytes
  | .plain, [] => some []
  | _, [] => none
  | mode, c :: rest => do
    let (mode, bytes) ← step mode c
    return bytes ++ (← contents? mode rest)

def decode? (literal : Bytes) : Option Bytes :=
  match literal with
  | 34 :: rest =>
    if rest.getLast? = some 34 then
      contents? .plain ((Utf8.scalars rest.dropLast).map (·.char))
    else none
  | _ => none

def hexChar (n : Nat) : Char := "0123456789abcdef".toList.getD n '0'

def encodeChar (c : Char) : List Char :=
  match c with
  | '\x07' => ['\\', 'a']
  | '\x08' => ['\\', 'b']
  | '\x0c' => ['\\', 'f']
  | '\n' => ['\\', 'n']
  | '\r' => ['\\', 'r']
  | '\t' => ['\\', 't']
  | '\x0b' => ['\\', 'v']
  | '\\' => ['\\', '\\']
  | '"' => ['\\', '"']
  | c =>
    if c.toNat < 32 ∨ c.toNat = 127 then
      ['\\', 'x', hexChar (c.toNat / 16), hexChar (c.toNat % 16)]
    else [c]

def encode (text : String) : List Char := '"' :: text.toList.flatMap encodeChar ++ ['"']

end Quoted
end WordScript
