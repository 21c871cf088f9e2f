import WordScript.BlockGraph
import WordScript.Text.Utf8

/-! The text of control-flow graphs, in the assembly language of LLVM.

Results and parameters without a name are numbered within a function in the order they are
written in. -/
namespace WordScript
namespace BlockGraph

def isPlain (b : UInt8) : Bool :=
  (48 ≤ b && b ≤ 57) || (65 ≤ b && b ≤ 90) || (97 ≤ b && b ≤ 122)
    || b == 36 || b == 45 || b == 46 || b == 95

def hexDigit (n : Nat) : Char := "0123456789ABCDEF".toList.getD n '0'

def quotedByte (b : UInt8) : List Char :=
  if 32 ≤ b && b ≤ 126 && b != 34 && b != 92 then [Char.ofNat b.toNat]
  else ['\\', hexDigit (b.toNat / 16), hexDigit (b.toNat % 16)]

/-- A name as it is written. Quotation marks tell a name of digits from a number. -/
def nameText (name : String) : String :=
  let bytes := Utf8.encode name
  if bytes.all isPlain && !bytes.all (fun b => 48 ≤ b && b ≤ 57) then name
  else String.ofList ('"' :: bytes.flatMap quotedByte ++ ['"'])

def hexDigits (n : Nat) : List Char := (Nat.toDigits 16 n).map Char.toUpper

/-- Whether the hexadecimal form of a number repeats itself so much more than the decimal one that
it is easier to read: it has four digits or more, at most half of them different, and the share
of different digits is lower than among the decimal ones by more than a fifth. -/
def isHexReadable (n : Nat) : Bool :=
  let hex := hexDigits n
  let dec := Nat.toDigits 10 n
  let hexKinds := hex.eraseDups.length
  let decKinds := dec.eraseDups.length
  4 ≤ hex.length && 2 * hexKinds ≤ hex.length
    && 5 * hexKinds * dec.length + hex.length * dec.length < 5 * decKinds * hex.length

/-- A constant: a number with its sign, or a hexadecimal one that is easier to read. -/
def constText (w : Word) : String :=
  if 0 ≤ w.toInt && isHexReadable w.toNat then "u0x" ++ String.ofList (hexDigits w.toNat)
  else toString w.toInt

def Symbol.text : Symbol → String
  | .user name => "@" ++ nameText ("fn." ++ name)
  | .outer name => "@" ++ nameText name

def globalSymbol (name : String) : String := "@" ++ nameText ("var." ++ name)

def blockName (n : Nat) : String := if n = 0 then "bb.entry" else "bb." ++ toString n

def arithName : WordOp → String
  | .add => "add"
  | .sub => "sub"
  | .mul => "mul"
  | .and => "and"
  | .or => "or"
  | .xor => "xor"
  | .div .signed => "sdiv"
  | .div .unsigned => "udiv"
  | .rem .signed => "srem"
  | .rem .unsigned => "urem"
  | _ => ""

def orderLetter : Arithmetic → String
  | .signed => "s"
  | .unsigned => "u"

def compareName : WordOp → String
  | .eq => "eq"
  | .ne => "ne"
  | .lt m => orderLetter m ++ "lt"
  | .le m => orderLetter m ++ "le"
  | .gt m => orderLetter m ++ "gt"
  | .ge m => orderLetter m ++ "ge"
  | _ => ""

/-- The numbering of a function: its parameters as they are written, and its results in order. -/
structure Numbering where
  params : List String
  /-- The number of the first result. -/
  first : Nat
  results : List Nat

/-- Parameters as they are written; the first without a name has the number `n`. -/
def paramTexts (n : Nat) : List String → List String
  | [] => []
  | p :: rest =>
    if p = "" then ("%" ++ toString n) :: paramTexts (n + 1) rest
    else ("%" ++ nameText p) :: paramTexts n rest

def Func.numbering (f : Func) : Numbering where
  params := paramTexts 0 f.params
  first := (f.params.filter (· = "")).length
  results := f.blocks.flatMap fun b => b.insts.filterMap Inst.result?

namespace Numbering

def result (m : Numbering) (id : Nat) : String := "%" ++ toString (m.first + m.results.idxOf id)

def operand (m : Numbering) : Operand → String
  | .const w => constText w
  | .result id => m.result id
  | .param i => m.params.getD i ""

def cell (m : Numbering) : Cell → String
  | .slot id => m.result id
  | .global name => globalSymbol name

def inst (m : Numbering) : Inst → String
  | .alloca id => m.result id ++ " = alloca i32"
  | .store v c => "store i32 " ++ m.operand v ++ ", i32* " ++ m.cell c
  | .load id c => m.result id ++ " = load i32, i32* " ++ m.cell c
  | .arith id op a b =>
    m.result id ++ " = " ++ arithName op ++ " i32 " ++ m.operand a ++ ", " ++ m.operand b
  | .compare id op a b =>
    m.result id ++ " = icmp " ++ compareName op ++ " i32 " ++ m.operand a ++ ", " ++ m.operand b
  | .widen id bit => m.result id ++ " = zext i1 " ++ m.result bit ++ " to i32"
  | .call id callee args =>
    m.result id ++ " = call i32 " ++ callee.text ++ "("
      ++ ", ".intercalate (args.map fun a => "i32 " ++ m.operand a) ++ ")"

def terminator (m : Numbering) : Terminator → String
  | .ret (some v) => "ret i32 " ++ m.operand v
  | .ret none => "ret void"
  | .jump target => "br label %" ++ blockName target
  | .branch bit a b =>
    "br i1 " ++ m.result bit ++ ", label %" ++ blockName a ++ ", label %" ++ blockName b

def block (m : Numbering) (b : Block) : String :=
  blockName b.number ++ ":\n"
    ++ String.join (b.insts.map fun i => "\t" ++ m.inst i ++ "\n")
    ++ String.join (b.term.toList.map fun t => "\t" ++ m.terminator t ++ "\n")

end Numbering

def Func.text (f : Func) : String :=
  let m := f.numbering
  let linkage := match f.symbol with
    | .user _ => " internal"
    | .outer _ => ""
  let header := linkage ++ (if f.result then " i32 " else " void ") ++ f.symbol.text ++ "("
    ++ ", ".intercalate (m.params.map ("i32 " ++ ·)) ++ ")"
  if f.blocks.isEmpty then "declare" ++ header ++ "\n"
  else "define" ++ header ++ " \x7b\n" ++ "\n".intercalate (f.blocks.map m.block) ++ "\x7d\n"

/-- The text of a module: globals, then functions with blank lines between them. -/
def Module.render (m : Module) : String :=
  String.join (m.globals.map fun (n, v) => globalSymbol n ++ " = global i32 " ++ constText v ++ "\n")
    ++ (if m.globals.isEmpty then "" else "\n")
    ++ "\n".intercalate (m.funcs.map Func.text)

end BlockGraph
end WordScript
