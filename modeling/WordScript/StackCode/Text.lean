import WordScript.StackCode

/-! The text of modules, in the WebAssembly text format.

Instructions are written one to a line, and a nested body is indented by two more spaces with
its closing parenthesis on a line of its own. -/
namespace WordScript
namespace StackCode

def Place.word : Place → String
  | .global => "global"
  | .slot => "local"

def indented (depth : Nat) (text : String) : String :=
  String.join (List.replicate depth "  ") ++ text

mutual

def Instr.lines (depth : Nat) : Instr → List String
  | .nop => [indented depth "(nop)"]
  | .ret => [indented depth "(return)"]
  | .const v => [indented depth ("(i32.const " ++ toString v ++ ")")]
  | .get p x => [indented depth ("(" ++ p.word ++ ".get $" ++ x ++ ")")]
  | .set p x => [indented depth ("(" ++ p.word ++ ".set $" ++ x ++ ")")]
  | .op o => [indented depth ("(" ++ o.name ++ ")")]
  | .call f => [indented depth ("(call $" ++ f ++ ")")]
  | .br l => [indented depth ("(br $" ++ l ++ ")")]
  | .brIf l => [indented depth ("(br_if $" ++ l ++ ")")]
  | .block l body =>
    indented depth ("(block $" ++ l) :: Instr.linesOf (depth + 1) body ++ [indented depth ")"]
  | .loop l body =>
    indented depth ("(loop $" ++ l) :: Instr.linesOf (depth + 1) body ++ [indented depth ")"]
  | .cond thenArm elseArm =>
    let arm (word : String) (lines : List String) : List String :=
      indented (depth + 1) word :: lines ++ [indented (depth + 1) ")"]
    let elseLines := Instr.linesOf (depth + 2) elseArm
    indented depth "(if" :: arm "(then" (Instr.linesOf (depth + 2) thenArm)
      ++ (if elseArm.isEmpty then [] else arm "(else" elseLines) ++ [indented depth ")"]

def Instr.linesOf (depth : Nat) : List Instr → List String
  | [] => []
  | i :: rest => i.lines depth ++ Instr.linesOf depth rest

end

def importLine (f : String × Nat) : String :=
  "  (import \"" ++ Builtin.source ++ "\" \"" ++ f.1 ++ "\" (func $" ++ f.1
    ++ String.join (List.replicate f.2 " (param i32)") ++ " (result i32)))\n"

def globalLine (g : String × Int) : String :=
  "  (global $" ++ g.1 ++ " (mut i32) (i32.const " ++ toString g.2 ++ "))\n"

def Func.text (f : Func String) : String :=
  "  (func"
    ++ (if f.name = "" then "" else " $" ++ f.name)
    ++ (if f.exportName = "" then "" else " (export \"" ++ f.exportName ++ "\")")
    ++ String.join (f.params.map fun p => " (param $" ++ p ++ " i32)")
    ++ (if f.result then " (result i32)" else "")
    ++ "\n"
    ++ String.join (f.locals.map fun l => "    (local $" ++ l ++ " i32)\n")
    ++ String.join (f.body.map fun l => "    " ++ l ++ "\n")
    ++ "  )\n"

def Module.text (m : Module String) : String :=
  "(module\n"
    ++ String.join (Builtin.imports.map importLine)
    ++ String.join (m.globals.map globalLine)
    ++ String.join (m.funcs.map Func.text)
    ++ (m.start.map Func.text).getD ""
    ++ ")\n"

def Module.render (m : Module Instr) : String := (m.mapBody (Instr.linesOf 0)).text

end StackCode
end WordScript
