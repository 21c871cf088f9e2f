import WordScript.Builtin
import WordScript.Word

/-! Structured code for a stack machine, and the modules it is shipped in. -/
namespace WordScript
namespace StackCode

/-- Where a variable lives: in the module or in the activation of a function. -/
inductive Place
  | global | slot
deriving DecidableEq, Repr

inductive Instr
  | nop
  | ret
  | const (value : Int)
  | get (place : Place) (name : String)
  | set (place : Place) (name : String)
  | op (op : WordOp)
  | call (name : String)
  | br (label : String)
  | brIf (label : String)
  | block (label : String) (body : List Instr)
  | loop (label : String) (body : List Instr)
  /-- Pops a condition; without an `else` arm that arm is empty. -/
  | cond (thenArm elseArm : List Instr)
deriving Repr

/-- A function. `β` is what its body is made of: instructions, or lines of text. The names are
empty where there is none. -/
structure Func (β : Type) where
  name : String
  exportName : String
  params : List String
  result : Bool
  locals : List String
  body : List β

/-- A module: globals with their initial values, functions, and the function that runs the
top-level statements. -/
structure Module (β : Type) where
  globals : List (String × Int)
  funcs : List (Func β)
  start : Option (Func β)

def Func.mapBody {β γ : Type} (g : List β → List γ) (f : Func β) : Func γ :=
  { f with body := g f.body }

def Module.mapBody {β γ : Type} (g : List β → List γ) (m : Module β) : Module γ :=
  ⟨m.globals, m.funcs.map (·.mapBody g), m.start.map (·.mapBody g)⟩

end StackCode
end WordScript
