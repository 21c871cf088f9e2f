/-! The functions that the host supplies to every program, and the one it calls. -/
namespace WordScript
namespace Builtin

def source : String := "imports"

/-- The function of a module that runs the top-level statements of its program. -/
def startName : String := "_start"

/-- The functions a module imports, in order, with the number of their parameters. -/
def imports : List (String × Nat) := [
  ("print", 1), ("print_num", 1), ("print_bool", 1), ("print_none", 1),
  ("abs", 1), ("max", 2), ("min", 2), ("pow", 2)]

/-- The functions a source may call without defining them. `print` stands for the three printing
functions: which one is meant follows from the type of its argument. -/
def callable : List (String × Nat) :=
  [("print", 1), ("abs", 1), ("max", 2), ("min", 2), ("pow", 2)]

def arity? (name : String) : Option Nat := callable.lookup name

/-- The names a source may not give to a function because printing needs them. -/
def isReserved (name : String) : Bool :=
  ["print", "print_num", "print_bool", "print_none"].contains name

end Builtin
end WordScript
