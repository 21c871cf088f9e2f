import WordScript.Program

/-! Which statements return from the enclosing function on every path. -/
namespace WordScript

mutual

/-- An if statement returns when its body, the body of every `elif` and its `else` all do. A loop
may never run its body, so it is never said to return. -/
def Stmt.returns : Stmt → Bool
  | .ret _ _ => true
  | .cond _ _ body elifs otherwise =>
    Stmt.anyReturns body && Stmt.everyReturns elifs && Stmt.anyReturns otherwise
  | _ => false

def Stmt.anyReturns : List Stmt → Bool
  | [] => false
  | s :: rest => s.returns || Stmt.anyReturns rest

def Elif.returns : Elif → Bool
  | .mk _ _ body => Stmt.anyReturns body

def Stmt.everyReturns : List Elif → Bool
  | [] => true
  | e :: rest => e.returns && Stmt.everyReturns rest

end

end WordScript
