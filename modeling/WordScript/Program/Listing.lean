import WordScript.Program

/-! Listing a program as indented S-expressions.

After checking, each expression ends in `:type` and each name in the scope it was resolved to.
A tree with an operator that the language does not have cannot be listed. -/
namespace WordScript
namespace Listing

def scopeSuffix : Scope → String
  | .global => "@global"
  | .slot => "@local"
  | _ => ""

def typeSuffix : Option Ty → String
  | some t => ":" ++ t.name
  | none => ""

def literalText (l : Literal) : String :=
  match l.kind with
  | .int => toString l.value
  | .isTrue => "True"
  | .isFalse => "False"
  | .unit => "None"
  | .other _ => ""

def literal (l : Literal) : String := literalText l ++ typeSuffix l.type

mutual

def expr : Expr → Option String
  | .literal l => some (literal l)
  | .name _ t n s => some (n ++ scopeSuffix s ++ typeSuffix t)
  | .call _ t f args => do
    return "(call " ++ f ++ (← arguments args) ++ ")" ++ typeSuffix t
  | .binary _ t op lhs rhs => do
    return "(" ++ (← op.text?) ++ " " ++ (← expr lhs) ++ " " ++ (← expr rhs) ++ ")" ++ typeSuffix t
  | .unary _ t op operand => do
    return "(" ++ (← op.text?) ++ " " ++ (← expr operand) ++ ")" ++ typeSuffix t
  | .unknown _ t => some (typeSuffix t)

def arguments : List Expr → Option String
  | [] => some ""
  | e :: rest => do return " " ++ (← expr e) ++ (← arguments rest)

end

def line (level : Nat) (text : String) : String :=
  String.join (List.replicate level "  ") ++ text

/-- Closes the group that was opened first among these lines: the parenthesis goes to the end of
the last line. -/
def close : List String → List String
  | [] => []
  | [l] => [l ++ ")"]
  | l :: rest => l :: close rest

def orEmpty (level : Nat) (empty : Bool) (lines : List String) : List String :=
  if empty then [line level "()"] else lines

mutual

def stmt (level : Nat) : Stmt → Option (List String)
  | .pass _ => some [line level "(pass)"]
  | .assign _ n s e => do
    return [line level ("(assign " ++ n ++ scopeSuffix s ++ " " ++ (← expr e) ++ ")")]
  | .expr _ e => do return [line level ("(expr " ++ (← expr e) ++ ")")]
  | .ret _ e => do return [line level ("(return " ++ (← expr e) ++ ")")]
  | .while _ c body => do
    let head := line level ("(while " ++ (← expr c))
    let body ← orEmpty (level + 1) body.isEmpty <$> stmts (level + 1) body
    return close (head :: body)
  | .cond _ c body clauses otherwise => do
    let head := line level ("(if " ++ (← expr c))
    let body ← orEmpty (level + 1) body.isEmpty <$> stmts (level + 1) body
    let clauses ← elifs (level + 1) clauses
    let rest ← stmts (level + 2) otherwise
    let rest := if otherwise.isEmpty then [] else close (line (level + 1) "(else" :: rest)
    return close (head :: (body ++ clauses ++ rest))
  | .unknown _ => some []

def stmts (level : Nat) : List Stmt → Option (List String)
  | [] => some []
  | s :: rest => do return (← stmt level s) ++ (← stmts level rest)

def elif (level : Nat) : Elif → Option (List String)
  | .mk _ c body => do
    let head := line level ("(elif " ++ (← expr c))
    let body ← orEmpty (level + 1) body.isEmpty <$> stmts (level + 1) body
    return close (head :: body)

def elifs (level : Nat) : List Elif → Option (List String)
  | [] => some []
  | e :: rest => do return (← elif level e) ++ (← elifs level rest)

end

def block (level : Nat) (body : List Stmt) : Option (List String) :=
  orEmpty level body.isEmpty <$> stmts level body

def varDecl (v : VarDecl) : String :=
  "(var " ++ v.name ++ " " ++ typeName v.type ++ " " ++ literal v.init ++ ")"

def funcDef (f : FuncDef) : Option (List String) := do
  let params := " ".intercalate (f.params.map fun p => p.name ++ ":" ++ typeName p.type)
  let head := "(def " ++ f.name ++ " (" ++ params ++ ") " ++ typeName f.returns
  return close (head :: (f.locals.map (line 1 <| varDecl ·) ++ (← block 1 f.body)))

def funcDefs : List FuncDef → Option (List String)
  | [] => some []
  | f :: rest => do return (← funcDef f) ++ (← funcDefs rest)

end Listing

def Program.listing? (p : Program) : Option String := do
  let lines := p.vars.map Listing.varDecl ++ (← Listing.funcDefs p.funcs)
    ++ (← Listing.stmts 0 p.stmts)
  return String.join (lines.map (· ++ "\n"))

end WordScript
