import WordScript.Typing

/-! What checking leaves behind in the program it was given.

A node that no pass knows is not copied: the checked program and the one it was made from share
it. Checking takes away its type, so that it loses it in both, even when checking stops further
on. The functions here give the program as it stands after the check: every unknown expression
that the check met is without a type. -/
namespace WordScript
namespace Typing

def passes {α : Type} : Check α → Bool
  | .ok _ => true
  | .error _ => false

/-- Whether an argument was checked and is of the type it must have. -/
def fits (wanted : Option Ty) : Check Expr → Bool
  | .ok arg => arg.type = wanted
  | .error _ => false

mutual

def sharedExpr (env : Env) : Expr → Expr
  | .unknown span _ => .unknown span none
  | .unary span t op operand => .unary span t op (sharedExpr env operand)
  | .binary span t op lhs rhs =>
    .binary span t op (sharedExpr env lhs) (if passes (expr env lhs) then sharedExpr env rhs else rhs)
  | .call span t f args =>
    if f = "print" then
      match args with
      | [arg] => .call span t f [sharedExpr env arg]
      | _ => .call span t f args
    else
      match env.func? f with
      | none => .call span t f args
      | some sig =>
        if args.length = sig.params.length then .call span t f (sharedArgs env sig.params args)
        else .call span t f args
  | e => e

def sharedArgs (env : Env) : List (Option Ty) → List Expr → List Expr
  | wanted :: params, e :: rest =>
    sharedExpr env e ::
      (if fits wanted (expr env e) then sharedArgs env params rest else rest)
  | _, args => args

end

mutual

def sharedStmt (env : Env) : Stmt → Stmt
  | .assign span n s e =>
    .assign span n s (if (env.var? n).isSome then sharedExpr env e else e)
  | .expr span e => .expr span (sharedExpr env e)
  | .ret span e => .ret span (if env.returns.isSome then sharedExpr env e else e)
  | .while span c body =>
    .while span (sharedExpr env c)
      (if passes (condition env "while" c) then sharedStmts env body else body)
  | .cond span c body clauses otherwise =>
    let inBody := passes (condition env "if" c)
    let inClauses := inBody && passes (stmts env body)
    let inRest := inClauses && passes (elifs env clauses)
    .cond span (sharedExpr env c) (if inBody then sharedStmts env body else body)
      (if inClauses then sharedElifs env clauses else clauses)
      (if inRest then sharedStmts env otherwise else otherwise)
  | s => s

def sharedStmts (env : Env) : List Stmt → List Stmt
  | [] => []
  | s :: rest => sharedStmt env s :: (if passes (stmt env s) then sharedStmts env rest else rest)

def sharedElif (env : Env) : Elif → Elif
  | .mk span c body =>
    .mk span (sharedExpr env c)
      (if passes (condition env "elif" c) then sharedStmts env body else body)

def sharedElifs (env : Env) : List Elif → List Elif
  | [] => []
  | e :: rest => sharedElif env e :: (if passes (elif env e) then sharedElifs env rest else rest)

end

def sharedFunc (env : Env) (f : FuncDef) : FuncDef :=
  match params (env.enter f.returns) f.name f.params >>= (varDecls · .slot f.locals) with
  | .ok (_, env) => { f with body := sharedStmts env f.body }
  | .error _ => f

def sharedFuncs (env : Env) : List FuncDef → List FuncDef
  | [] => []
  | f :: rest => sharedFunc env f :: (if passes (funcDef env f) then sharedFuncs env rest else rest)

end Typing

def Program.afterCheck (p : Program) : Program :=
  match Typing.declare .initial p.funcs >>= (Typing.varDecls · .global p.vars) with
  | .error _ => p
  | .ok (_, env) =>
    { p with
      funcs := Typing.sharedFuncs env p.funcs
      stmts :=
        if Typing.passes (Typing.funcDefs env p.funcs) then Typing.sharedStmts env p.stmts
        else p.stmts }

end WordScript
