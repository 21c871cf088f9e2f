import WordScript.Builtin
import WordScript.Diagnostic
import WordScript.Program
import WordScript.Program.Returns

/-! Type checking.

Checking gives the same program with the type of every expression and the scope of every name
filled in. Whatever types and scopes stood in the program before are not looked at. All
signatures are declared before any body is checked, so functions may call each other in any
order. -/
namespace WordScript

/-- Why a program is ill-typed. -/
inductive TypeProblem
  | reservedFunction (name : String)
  | duplicateFunction (name : String)
  | duplicateParam (name function : String)
  | redeclared (name : String)
  | initializer (name : String) (declared given : Option Ty)
  | missingReturn (type : Option Ty) (function : String)
  | undeclaredTarget (name : String)
  | assigned (given target : Option Ty)
  | returnOutside
  | returned (given wanted : Option Ty)
  | condition (statement : String) (given : Option Ty)
  | unbound (name : String)
  | operand (op : String) (wanted given : Option Ty)
  | intOperands (op : String) (lhs rhs : Option Ty)
  | noneOperands (lhs rhs : Option Ty)
  | incomparable (op : String) (lhs rhs : Option Ty)
  | printArity (given : Nat)
  | unknownFunction (name : String)
  | callArity (name : String) (wanted given : Nat)
  | argument (index : Nat) (name : String) (wanted given : Option Ty)
deriving DecidableEq, Repr

def TypeProblem.message : TypeProblem → String
  | .reservedFunction n => "cannot define a function named `" ++ n ++ "`: the name is reserved"
  | .duplicateFunction n => "duplicate function: `" ++ n ++ "`"
  | .duplicateParam p f => "duplicate parameter `" ++ p ++ "` in function `" ++ f ++ "`"
  | .redeclared n => "variable `" ++ n ++ "` is already declared in this scope"
  | .initializer n declared given =>
    "cannot initialize `" ++ n ++ "` of type " ++ typeName declared ++ " with a value of type "
      ++ typeName given
  | .missingReturn t f => "not all paths return " ++ typeName t ++ " in function `" ++ f ++ "`"
  | .undeclaredTarget n => "cannot assign to undeclared variable `" ++ n ++ "`"
  | .assigned given target => "cannot assign " ++ typeName given ++ " to " ++ typeName target
  | .returnOutside => "cannot return outside of a function"
  | .returned given wanted =>
    "cannot return " ++ typeName given ++ " from a function returning " ++ typeName wanted
  | .condition what given => what ++ " condition must be bool, got " ++ typeName given
  | .unbound n => "unbound identifier: `" ++ n ++ "`"
  | .operand op wanted given =>
    "operator `" ++ op ++ "` expects " ++ typeName wanted ++ ", got " ++ typeName given
  | .intOperands op l r =>
    "operator `" ++ op ++ "` expects int operands, got " ++ typeName l ++ " and " ++ typeName r
  | .noneOperands l r =>
    "operator `is` expects None operands, got " ++ typeName l ++ " and " ++ typeName r
  | .incomparable op l r =>
    "operator `" ++ op ++ "` cannot compare " ++ typeName l ++ " and " ++ typeName r
  | .printArity given => "`print` expects 1 argument, got " ++ toString given
  | .unknownFunction f => "unknown function: `" ++ f ++ "`"
  | .callArity f wanted given =>
    "function `" ++ f ++ "` expects " ++ toString wanted ++ " " ++ plural "argument" wanted
      ++ ", got " ++ toString given
  | .argument i f wanted given =>
    "argument " ++ toString i ++ " of `" ++ f ++ "` must be " ++ typeName wanted ++ ", got "
      ++ typeName given

namespace Typing

structure Signature where
  params : List (Option Ty)
  returns : Option Ty
deriving DecidableEq, Repr

structure Binding where
  type : Option Ty
  scope : Scope
deriving DecidableEq, Repr

/-- The functions and variables in sight. A later binding stands before an earlier one and hides
it. Inside a function, `returns` is the type it returns. -/
structure Env where
  funcs : List (String × Signature)
  vars : List (String × Binding)
  returns : Option (Option Ty)
deriving DecidableEq, Repr

namespace Env

/-- The arithmetic functions of the host. `print` takes a value of any type and has no one
signature. -/
def initial : Env :=
  let unary : Signature := ⟨[some .int], some .int⟩
  let binary : Signature := ⟨[some .int, some .int], some .int⟩
  ⟨[("abs", unary), ("max", binary), ("min", binary), ("pow", binary)], [], none⟩

def func? (env : Env) (name : String) : Option Signature := env.funcs.lookup name

def var? (env : Env) (name : String) : Option Binding := env.vars.lookup name

def define (env : Env) (name : String) (type : Option Ty) (scope : Scope) : Env :=
  { env with vars := (name, ⟨type, scope⟩) :: env.vars }

/-- Whether a name is already taken in the scope it is to be defined in. -/
def taken (env : Env) (scope : Scope) (name : String) : Bool :=
  match env.var? name with
  | some b => scope = .global || b.scope = .slot
  | none => false

def enter (env : Env) (returns : Option Ty) : Env := { env with returns := some returns }

end Env

abbrev Check := Except (Stop TypeProblem)

def fault {α : Type} (span : Span) (problem : TypeProblem) : Check α := .error (.fault span problem)

def literalType : LiteralKind → Option Ty
  | .int => some .int
  | .isTrue | .isFalse => some .bool
  | .unit => some .unit
  | .other _ => none

def literal (l : Literal) : Literal := { l with type := literalType l.kind }

def unaryType : UnaryOp → Option Ty
  | .neg => some .int
  | .not => some .bool
  | .other _ => none

/-- The type of a binary operation on operands of the given types. -/
def binaryType (span : Span) (op : BinaryOp) (lhs rhs : Option Ty) : Check (Option Ty) :=
  match op.text? with
  | none => .error .crash
  | some text =>
    if op.isArith || op.isOrder then
      if lhs = some .int ∧ rhs = some .int then
        .ok (some (if op.isArith then .int else .bool))
      else fault span (.intOperands text lhs rhs)
    else if op = .is then
      if lhs = some .unit ∧ rhs = some .unit then .ok (some .bool)
      else fault span (.noneOperands lhs rhs)
    else if lhs = rhs then .ok (some .bool)
    else fault span (.incomparable text lhs rhs)

mutual

def expr (env : Env) : Expr → Check Expr
  | .literal l => .ok (.literal (literal l))
  | .name span _ n _ =>
    match env.var? n with
    | some b => .ok (.name span b.type n b.scope)
    | none => fault span (.unbound n)
  | .unary span _ op operand => do
    let operand ← expr env operand
    if operand.type = unaryType op then return .unary span (unaryType op) op operand
    else
      let text ← orCrash op.text?
      fault span (.operand text (unaryType op) operand.type)
  | .binary span _ op lhs rhs => do
    let lhs ← expr env lhs
    let rhs ← expr env rhs
    let type ← binaryType span op lhs.type rhs.type
    return .binary span type op lhs rhs
  | .call span _ f args => do
    if f = "print" then
      match args with
      | [arg] => return .call span (some .unit) f [← expr env arg]
      | _ => fault span (.printArity args.length)
    else
      match env.func? f with
      | none => fault span (.unknownFunction f)
      | some sig =>
        if args.length = sig.params.length then
          return .call span sig.returns f (← arguments env f 1 sig.params args)
        else fault span (.callArity f sig.params.length args.length)
  | .unknown span _ => .ok (.unknown span none)

/-- The arguments from the `index`-th on, against the types they must have. -/
def arguments (env : Env) (f : String) :
    (index : Nat) → List (Option Ty) → List Expr → Check (List Expr)
  | index, wanted :: params, e :: rest => do
    let arg ← expr env e
    if arg.type = wanted then return arg :: (← arguments env f (index + 1) params rest)
    else fault e.span (.argument index f wanted arg.type)
  | _, _, _ => .ok []

end

def condition (env : Env) (what : String) (e : Expr) : Check Expr := do
  let cond ← expr env e
  if cond.type = some .bool then return cond
  else fault e.span (.condition what cond.type)

mutual

def stmt (env : Env) : Stmt → Check Stmt
  | .pass span => .ok (.pass span)
  | .assign span n _ e => do
    match env.var? n with
    | none => fault span (.undeclaredTarget n)
    | some b =>
      let value ← expr env e
      if value.type = b.type then return .assign span n b.scope value
      else fault e.span (.assigned value.type b.type)
  | .expr span e => return .expr span (← expr env e)
  | .ret span e => do
    match env.returns with
    | none => fault span .returnOutside
    | some wanted =>
      let value ← expr env e
      if value.type = wanted then return .ret span value
      else fault e.span (.returned value.type wanted)
  | .while span c body => do
    let cond ← condition env "while" c
    return .while span cond (← stmts env body)
  | .cond span c body clauses otherwise => do
    let cond ← condition env "if" c
    let body ← stmts env body
    let clauses ← elifs env clauses
    return .cond span cond body clauses (← stmts env otherwise)
  | .unknown span => .ok (.unknown span)

def stmts (env : Env) : List Stmt → Check (List Stmt)
  | [] => .ok []
  | s :: rest => do
    let s ← stmt env s
    return s :: (← stmts env rest)

def elif (env : Env) : Elif → Check Elif
  | .mk span c body => do
    let cond ← condition env "elif" c
    return .mk span cond (← stmts env body)

def elifs (env : Env) : List Elif → Check (List Elif)
  | [] => .ok []
  | e :: rest => do
    let e ← elif env e
    return e :: (← elifs env rest)

end

def varDecl (env : Env) (scope : Scope) (v : VarDecl) : Check (VarDecl × Env) :=
  if env.taken scope v.name then fault v.span (.redeclared v.name)
  else
    let init := literal v.init
    if init.type = v.type then .ok ({ v with init }, env.define v.name v.type scope)
    else fault v.init.span (.initializer v.name v.type init.type)

def varDecls (env : Env) (scope : Scope) : List VarDecl → Check (List VarDecl × Env)
  | [] => .ok ([], env)
  | v :: rest => do
    let (v, env) ← varDecl env scope v
    let (vs, env) ← varDecls env scope rest
    return (v :: vs, env)

def params (env : Env) (f : String) : List Param → Check Env
  | [] => .ok env
  | p :: rest =>
    if env.taken .slot p.name then fault p.span (.duplicateParam p.name f)
    else params (env.define p.name p.type .slot) f rest

def funcDef (env : Env) (f : FuncDef) : Check FuncDef := do
  let env ← params (env.enter f.returns) f.name f.params
  let (locals, env) ← varDecls env .slot f.locals
  let body ← stmts env f.body
  if f.returns ≠ some .unit ∧ !Stmt.anyReturns f.body then
    fault f.span (.missingReturn f.returns f.name)
  else return { f with locals, body }

def funcDefs (env : Env) : List FuncDef → Check (List FuncDef)
  | [] => .ok []
  | f :: rest => do
    let f ← funcDef env f
    return f :: (← funcDefs env rest)

def signature (f : FuncDef) : Signature := ⟨f.params.map (·.type), f.returns⟩

def declare (env : Env) : List FuncDef → Check Env
  | [] => .ok env
  | f :: rest =>
    if Builtin.isReserved f.name then fault f.span (.reservedFunction f.name)
    else if (env.func? f.name).isSome then fault f.span (.duplicateFunction f.name)
    else declare { env with funcs := (f.name, signature f) :: env.funcs } rest

end Typing

def Program.check (p : Program) : Except (Stop TypeProblem) Program := do
  let env ← Typing.declare .initial p.funcs
  let (vars, env) ← Typing.varDecls env .global p.vars
  let funcs ← Typing.funcDefs env p.funcs
  return ⟨vars, funcs, ← Typing.stmts env p.stmts⟩

end WordScript
