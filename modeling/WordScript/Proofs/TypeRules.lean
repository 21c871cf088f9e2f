import WordScript.Proofs.Shape

/-! Typing rules.

What it means for a program to be well typed, without an environment that is threaded through a
walk: names and functions are looked up in the declarations of the program itself, and types and
scopes that stand in a tree are not looked at. A place in a program is given by the program and
the function around it, or no function at the top level. -/
namespace WordScript
namespace Rules

variable {p : Program} {place : Option FuncDef} {span : Span} {t : Option Ty}

/-- The functions that can be called by name, with the types of their parameters and of their
result. `print` takes a value of any type and is not among them. -/
inductive Callable (p : Program) : String → List Ty → Ty → Prop
  | abs : Callable p "abs" [.int] .int
  | max : Callable p "max" [.int, .int] .int
  | min : Callable p "min" [.int, .int] .int
  | pow : Callable p "pow" [.int, .int] .int
  | user {f : FuncDef} {types : List Ty} {result : Ty} (mem : f ∈ p.funcs)
      (params : f.params.map (·.type) = types.map some) (returns : f.returns = some result) :
      Callable p f.name types result

/-- The names of the parameters and of the variables of a function. -/
def slotNames (f : FuncDef) : List String := f.params.map (·.name) ++ f.locals.map (·.name)

/-- The types of the names that a function declares. -/
inductive Declares (f : FuncDef) : String → Ty → Prop
  | param {a : Param} {type : Ty} (mem : a ∈ f.params) (declared : a.type = some type) :
      Declares f a.name type
  | var {v : VarDecl} {type : Ty} (mem : v ∈ f.locals) (declared : v.type = some type) :
      Declares f v.name type

/-- The types and scopes of names. What a function declares hides the globals. -/
inductive Bound (p : Program) (place : Option FuncDef) : String → Ty → Scope → Prop
  | slot {f : FuncDef} {x : String} {type : Ty} (within : place = some f)
      (declared : Declares f x type) : Bound p place x type .slot
  | global {v : VarDecl} {type : Ty} (mem : v ∈ p.vars) (declared : v.type = some type)
      (visible : ∀ f, place = some f → v.name ∉ slotNames f) : Bound p place v.name type .global

mutual

/-- The type of an expression. -/
inductive HasType (p : Program) (place : Option FuncDef) : Expr → Ty → Prop
  | int {l : Literal} (kind : l.kind = .int) : HasType p place (.literal l) .int
  | truth {l : Literal} (kind : l.kind = .isTrue ∨ l.kind = .isFalse) :
      HasType p place (.literal l) .bool
  | unit {l : Literal} (kind : l.kind = .unit) : HasType p place (.literal l) .unit
  | name {span : Span} {t : Option Ty} {x : String} {s scope : Scope} {type : Ty}
      (bound : Bound p place x type scope) : HasType p place (.name span t x s) type
  | neg {span : Span} {t : Option Ty} {e : Expr} (operand : HasType p place e .int) :
      HasType p place (.unary span t .neg e) .int
  | not {span : Span} {t : Option Ty} {e : Expr} (operand : HasType p place e .bool) :
      HasType p place (.unary span t .not e) .bool
  | arith {span : Span} {t : Option Ty} {op : BinaryOp} {lhs rhs : Expr}
      (op_mem : op ∈ [.add, .sub, .mul, .floorDiv, .mod])
      (left : HasType p place lhs .int) (right : HasType p place rhs .int) :
      HasType p place (.binary span t op lhs rhs) .int
  | order {span : Span} {t : Option Ty} {op : BinaryOp} {lhs rhs : Expr}
      (op_mem : op ∈ [.gt, .ge, .lt, .le])
      (left : HasType p place lhs .int) (right : HasType p place rhs .int) :
      HasType p place (.binary span t op lhs rhs) .bool
  | equality {span : Span} {t : Option Ty} {op : BinaryOp} {lhs rhs : Expr} {type : Ty}
      (op_mem : op ∈ [.eq, .ne])
      (left : HasType p place lhs type) (right : HasType p place rhs type) :
      HasType p place (.binary span t op lhs rhs) .bool
  | identity {span : Span} {t : Option Ty} {lhs rhs : Expr}
      (left : HasType p place lhs .unit) (right : HasType p place rhs .unit) :
      HasType p place (.binary span t .is lhs rhs) .bool
  | print {span : Span} {t : Option Ty} {e : Expr} {type : Ty} (arg : HasType p place e type) :
      HasType p place (.call span t "print" [e]) .unit
  | call {span : Span} {t : Option Ty} {f : String} {args : List Expr} {types : List Ty}
      {result : Ty} (callee : Callable p f types result) (given : HaveTypes p place args types) :
      HasType p place (.call span t f args) result

/-- The types of the arguments of a call, one by one. -/
inductive HaveTypes (p : Program) (place : Option FuncDef) : List Expr → List Ty → Prop
  | nil : HaveTypes p place [] []
  | cons {e : Expr} {rest : List Expr} {type : Ty} {types : List Ty}
      (head : HasType p place e type) (tail : HaveTypes p place rest types) :
      HaveTypes p place (e :: rest) (type :: types)

end

mutual

/-- A well-typed statement. -/
inductive StmtTyped (p : Program) (place : Option FuncDef) : Stmt → Prop
  | pass {span : Span} : StmtTyped p place (.pass span)
  | assign {span : Span} {x : String} {s scope : Scope} {e : Expr} {type : Ty}
      (target : Bound p place x type scope) (value : HasType p place e type) :
      StmtTyped p place (.assign span x s e)
  | expr {span : Span} {e : Expr} {type : Ty} (value : HasType p place e type) :
      StmtTyped p place (.expr span e)
  | ret {span : Span} {e : Expr} {f : FuncDef} {type : Ty} (within : place = some f)
      (returns : f.returns = some type) (value : HasType p place e type) :
      StmtTyped p place (.ret span e)
  | while {span : Span} {test : Expr} {body : List Stmt} (cond : HasType p place test .bool)
      (inside : BlockTyped p place body) : StmtTyped p place (.while span test body)
  | cond {span : Span} {test : Expr} {body : List Stmt} {clauses : List Elif}
      {otherwise : List Stmt} (cond : HasType p place test .bool)
      (inside : BlockTyped p place body) (elifs : ClausesTyped p place clauses)
      (last : BlockTyped p place otherwise) :
      StmtTyped p place (.cond span test body clauses otherwise)

inductive BlockTyped (p : Program) (place : Option FuncDef) : List Stmt → Prop
  | nil : BlockTyped p place []
  | cons {s : Stmt} {rest : List Stmt} (head : StmtTyped p place s)
      (tail : BlockTyped p place rest) : BlockTyped p place (s :: rest)

inductive ClausesTyped (p : Program) (place : Option FuncDef) : List Elif → Prop
  | nil : ClausesTyped p place []
  | cons {span : Span} {test : Expr} {body : List Stmt} {rest : List Elif}
      (cond : HasType p place test .bool) (inside : BlockTyped p place body)
      (tail : ClausesTyped p place rest) : ClausesTyped p place (.mk span test body :: rest)

end

mutual

/-- A statement that returns on all paths: a return, or a conditional all of whose arms return,
the `else` arm included. -/
inductive Returns : Stmt → Prop
  | ret {span : Span} {e : Expr} : Returns (.ret span e)
  | cond {span : Span} {test : Expr} {body : List Stmt} {clauses : List Elif}
      {otherwise : List Stmt} (inside : BlockReturns body) (elifs : ClausesReturn clauses)
      (last : BlockReturns otherwise) : Returns (.cond span test body clauses otherwise)

/-- A block returns on all paths if one of its statements does. -/
inductive BlockReturns : List Stmt → Prop
  | here {s : Stmt} {rest : List Stmt} (head : Returns s) : BlockReturns (s :: rest)
  | later {s : Stmt} {rest : List Stmt} (tail : BlockReturns rest) : BlockReturns (s :: rest)

inductive ClausesReturn : List Elif → Prop
  | nil : ClausesReturn []
  | cons {span : Span} {test : Expr} {body : List Stmt} {rest : List Elif}
      (inside : BlockReturns body) (tail : ClausesReturn rest) :
      ClausesReturn (.mk span test body :: rest)

end

/-- The names that no function of a program may have. -/
def hostNames : List String :=
  ["print", "print_num", "print_bool", "print_none", "abs", "max", "min", "pow"]

/-- A declaration whose literal has the declared type. -/
def Initialized (p : Program) (v : VarDecl) : Prop :=
  ∃ type, v.type = some type ∧ HasType p none (.literal v.init) type

structure FuncTyped (p : Program) (f : FuncDef) : Prop where
  slots : (slotNames f).Nodup
  inits : ∀ v ∈ f.locals, Initialized p v
  body : BlockTyped p (some f) f.body
  returns : f.returns ≠ some .unit → BlockReturns f.body

/-- A well-typed program. -/
structure WellTyped (p : Program) : Prop where
  funcNames : (p.funcs.map (·.name)).Nodup
  notHost : ∀ f ∈ p.funcs, f.name ∉ hostNames
  globals : (p.vars.map (·.name)).Nodup
  inits : ∀ v ∈ p.vars, Initialized p v
  funcs : ∀ f ∈ p.funcs, FuncTyped p f
  stmts : BlockTyped p none p.stmts

/-- An expression that carries the one type the rules give it, and a name also its scope. -/
def Carries (p : Program) (place : Option FuncDef) (e : Expr) : Prop :=
  ∃ type, e.type = some type ∧ (∀ other, HasType p place e other ↔ other = type) ∧
    ∀ span t x s, e = .name span t x s → Bound p place x type s

/-- An assignment that carries the scope of its target. -/
def CarriesScope (p : Program) (place : Option FuncDef) (s : Stmt) : Prop :=
  ∀ span x scope e, s = .assign span x scope e → ∃ type, Bound p place x type scope

/-- A program all of whose expressions carry their types and all of whose names their scopes. -/
structure Annotated (p : Program) : Prop where
  vars : ∀ v ∈ p.vars, Carries p none (.literal v.init)
  locals : ∀ f ∈ p.funcs, ∀ v ∈ f.locals, Carries p (some f) (.literal v.init)
  funcs : ∀ f ∈ p.funcs, Stmt.AllIn (Carries p (some f)) (CarriesScope p (some f)) f.body
  stmts : Stmt.AllIn (Carries p none) (CarriesScope p none) p.stmts

theorem Callable.ne_print (hh : ∀ f ∈ p.funcs, f.name ∉ hostNames) (h : Callable p f types result) :
    f ≠ "print" := by
  cases h with
  | user mem params returns =>
    intro heq
    exact hh _ mem (by simp [heq, hostNames])
  | _ => decide

theorem HasType.operand (h : HasType p place (.unary span t op e) type) :
    ∃ a, HasType p place e a := by
  cases h with
  | neg operand => exact ⟨_, operand⟩
  | not operand => exact ⟨_, operand⟩

theorem HasType.operands (h : HasType p place (.binary span t op lhs rhs) type) :
    ∃ a b, HasType p place lhs a ∧ HasType p place rhs b ∧ op.Known := by
  cases h with
  | arith op_mem left right =>
    refine ⟨_, _, left, right, ?_⟩
    cases op <;> simp_all [BinaryOp.Known]
  | order op_mem left right =>
    refine ⟨_, _, left, right, ?_⟩
    cases op <;> simp_all [BinaryOp.Known]
  | equality op_mem left right =>
    refine ⟨_, _, left, right, ?_⟩
    cases op <;> simp_all [BinaryOp.Known]
  | identity left right => exact ⟨_, _, left, right, trivial⟩

theorem HasType.arguments (h : HasType p place (.call span t f args) type) :
    ∃ types, HaveTypes p place args types := by
  cases h with
  | print arg => exact ⟨_, .cons arg .nil⟩
  | call callee given => exact ⟨_, given⟩

end Rules
end WordScript
