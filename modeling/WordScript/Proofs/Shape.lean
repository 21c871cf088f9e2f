import WordScript.Program
import WordScript.Token.Scanner

/-! What programs are made of.

Conditions on programs are stated node by node: a condition on expressions and one on statements
are asked of every node of a tree. -/
namespace WordScript

variable {ε α β : Type}

mutual

/-- A condition on an expression and on every expression inside it. -/
def Expr.All (c : Expr → Prop) : Expr → Prop
  | .literal l => c (.literal l)
  | .name span t x s => c (.name span t x s)
  | .call span t f args => c (.call span t f args) ∧ Expr.AllIn c args
  | .binary span t op lhs rhs => c (.binary span t op lhs rhs) ∧ lhs.All c ∧ rhs.All c
  | .unary span t op e => c (.unary span t op e) ∧ e.All c
  | .unknown span t => c (.unknown span t)

def Expr.AllIn (c : Expr → Prop) : List Expr → Prop
  | [] => True
  | e :: rest => e.All c ∧ Expr.AllIn c rest

end

mutual

/-- A condition `c` on every expression of a statement, and a condition `d` on the statement and
on every statement inside it. -/
def Stmt.All (c : Expr → Prop) (d : Stmt → Prop) : Stmt → Prop
  | .pass span => d (.pass span)
  | .assign span x s e => d (.assign span x s e) ∧ e.All c
  | .expr span e => d (.expr span e) ∧ e.All c
  | .ret span e => d (.ret span e) ∧ e.All c
  | .while span test body => d (.while span test body) ∧ test.All c ∧ Stmt.AllIn c d body
  | .cond span test body clauses otherwise =>
    d (.cond span test body clauses otherwise) ∧ test.All c ∧ Stmt.AllIn c d body
      ∧ Stmt.AllInElifs c d clauses ∧ Stmt.AllIn c d otherwise
  | .unknown span => d (.unknown span)

def Stmt.AllIn (c : Expr → Prop) (d : Stmt → Prop) : List Stmt → Prop
  | [] => True
  | s :: rest => s.All c d ∧ Stmt.AllIn c d rest

def Stmt.AllInElifs (c : Expr → Prop) (d : Stmt → Prop) : List Elif → Prop
  | [] => True
  | .mk _ test body :: rest => test.All c ∧ Stmt.AllIn c d body ∧ Stmt.AllInElifs c d rest

end

theorem Expr.All.self {c : Expr → Prop} (h : e.All c) : c e := by
  cases e with
  | literal l => exact h
  | name span t x s => exact h
  | call span t f args => exact h.1
  | binary span t op lhs rhs => exact h.1
  | unary span t op e => exact h.1
  | unknown span t => exact h

mutual

theorem Expr.All.imp (hc : ∀ e, c e → c' e) : (e : Expr) → e.All c → e.All c'
  | .literal _, h => hc _ h
  | .name _ _ _ _, h => hc _ h
  | .call _ _ _ args, h => ⟨hc _ h.1, Expr.AllIn.imp hc args h.2⟩
  | .binary _ _ _ lhs rhs, h =>
    ⟨hc _ h.1, Expr.All.imp hc lhs h.2.1, Expr.All.imp hc rhs h.2.2⟩
  | .unary _ _ _ e, h => ⟨hc _ h.1, Expr.All.imp hc e h.2⟩
  | .unknown _ _, h => hc _ h

theorem Expr.AllIn.imp (hc : ∀ e, c e → c' e) :
    (es : List Expr) → Expr.AllIn c es → Expr.AllIn c' es
  | [], _ => trivial
  | e :: rest, h => ⟨Expr.All.imp hc e h.1, Expr.AllIn.imp hc rest h.2⟩

end

mutual

theorem Stmt.All.imp (hc : ∀ e, c e → c' e) (hd : ∀ s, d s → d' s) :
    (s : Stmt) → s.All c d → s.All c' d'
  | .pass _, h => hd _ h
  | .assign _ _ _ e, h => ⟨hd _ h.1, Expr.All.imp hc e h.2⟩
  | .expr _ e, h => ⟨hd _ h.1, Expr.All.imp hc e h.2⟩
  | .ret _ e, h => ⟨hd _ h.1, Expr.All.imp hc e h.2⟩
  | .while _ test body, h =>
    ⟨hd _ h.1, Expr.All.imp hc test h.2.1, Stmt.AllIn.imp hc hd body h.2.2⟩
  | .cond _ test body clauses otherwise, h =>
    ⟨hd _ h.1, Expr.All.imp hc test h.2.1, Stmt.AllIn.imp hc hd body h.2.2.1,
      Stmt.AllInElifs.imp hc hd clauses h.2.2.2.1, Stmt.AllIn.imp hc hd otherwise h.2.2.2.2⟩
  | .unknown _, h => hd _ h

theorem Stmt.AllIn.imp (hc : ∀ e, c e → c' e) (hd : ∀ s, d s → d' s) :
    (ss : List Stmt) → Stmt.AllIn c d ss → Stmt.AllIn c' d' ss
  | [], _ => trivial
  | s :: rest, h => ⟨Stmt.All.imp hc hd s h.1, Stmt.AllIn.imp hc hd rest h.2⟩

theorem Stmt.AllInElifs.imp (hc : ∀ e, c e → c' e) (hd : ∀ s, d s → d' s) :
    (es : List Elif) → Stmt.AllInElifs c d es → Stmt.AllInElifs c' d' es
  | [], _ => trivial
  | .mk _ test body :: rest, h =>
    ⟨Expr.All.imp hc test h.1, Stmt.AllIn.imp hc hd body h.2.1,
      Stmt.AllInElifs.imp hc hd rest h.2.2⟩

end

def LiteralKind.Known : LiteralKind → Prop
  | .other _ => False
  | _ => True

def BinaryOp.Known : BinaryOp → Prop
  | .other _ => False
  | _ => True

def UnaryOp.Known : UnaryOp → Prop
  | .other _ => False
  | _ => True

/-- A node that the language has, as far as it can be told without looking inside. -/
def Expr.KnownNode : Expr → Prop
  | .literal l => l.kind.Known
  | .binary _ _ op _ _ => op.Known
  | .unary _ _ op _ => op.Known
  | .unknown _ _ => False
  | _ => True

def Stmt.KnownNode : Stmt → Prop
  | .unknown _ => False
  | _ => True

/-- A declaration with a type of the language and a literal of the language. -/
def VarDecl.Known (v : VarDecl) : Prop := v.type.isSome ∧ v.init.kind.Known

structure FuncDef.Known (f : FuncDef) : Prop where
  params : ∀ a ∈ f.params, a.type.isSome
  returns : f.returns.isSome
  locals : ∀ v ∈ f.locals, v.Known
  body : Stmt.AllIn Expr.KnownNode Stmt.KnownNode f.body

/-- A program of known nodes, literals and operators, all of whose declared types are types of
the language. -/
structure Program.Known (p : Program) : Prop where
  vars : ∀ v ∈ p.vars, v.Known
  funcs : ∀ f ∈ p.funcs, f.Known
  stmts : Stmt.AllIn Expr.KnownNode Stmt.KnownNode p.stmts

def Literal.erase (l : Literal) : Literal := { l with type := none }

mutual

def Expr.erase : Expr → Expr
  | .literal l => .literal l.erase
  | .name span _ x _ => .name span none x .unresolved
  | .call span _ f args => .call span none f (Expr.eraseAll args)
  | .binary span _ op lhs rhs => .binary span none op lhs.erase rhs.erase
  | .unary span _ op e => .unary span none op e.erase
  | .unknown span _ => .unknown span none

def Expr.eraseAll : List Expr → List Expr
  | [] => []
  | e :: rest => e.erase :: Expr.eraseAll rest

end

mutual

def Stmt.erase : Stmt → Stmt
  | .pass span => .pass span
  | .assign span x _ e => .assign span x .unresolved e.erase
  | .expr span e => .expr span e.erase
  | .ret span e => .ret span e.erase
  | .while span c body => .while span c.erase (Stmt.eraseAll body)
  | .cond span c body clauses otherwise =>
    .cond span c.erase (Stmt.eraseAll body) (Stmt.eraseElifs clauses) (Stmt.eraseAll otherwise)
  | .unknown span => .unknown span

def Stmt.eraseAll : List Stmt → List Stmt
  | [] => []
  | s :: rest => s.erase :: Stmt.eraseAll rest

def Stmt.eraseElifs : List Elif → List Elif
  | [] => []
  | .mk span c body :: rest => .mk span c.erase (Stmt.eraseAll body) :: Stmt.eraseElifs rest

end

def VarDecl.erase (v : VarDecl) : VarDecl := { v with init := v.init.erase }

def FuncDef.erase (f : FuncDef) : FuncDef :=
  { f with locals := f.locals.map VarDecl.erase, body := Stmt.eraseAll f.body }

/-- A program without what checking fills in: the types of expressions and the scopes of names. -/
def Program.erase (p : Program) : Program :=
  ⟨p.vars.map VarDecl.erase, p.funcs.map FuncDef.erase, Stmt.eraseAll p.stmts⟩

section conditions

variable {c : Expr → Prop} {d : Stmt → Prop}

variable (hc : ∀ e, c e.erase ↔ c e)
include hc

mutual

theorem Expr.all_erase : (e : Expr) → (e.erase.All c ↔ e.All c)
  | .literal l => hc (.literal l)
  | .name span t x s => hc (.name span t x s)
  | .call span t f args => and_congr (hc (.call span t f args)) (Expr.allIn_erase args)
  | .binary span t op lhs rhs =>
    and_congr (hc (.binary span t op lhs rhs))
      (and_congr (Expr.all_erase lhs) (Expr.all_erase rhs))
  | .unary span t op e => and_congr (hc (.unary span t op e)) (Expr.all_erase e)
  | .unknown span t => hc (.unknown span t)

theorem Expr.allIn_erase : (es : List Expr) → (Expr.AllIn c (Expr.eraseAll es) ↔ Expr.AllIn c es)
  | [] => Iff.rfl
  | e :: rest => and_congr (Expr.all_erase e) (Expr.allIn_erase rest)

end

section

variable (hd : ∀ s, d s.erase ↔ d s)
include hd

mutual

theorem Stmt.all_erase : (s : Stmt) → (s.erase.All c d ↔ s.All c d)
  | .pass span => hd (.pass span)
  | .assign span x s e => and_congr (hd (.assign span x s e)) (Expr.all_erase hc e)
  | .expr span e => and_congr (hd (.expr span e)) (Expr.all_erase hc e)
  | .ret span e => and_congr (hd (.ret span e)) (Expr.all_erase hc e)
  | .while span test body =>
    and_congr (hd (.while span test body))
      (and_congr (Expr.all_erase hc test) (Stmt.allIn_erase body))
  | .cond span test body clauses otherwise =>
    and_congr (hd (.cond span test body clauses otherwise))
      (and_congr (Expr.all_erase hc test) (and_congr (Stmt.allIn_erase body)
        (and_congr (Stmt.allInElifs_erase clauses) (Stmt.allIn_erase otherwise))))
  | .unknown span => hd (.unknown span)

theorem Stmt.allIn_erase :
    (ss : List Stmt) → (Stmt.AllIn c d (Stmt.eraseAll ss) ↔ Stmt.AllIn c d ss)
  | [] => Iff.rfl
  | s :: rest => and_congr (Stmt.all_erase s) (Stmt.allIn_erase rest)

theorem Stmt.allInElifs_erase :
    (es : List Elif) → (Stmt.AllInElifs c d (Stmt.eraseElifs es) ↔ Stmt.AllInElifs c d es)
  | [] => Iff.rfl
  | .mk _ test body :: rest =>
    and_congr (Expr.all_erase hc test)
      (and_congr (Stmt.allIn_erase body) (Stmt.allInElifs_erase rest))

end

end

end conditions

theorem ok_bind (a : α) (f : α → Except ε β) : (Except.ok a >>= f) = f a := rfl

theorem bind_eq_ok {f : α → Except ε β} : (x >>= f) = .ok b ↔ ∃ a, x = .ok a ∧ f a = .ok b := by
  cases x with
  | ok a => simp [ok_bind]
  | error e => simp [bind, Except.bind]

theorem pure_eq_ok : (pure a : Except ε α) = .ok b ↔ a = b := by
  simp [pure, Except.pure]

end WordScript
