import WordScript.Proofs.Meaning

/-! Evaluations that end.

The rules say how a program that is neither stopped nor goes on for ever comes to its end. They
leave out one operation that evaluation allows: the signed remainder of a division whose quotient
is out of range. -/
namespace WordScript

/-- The signed quotient of two words is out of range. -/
def Word.Overflows (a b : Word) : Prop := a = BitVec.intMin 32 ∧ b = -1

instance (a b : Word) : Decidable (a.Overflows b) := inferInstanceAs (Decidable (_ ∧ _))

namespace Meaning

/-- An operation has a result, and a signed remainder is that of a quotient in range. -/
structure Applies (o : WordOp) (a b v : Word) : Prop where
  value : o.eval a b = .ok v
  range : o = .rem .signed → ¬ a.Overflows b

mutual

/-- An expression yields a value. -/
inductive Yields (p : Program) (mode : Arithmetic) : Expr → State → Word → State → Prop
  | literal (l : Literal) (w : State) : Yields p mode (.literal l) w (literal l) w
  | name {span : Span} {t : Option Ty} {x : String} {scope : Scope} {w : State} {v : Word}
      (value : w.value? x = some v) : Yields p mode (.name span t x scope) w v w
  | neg {span : Span} {t : Option Ty} {e : Expr} {w w' : State} {v : Word}
      (operand : Yields p mode e w v w') : Yields p mode (.unary span t .neg e) w (-v) w'
  | not {span : Span} {t : Option Ty} {e : Expr} {w w' : State} {v : Word}
      (operand : Yields p mode e w v w') : Yields p mode (.unary span t .not e) w (v ^^^ 1) w'
  | binary {span : Span} {t : Option Ty} {op : BinaryOp} {lhs rhs : Expr} {w w₁ w₂ : State}
      {a b v : Word} {o : WordOp} (left : Yields p mode lhs w a w₁)
      (right : Yields p mode rhs w₁ b w₂) (operation : op.wordOp? mode = some o)
      (applies : Applies o a b v) : Yields p mode (.binary span t op lhs rhs) w v w₂
  | print {span : Span} {t : Option Ty} {e : Expr} {w w' : State} {v : Word} {type : Ty}
      (argument : Yields p mode e w v w') (typed : e.type = some type) :
      Yields p mode (.call span t "print" [e]) w v
        { w' with printed := line type v :: w'.printed }
  | call {span : Span} {t : Option Ty} {f : String} {args : List Expr} {w w₁ w₂ : State}
      {vs : List Word} {v : Word} (arguments : YieldsAll p mode args w vs w₁) (other : f ≠ "print")
      (answer : Answers p mode f vs w₁ v w₂) : Yields p mode (.call span t f args) w v w₂

/-- Arguments yield values from left to right. -/
inductive YieldsAll (p : Program) (mode : Arithmetic) :
    List Expr → State → List Word → State → Prop
  | nil (w : State) : YieldsAll p mode [] w [] w
  | cons {e : Expr} {rest : List Expr} {w w₁ w₂ : State} {v : Word} {vs : List Word}
      (head : Yields p mode e w v w₁) (tail : YieldsAll p mode rest w₁ vs w₂) :
      YieldsAll p mode (e :: rest) w (v :: vs) w₂

/-- A call has a result. -/
inductive Answers (p : Program) (mode : Arithmetic) :
    String → List Word → State → Word → State → Prop
  | host {f : String} {vs : List Word} {w : State} {host : Machine.HostFunc}
      {reply : Machine.Reply} (free : ∀ d ∈ p.funcs, d.name ≠ f) (found : hostFunc? f = some host)
      (arity : host.reads = vs.length) (replies : host.reply? vs = some reply) :
      Answers p mode f vs w reply.value w
  | returns {d : FuncDef} {vs : List Word} {w w' : State} {v : Word} (mem : d ∈ p.funcs)
      (arity : d.params.length = vs.length)
      (body : RunsAll p mode d.body { w with frame := frameOf d vs } (.ret v) w') :
      Answers p mode d.name vs w v { w' with frame := w.frame }
  | falls {d : FuncDef} {vs : List Word} {w w' : State} (mem : d ∈ p.funcs)
      (arity : d.params.length = vs.length)
      (body : RunsAll p mode d.body { w with frame := frameOf d vs } .next w') :
      Answers p mode d.name vs w (fallOff d) { w' with frame := w.frame }

/-- A statement runs to its end. -/
inductive Runs (p : Program) (mode : Arithmetic) : Stmt → State → Flow → State → Prop
  | pass (span : Span) (w : State) : Runs p mode (.pass span) w .next w
  | assign {span : Span} {x : String} {scope : Scope} {e : Expr} {w w' : State} {v : Word}
      (value : Yields p mode e w v w') (bound : (w'.value? x).isSome = true) :
      Runs p mode (.assign span x scope e) w .next (w'.update x v)
  | expr {span : Span} {e : Expr} {w w' : State} {v : Word} (value : Yields p mode e w v w') :
      Runs p mode (.expr span e) w .next w'
  | ret {span : Span} {e : Expr} {w w' : State} {v : Word} (value : Yields p mode e w v w') :
      Runs p mode (.ret span e) w (.ret v) w'
  | stop {span : Span} {c : Expr} {body : List Stmt} {w w' : State}
      (test : Yields p mode c w 0 w') : Runs p mode (.while span c body) w .next w'
  | again {span : Span} {c : Expr} {body : List Stmt} {w w₁ w₂ w₃ : State} {v : Word} {flow : Flow}
      (test : Yields p mode c w v w₁) (holds : v ≠ 0) (pass : RunsAll p mode body w₁ .next w₂)
      (rest : Runs p mode (.while span c body) w₂ flow w₃) :
      Runs p mode (.while span c body) w flow w₃
  | leave {span : Span} {c : Expr} {body : List Stmt} {w w₁ w₂ : State} {v u : Word}
      (test : Yields p mode c w v w₁) (holds : v ≠ 0) (pass : RunsAll p mode body w₁ (.ret u) w₂) :
      Runs p mode (.while span c body) w (.ret u) w₂
  | cond {span : Span} {c : Expr} {body : List Stmt} {clauses : List Elif} {otherwise : List Stmt}
      {w w' : State} {flow : Flow}
      (chosen : Chooses p mode (.mk span c body :: clauses) otherwise w flow w') :
      Runs p mode (.cond span c body clauses otherwise) w flow w'

inductive RunsAll (p : Program) (mode : Arithmetic) : List Stmt → State → Flow → State → Prop
  | nil (w : State) : RunsAll p mode [] w .next w
  | cons {s : Stmt} {rest : List Stmt} {w w₁ w₂ : State} {flow : Flow}
      (head : Runs p mode s w .next w₁) (tail : RunsAll p mode rest w₁ flow w₂) :
      RunsAll p mode (s :: rest) w flow w₂
  | left {s : Stmt} {w w' : State} {v : Word} (head : Runs p mode s w (.ret v) w')
      (rest : List Stmt) : RunsAll p mode (s :: rest) w (.ret v) w'

/-- Of clauses the first one runs whose condition holds, and if there is none, the last one. -/
inductive Chooses (p : Program) (mode : Arithmetic) :
    List Elif → List Stmt → State → Flow → State → Prop
  | last {otherwise : List Stmt} {w w' : State} {flow : Flow}
      (body : RunsAll p mode otherwise w flow w') : Chooses p mode [] otherwise w flow w'
  | yes {span : Span} {c : Expr} {body otherwise : List Stmt} {rest : List Elif}
      {w w₁ w₂ : State} {v : Word} {flow : Flow} (test : Yields p mode c w v w₁) (holds : v ≠ 0)
      (taken : RunsAll p mode body w₁ flow w₂) :
      Chooses p mode (.mk span c body :: rest) otherwise w flow w₂
  | no {span : Span} {c : Expr} {body otherwise : List Stmt} {rest : List Elif}
      {w w₁ w₂ : State} {flow : Flow} (test : Yields p mode c w 0 w₁)
      (others : Chooses p mode rest otherwise w₁ flow w₂) :
      Chooses p mode (.mk span c body :: rest) otherwise w flow w₂

end

/-- The top level runs to its end. The value of an expression that stands last is the result. -/
inductive Finishes (p : Program) (mode : Arithmetic) :
    List Stmt → State → Option Word → State → Prop
  | nil (w : State) : Finishes p mode [] w none w
  | value {span : Span} {e : Expr} {w w' : State} {v : Word} (value : Yields p mode e w v w') :
      Finishes p mode [.expr span e] w (some v) w'
  | cons {s : Stmt} {rest : List Stmt} {w w₁ w₂ : State} {result : Option Word}
      (head : Runs p mode s w .next w₁) (inner : ∀ span e, s = .expr span e → rest ≠ [])
      (tail : Finishes p mode rest w₁ result w₂) : Finishes p mode (s :: rest) w result w₂

end Meaning
end WordScript
