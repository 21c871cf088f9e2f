import Mathlib.Tactic.Common
import WordScript.Proofs.Acceptance
import WordScript.StackCode.Lowering

/-! Lowering well-typed programs to stack code.

The names with storage are those the program declares, so the storage of a name is the scope that
the rules give it, and code can be generated for every well-typed tree that carries its types. -/
namespace WordScript
namespace StackCode

section

-- The equations are derived here, once for all proofs below.
attribute [local simp] expr arguments stmt stmts elifs

end

section forms

variable {ctx : Context} {span : Span} {t : Option Ty} {n : Nat}
variable {code : List Instr} {e c : Expr} {body : List Stmt}

theorem expr_name_ok :
    expr ctx (.name span t x s) = .ok code ↔
      ∃ place, ctx.place span x s = .ok place ∧ code = [.get place x] := by
  simp only [expr, bind_eq_ok, pure_eq_ok]
  exact exists_congr fun place => and_congr_right fun _ => eq_comm

theorem expr_unary_ok :
    expr ctx (.unary span t op e) = .ok code ↔
      ∃ c, expr ctx e = .ok c ∧ code = c ++ unaryCode op := by
  simp only [expr, bind_eq_ok, pure_eq_ok]
  exact exists_congr fun c => and_congr_right fun _ => eq_comm

theorem expr_binary_ok :
    expr ctx (.binary span t op lhs rhs) = .ok code ↔
      ∃ l r o, expr ctx lhs = .ok l ∧ expr ctx rhs = .ok r ∧ op.wordOp? ctx.mode = some o ∧
        code = l ++ r ++ [.op o] := by
  simp only [expr, bind_eq_ok]
  constructor
  · rintro ⟨l, hl, r, hr, h⟩
    split at h
    · rename_i o ho
      exact ⟨l, r, o, hl, hr, ho, (pure_eq_ok.1 h).symm⟩
    · simp [fault] at h
  · rintro ⟨l, r, o, hl, hr, ho, rfl⟩
    exact ⟨l, hl, r, hr, by rw [ho]; rfl⟩

theorem expr_call_ok :
    expr ctx (.call span t f args) = .ok code ↔
      ∃ c target, arguments ctx args = .ok c ∧ callTarget span f args = .ok target ∧
        code = c ++ [.call target] := by
  simp only [expr, bind_eq_ok, pure_eq_ok]
  constructor
  · rintro ⟨c, hc, target, ht, rfl⟩
    exact ⟨c, target, hc, ht, rfl⟩
  · rintro ⟨c, target, hc, ht, rfl⟩
    exact ⟨c, hc, target, ht, rfl⟩

theorem arguments_cons_ok :
    arguments ctx (e :: rest) = .ok code ↔
      ∃ c d, expr ctx e = .ok c ∧ arguments ctx rest = .ok d ∧ code = c ++ d := by
  simp only [arguments, bind_eq_ok, pure_eq_ok]
  constructor
  · rintro ⟨c, hc, d, hd, rfl⟩
    exact ⟨c, d, hc, hd, rfl⟩
  · rintro ⟨c, d, hc, hd, rfl⟩
    exact ⟨c, hc, d, hd, rfl⟩

theorem stmt_assign_ok :
    stmt ctx n (.assign span x s e) = .ok code ↔
      ∃ place c, ctx.place span x s = .ok place ∧ expr ctx e = .ok c ∧
        code = c ++ [.set place x] := by
  simp only [stmt, bind_eq_ok, pure_eq_ok]
  constructor
  · rintro ⟨place, hp, c, hc, rfl⟩
    exact ⟨place, c, hp, hc, rfl⟩
  · rintro ⟨place, c, hp, hc, rfl⟩
    exact ⟨place, hp, c, hc, rfl⟩

theorem stmt_expr_ok :
    stmt ctx n (.expr span e) = .ok code ↔
      ∃ c, expr ctx e = .ok c ∧ code = c ++ [.set .slot scratch] := by
  simp only [stmt, bind_eq_ok, pure_eq_ok]
  exact exists_congr fun c => and_congr_right fun _ => eq_comm

theorem stmt_ret_ok :
    stmt ctx n (.ret span e) = .ok code ↔ ∃ c, expr ctx e = .ok c ∧ code = c ++ [.ret] := by
  simp only [stmt, bind_eq_ok, pure_eq_ok]
  exact exists_congr fun c => and_congr_right fun _ => eq_comm

/-- One pass over a loop: leave it if the condition does not hold, else run the body and start
again. -/
def loopPass (n : Nat) (cond body : List Instr) : List Instr :=
  cond ++ [.const 1, .op .xor, .brIf (breakLabel n)] ++ body ++ [.br (loopLabel n)]

theorem stmt_while_ok :
    stmt ctx n (.while span c body) = .ok code ↔
      ∃ cond inside, expr ctx c = .ok cond ∧ stmts ctx (n + 1) body = .ok inside ∧
        code = [.block (breakLabel n) [.loop (loopLabel n) (loopPass n cond inside)]] := by
  simp only [stmt, bind_eq_ok, pure_eq_ok]
  constructor
  · rintro ⟨cond, hc, inside, hb, rfl⟩
    exact ⟨cond, inside, hc, hb, rfl⟩
  · rintro ⟨cond, inside, hc, hb, rfl⟩
    exact ⟨cond, hc, inside, hb, rfl⟩

theorem stmt_cond_ok :
    stmt ctx n (.cond span c body clauses otherwise) = .ok code ↔
      ∃ cond thenArm elseArm, expr ctx c = .ok cond ∧ stmts ctx n body = .ok thenArm ∧
        elifs ctx (n + loopsIn body)
          (stmts ctx (n + loopsIn body + loopsInElifs clauses) otherwise) clauses = .ok elseArm ∧
        code = cond ++ [.cond thenArm elseArm] := by
  simp only [stmt, bind_eq_ok, pure_eq_ok]
  constructor
  · rintro ⟨cond, hc, thenArm, ht, elseArm, he, rfl⟩
    exact ⟨cond, thenArm, elseArm, hc, ht, he, rfl⟩
  · rintro ⟨cond, thenArm, elseArm, hc, ht, he, rfl⟩
    exact ⟨cond, hc, thenArm, ht, elseArm, he, rfl⟩

theorem stmts_cons_ok :
    stmts ctx n (s :: rest) = .ok code ↔
      ∃ first others, stmt ctx n s = .ok first ∧ stmts ctx (n + loops s) rest = .ok others ∧
        code = first ++ others := by
  simp only [stmts, bind_eq_ok, pure_eq_ok]
  constructor
  · rintro ⟨first, hf, others, ho, rfl⟩
    exact ⟨first, others, hf, ho, rfl⟩
  · rintro ⟨first, others, hf, ho, rfl⟩
    exact ⟨first, hf, others, ho, rfl⟩

theorem elifs_cons_ok :
    elifs ctx n last (.mk span c body :: rest) = .ok code ↔
      ∃ cond thenArm elseArm, expr ctx c = .ok cond ∧ stmts ctx n body = .ok thenArm ∧
        elifs ctx (n + loopsIn body) last rest = .ok elseArm ∧
        code = cond ++ [.cond thenArm elseArm] := by
  simp only [elifs, bind_eq_ok, pure_eq_ok]
  constructor
  · rintro ⟨cond, hc, thenArm, ht, elseArm, he, rfl⟩
    exact ⟨cond, thenArm, elseArm, hc, ht, he, rfl⟩
  · rintro ⟨cond, thenArm, elseArm, hc, ht, he, rfl⟩
    exact ⟨cond, hc, thenArm, ht, elseArm, he, rfl⟩

end forms

def scopePlace? : Scope → Option Place
  | .global => some .global
  | .slot => some .slot
  | _ => none

/-- What code generation depends on at a place of a program. -/
def contextAt (mode : Arithmetic) (p : Program) (place : Option FuncDef) : Context :=
  ⟨mode, p.vars.map (·.name), (place.map Rules.slotNames).getD []⟩

section storage

variable {p : Program} {place : Option FuncDef} (mode : Arithmetic)
variable {x : String} {span : Span}

theorem mem_slotNames (h : Rules.Declares f x type) : x ∈ Rules.slotNames f := by
  cases h with
  | param mem _ => exact List.mem_append_left _ (List.mem_map_of_mem mem)
  | var mem _ => exact List.mem_append_right _ (List.mem_map_of_mem mem)

theorem place?_of_bound (h : Rules.Bound p place x type scope) :
    ∃ pl, scopePlace? scope = some pl ∧ (contextAt mode p place).place? x = some pl := by
  cases h with
  | slot within declared =>
    subst within
    exact ⟨.slot, rfl, by simp [Context.place?, contextAt, mem_slotNames declared]⟩
  | @global v _ mem declared visible =>
    refine ⟨.global, rfl, ?_⟩
    have declared : ∃ w ∈ p.vars, w.name = v.name := ⟨v, mem, rfl⟩
    cases place with
    | none => simpa [Context.place?, contextAt] using declared
    | some f => simpa [Context.place?, contextAt, visible f rfl] using declared

theorem place_ok {ctx : Context} :
    ctx.place span x scope = .ok pl ↔ scopePlace? scope = some pl ∧ ctx.place? x = some pl := by
  unfold Context.place
  cases ctx.place? x with
  | none => simp [fault]
  | some pl' => cases pl' <;> cases scope <;> cases pl <;> simp [fault, scopePlace?]

theorem wordOp?_of_known {op : BinaryOp} (h : op.Known) : ∃ o, op.wordOp? mode = some o := by
  cases op with
  | other n => exact h.elim
  | _ => exact ⟨_, rfl⟩

theorem callTarget_print (h : e.type = some type) :
    ∃ target, callTarget span "print" [e] = .ok target := by
  cases type <;> simp [callTarget, h, printer?]

theorem callTarget_other (h : f ≠ "print") :
    callTarget span f args = .ok f := by simp [callTarget, h]

variable (hh : ∀ f ∈ p.funcs, f.name ∉ Rules.hostNames)
include hh

mutual

theorem expr_lowers :
    (e : Expr) → ∀ {type}, Rules.HasType p place e type → e.All (Rules.Carries p place) →
      ∃ code, expr (contextAt mode p place) e = .ok code
  | .literal l, _, _, _ => ⟨_, rfl⟩
  | .name span t x s, type, _, hc => by
    obtain ⟨_, -, -, hb⟩ := hc
    obtain ⟨pl, hs, hp⟩ := place?_of_bound mode (hb span t x s rfl)
    exact ⟨_, expr_name_ok.2 ⟨pl, place_ok.2 ⟨hs, hp⟩, rfl⟩⟩
  | .unary span t op e, type, ht, hc => by
    obtain ⟨a, ha⟩ := ht.operand
    obtain ⟨c, he⟩ := expr_lowers e ha hc.2
    exact ⟨_, expr_unary_ok.2 ⟨c, he, rfl⟩⟩
  | .binary span t op lhs rhs, type, ht, hc => by
    obtain ⟨a, b, ha, hb, hk⟩ := ht.operands
    obtain ⟨l, hl⟩ := expr_lowers lhs ha hc.2.1
    obtain ⟨r, hr⟩ := expr_lowers rhs hb hc.2.2
    obtain ⟨o, ho⟩ := wordOp?_of_known mode hk
    exact ⟨_, expr_binary_ok.2 ⟨l, r, o, hl, hr, ho, rfl⟩⟩
  | .call span t f args, type, ht, hc => by
    obtain ⟨types, ha⟩ := ht.arguments
    obtain ⟨c, hcode⟩ := arguments_lower args ha hc.2
    have target : ∃ target, callTarget span f args = .ok target := by
      cases ht with
      | print arg =>
        obtain ⟨type', htype, -⟩ := hc.2.1.self
        exact callTarget_print htype
      | call callee given => exact ⟨f, callTarget_other (callee.ne_print hh)⟩
    obtain ⟨target, htarget⟩ := target
    exact ⟨_, expr_call_ok.2 ⟨c, target, hcode, htarget, rfl⟩⟩
  | .unknown span t, _, ht, _ => nomatch ht

theorem arguments_lower :
    (args : List Expr) → ∀ {types}, Rules.HaveTypes p place args types →
      Expr.AllIn (Rules.Carries p place) args →
      ∃ code, arguments (contextAt mode p place) args = .ok code
  | [], _, _, _ => ⟨[], rfl⟩
  | e :: rest, _, .cons head tail, hc => by
    obtain ⟨c, he⟩ := expr_lowers e head hc.1
    obtain ⟨d, hr⟩ := arguments_lower rest tail hc.2
    exact ⟨_, arguments_cons_ok.2 ⟨c, d, he, hr, rfl⟩⟩

end

mutual

theorem stmt_lowers :
    (s : Stmt) → ∀ n, Rules.StmtTyped p place s →
      s.All (Rules.Carries p place) (Rules.CarriesScope p place) →
      ∃ code, stmt (contextAt mode p place) n s = .ok code
  | .pass span, n, _, _ => ⟨_, rfl⟩
  | .assign span x s e, n, .assign _ value, hc => by
    obtain ⟨type, hb⟩ := hc.1 span x s e rfl
    obtain ⟨pl, hs, hp⟩ := place?_of_bound mode hb
    obtain ⟨c, he⟩ := expr_lowers mode hh e value hc.2
    exact ⟨_, stmt_assign_ok.2 ⟨pl, c, place_ok.2 ⟨hs, hp⟩, he, rfl⟩⟩
  | .expr span e, n, .expr value, hc => by
    obtain ⟨c, he⟩ := expr_lowers mode hh e value hc.2
    exact ⟨_, stmt_expr_ok.2 ⟨c, he, rfl⟩⟩
  | .ret span e, n, .ret _ _ value, hc => by
    obtain ⟨c, he⟩ := expr_lowers mode hh e value hc.2
    exact ⟨_, stmt_ret_ok.2 ⟨c, he, rfl⟩⟩
  | .while span c body, n, .while cond inside, hc => by
    obtain ⟨cond, he⟩ := expr_lowers mode hh c cond hc.2.1
    obtain ⟨inside, hb⟩ := block_lowers body (n + 1) inside hc.2.2
    exact ⟨_, stmt_while_ok.2 ⟨cond, inside, he, hb, rfl⟩⟩
  | .cond span c body clauses otherwise, n, .cond cond inside clausesTyped last, hc => by
    obtain ⟨cond, he⟩ := expr_lowers mode hh c cond hc.2.1
    obtain ⟨thenArm, hb⟩ := block_lowers body n inside hc.2.2.1
    obtain ⟨lastCode, hl⟩ := block_lowers otherwise
      (n + loopsIn body + loopsInElifs clauses) last hc.2.2.2.2
    obtain ⟨elseArm, hr⟩ := clauses_lower clauses (n + loopsIn body) hl clausesTyped hc.2.2.2.1
    exact ⟨_, stmt_cond_ok.2 ⟨cond, thenArm, elseArm, he, hb, hr, rfl⟩⟩
  | .unknown span, _, h, _ => nomatch h

theorem block_lowers :
    (ss : List Stmt) → ∀ n, Rules.BlockTyped p place ss →
      Stmt.AllIn (Rules.Carries p place) (Rules.CarriesScope p place) ss →
      ∃ code, stmts (contextAt mode p place) n ss = .ok code
  | [], _, _, _ => ⟨[], rfl⟩
  | s :: rest, n, .cons head tail, hc => by
    obtain ⟨first, hf⟩ := stmt_lowers s n head hc.1
    obtain ⟨others, ho⟩ := block_lowers rest (n + loops s) tail hc.2
    exact ⟨_, stmts_cons_ok.2 ⟨first, others, hf, ho, rfl⟩⟩

theorem clauses_lower :
    (es : List Elif) → ∀ n {last lastCode}, last = .ok lastCode → Rules.ClausesTyped p place es →
      Stmt.AllInElifs (Rules.Carries p place) (Rules.CarriesScope p place) es →
      ∃ code, elifs (contextAt mode p place) n last es = .ok code
  | [], _, _, _, hl, _, _ => ⟨_, hl⟩
  | .mk span c body :: rest, n, _, _, hl, .cons cond inside tail, hc => by
    obtain ⟨cond, he⟩ := expr_lowers mode hh c cond hc.1
    obtain ⟨thenArm, hb⟩ := block_lowers body n inside hc.2.1
    obtain ⟨elseArm, hr⟩ := clauses_lower rest (n + loopsIn body) hl tail hc.2.2
    exact ⟨_, elifs_cons_ok.2 ⟨cond, thenArm, elseArm, he, hb, hr, rfl⟩⟩

end

end storage

section programs

variable {mode : Arithmetic} {p : Program}

/-- The code of a function, given the code of its body. -/
def funcOf (f : FuncDef) (body : List Instr) : Func Instr where
  name := f.name
  exportName := ""
  params := f.params.map (·.name)
  result := true
  locals := scratch :: f.locals.map (·.name)
  body := f.locals.flatMap initCode ++ body ++ [.const (defaultValue f.returns)]

/-- The code of the top level, given the code of its statements. -/
def startOf (ss : List Stmt) (code : List Instr) : Func Instr where
  name := ""
  exportName := Builtin.startName
  params := []
  result := hasResult ss
  locals := [scratch]
  body := code ++ (if hasResult ss then [.get .slot scratch] else [])

/-- The globals of a module with their initial values. -/
def globalsOf (p : Program) : List (String × Int) := p.vars.map fun v => (v.name, v.init.encode)

theorem funcDef_ok :
    funcDef (contextAt mode p none) f = .ok g ↔
      ∃ body, stmts (contextAt mode p (some f)) 0 f.body = .ok body ∧ g = funcOf f body := by
  simp only [funcDef, bind_eq_ok, pure_eq_ok]
  exact exists_congr fun body => and_congr_right fun _ => eq_comm

theorem funcDefs_ok :
    funcDefs ctx fs = .ok gs ↔ List.Forall₂ (fun f g => funcDef ctx f = .ok g) fs gs := by
  induction fs generalizing gs with
  | nil =>
    constructor
    · rintro ⟨⟩
      exact .nil
    · rintro ⟨⟩
      rfl
  | cons f rest ih =>
    simp only [funcDefs, bind_eq_ok, pure_eq_ok, List.forall₂_cons_left_iff]
    constructor
    · rintro ⟨g, hg, gs', hgs, rfl⟩
      exact ⟨g, gs', hg, ih.1 hgs, rfl⟩
    · rintro ⟨g, gs', hg, hgs, rfl⟩
      exact ⟨g, hg, gs', ih.2 hgs, rfl⟩

theorem toStackCode_ok :
    p.toStackCode mode = .ok m ↔
      ∃ gs code, List.Forall₂ (fun f g => funcDef (contextAt mode p none) f = .ok g) p.funcs gs ∧
        stmts (contextAt mode p none) 0 p.stmts = .ok code ∧
        m = ⟨globalsOf p, gs, some (startOf p.stmts code)⟩ := by
  simp only [Program.toStackCode, start, bind_eq_ok, pure_eq_ok, funcDefs_ok]
  constructor
  · rintro ⟨gs, hgs, _, ⟨code, hc, rfl⟩, rfl⟩
    exact ⟨gs, code, hgs, hc, rfl⟩
  · rintro ⟨gs, code, hgs, hc, rfl⟩
    exact ⟨gs, hgs, _, ⟨code, hc, rfl⟩, rfl⟩

theorem toStackCode_succeeds (hw : Rules.WellTyped p) (ha : Rules.Annotated p) :
    ∃ m, p.toStackCode mode = .ok m := by
  have funcs : ∀ f ∈ p.funcs, ∃ g, funcDef (contextAt mode p none) f = .ok g := by
    intro f hf
    obtain ⟨body, hb⟩ := block_lowers mode hw.notHost f.body 0 (hw.funcs f hf).body (ha.funcs f hf)
    exact ⟨_, funcDef_ok.2 ⟨body, hb, rfl⟩⟩
  obtain ⟨gs, hgs⟩ := forall₂_of_forall_exists funcs
  obtain ⟨code, hc⟩ := block_lowers mode hw.notHost p.stmts 0 hw.stmts ha.stmts
  exact ⟨_, toStackCode_ok.2 ⟨gs, code, hgs, hc, rfl⟩⟩

end programs

end StackCode
end WordScript
