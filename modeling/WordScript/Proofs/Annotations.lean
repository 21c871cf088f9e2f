import WordScript.Proofs.CheckSpans
import WordScript.Typing.Shared

/-! Checking and the annotations of a tree.

The types and scopes that stand in a tree are not looked at, and checking changes nothing else. So a
checked tree, taken for one to be checked, is checked like the tree it was made from. The tree that
was given is left as it was, unless it has a node that is not copied. -/
namespace WordScript
open Stmt (AllIn eraseAll eraseElifs)

/-- A node of a form that the language has. Such a node is copied before it is checked. -/
def Expr.HasForm : Expr → Prop
  | .unknown _ _ => False
  | _ => True

/-- A program whose expressions all have a form that the language has. -/
structure Program.HasForms (p : Program) : Prop where
  funcs : ∀ f ∈ p.funcs, Stmt.AllIn Expr.HasForm (fun _ => True) f.body
  stmts : Stmt.AllIn Expr.HasForm (fun _ => True) p.stmts

theorem Expr.length_eraseAll (es : List Expr) : (Expr.eraseAll es).length = es.length := by
  induction es with
  | nil => rfl
  | cons e rest ih => simp [Expr.eraseAll, ih]

namespace Typing

section

variable (env : Env)
include env

mutual

theorem expr_erase : (e : Expr) → expr env e.erase = expr env e
  | .literal l => rfl
  | .name span t x s => by simp only [Expr.erase, expr]
  | .unary span t op e => by simp only [Expr.erase, expr, expr_erase e]
  | .binary span t op lhs rhs => by
    simp only [Expr.erase, expr, expr_erase lhs, expr_erase rhs]
  | .call span t f args => by
    rw [Expr.erase, expr.eq_def, expr.eq_def]
    simp only [Expr.length_eraseAll, arguments_erase f]
    match args with
    | [] => rfl
    | [e] => simp only [Expr.eraseAll, expr_erase e]
    | e :: e' :: rest => rfl
  | .unknown span t => rfl

theorem arguments_erase (f : String) :
    (index : Nat) → (params : List (Option Ty)) → (args : List Expr) →
      arguments env f index params (Expr.eraseAll args) = arguments env f index params args
  | _, [], [] => rfl
  | _, [], _ :: _ => rfl
  | _, _ :: _, [] => rfl
  | index, wanted :: params, e :: rest => by
    simp only [Expr.eraseAll, arguments, expr_erase e, span_erase,
      arguments_erase f (index + 1) params rest]

end

theorem condition_erase (what : String) (e : Expr) :
    condition env what e.erase = condition env what e := by
  simp only [condition, expr_erase, span_erase]

mutual

theorem stmt_erase : (s : Stmt) → stmt env s.erase = stmt env s
  | .pass span => rfl
  | .assign span x s e => by simp only [Stmt.erase, stmt, expr_erase, span_erase]
  | .expr span e => by simp only [Stmt.erase, stmt, expr_erase]
  | .ret span e => by simp only [Stmt.erase, stmt, expr_erase, span_erase]
  | .while span c body => by
    simp only [Stmt.erase, stmt, condition_erase, stmts_erase body]
  | .cond span c body clauses otherwise => by
    simp only [Stmt.erase, stmt, condition_erase, stmts_erase body, elifs_erase clauses,
      stmts_erase otherwise]
  | .unknown span => rfl

theorem stmts_erase : (ss : List Stmt) → stmts env (eraseAll ss) = stmts env ss
  | [] => rfl
  | s :: rest => by simp only [eraseAll, stmts, stmt_erase s, stmts_erase rest]

theorem elifs_erase : (es : List Elif) → elifs env (eraseElifs es) = elifs env es
  | [] => rfl
  | .mk span c body :: rest => by
    simp only [eraseElifs, elifs, elif, condition_erase, stmts_erase body,
      elifs_erase rest]

end

theorem varDecls_erase (scope : Scope) (vs : List VarDecl) :
    varDecls env scope (vs.map VarDecl.erase) = varDecls env scope vs := by
  induction vs generalizing env with
  | nil => rfl
  | cons v rest ih =>
    have same : varDecl env scope v.erase = varDecl env scope v := rfl
    simp [varDecls, same, ih]

theorem funcDef_erase (f : FuncDef) : funcDef env f.erase = funcDef env f := by
  simp only [funcDef, FuncDef.erase, varDecls_erase, stmts_erase, Rules.anyReturns_erase]

theorem funcDefs_erase (fs : List FuncDef) :
    funcDefs env (fs.map FuncDef.erase) = funcDefs env fs := by
  induction fs with
  | nil => rfl
  | cons f rest ih => simp [funcDefs, funcDef_erase, ih]

theorem declare_erase (fs : List FuncDef) :
    declare env (fs.map FuncDef.erase) = declare env fs := by
  induction fs generalizing env with
  | nil => rfl
  | cons f rest ih =>
    simp only [List.map_cons, declare, ih]
    rfl

end

mutual

theorem erase_of_expr : (e : Expr) → {e' : Expr} → expr env e = .ok e' → e'.erase = e.erase
  | .literal l, e', h => by
    cases expr_literal_ok.1 h
    rfl
  | .name span t x s, e', h => by
    obtain ⟨b, -, rfl⟩ := expr_name_ok.1 h
    rfl
  | .unary span t op e, e', h => by
    obtain ⟨o, ho, -, rfl⟩ := expr_unary_ok.1 h
    simp only [Expr.erase, erase_of_expr e ho]
  | .binary span t op lhs rhs, e', h => by
    obtain ⟨l, r, type, hl, hr, -, rfl⟩ := expr_binary_ok.1 h
    simp only [Expr.erase, erase_of_expr lhs hl, erase_of_expr rhs hr]
  | .call span t f args, e', h => by
    by_cases hf : f = "print"
    · subst hf
      obtain ⟨a, a', rfl, ha, rfl⟩ := expr_print_ok.1 h
      simp only [Expr.erase, Expr.eraseAll, erase_of_expr a ha]
    · obtain ⟨sig, args', -, length, ha, rfl⟩ := (expr_call_ok hf).1 h
      simp only [Expr.erase, erase_of_arguments f 1 sig.params args length ha]
  | .unknown span t, e', h => by
    cases h
    rfl

theorem erase_of_arguments (f : String) : (index : Nat) → (params : List (Option Ty)) →
    (args : List Expr) → args.length = params.length → {args' : List Expr} →
      arguments env f index params args = .ok args' → Expr.eraseAll args' = Expr.eraseAll args
  | _, [], [], _, _, h => by
    cases h
    rfl
  | index, wanted :: params, e :: rest, length, args', h => by
    obtain ⟨a, rest', ha, -, hr, rfl⟩ := arguments_cons_ok.1 h
    simp only [Expr.eraseAll, erase_of_expr e ha,
      erase_of_arguments f (index + 1) params rest (Nat.succ.inj length) hr]

end

mutual

theorem erase_of_stmt : (s : Stmt) → {s' : Stmt} → stmt env s = .ok s' → s'.erase = s.erase
  | .pass span, s', h => by
    cases h
    rfl
  | .assign span x scope e, s', h => by
    obtain ⟨b, v, -, hv, -, rfl⟩ := stmt_assign_ok.1 h
    simp only [Stmt.erase, erase_of_expr e hv]
  | .expr span e, s', h => by
    obtain ⟨v, hv, rfl⟩ := stmt_expr_ok.1 h
    simp only [Stmt.erase, erase_of_expr e hv]
  | .ret span e, s', h => by
    obtain ⟨wanted, v, -, hv, -, rfl⟩ := stmt_ret_ok.1 h
    simp only [Stmt.erase, erase_of_expr e hv]
  | .while span c body, s', h => by
    obtain ⟨c', body', hc, -, hb, rfl⟩ := stmt_while_ok.1 h
    simp only [Stmt.erase, erase_of_expr c hc, erase_of_stmts body hb]
  | .cond span c body clauses otherwise, s', h => by
    obtain ⟨c', body', clauses', otherwise', hc, -, hb, hl, ho, rfl⟩ := stmt_cond_ok.1 h
    simp only [Stmt.erase, erase_of_expr c hc, erase_of_stmts body hb, erase_of_elifs clauses hl,
      erase_of_stmts otherwise ho]
  | .unknown span, s', h => by
    cases h
    rfl

theorem erase_of_stmts : (ss : List Stmt) → {ss' : List Stmt} →
    stmts env ss = .ok ss' → eraseAll ss' = eraseAll ss
  | [], _, h => by
    cases h
    rfl
  | s :: rest, _, h => by
    obtain ⟨s', rest', hs, hr, rfl⟩ := stmts_cons_ok.1 h
    simp only [eraseAll, erase_of_stmt s hs, erase_of_stmts rest hr]

theorem erase_of_elifs : (es : List Elif) → {es' : List Elif} →
    elifs env es = .ok es' → eraseElifs es' = eraseElifs es
  | [], _, h => by
    cases h
    rfl
  | .mk span c body :: rest, _, h => by
    obtain ⟨c', body', rest', hc, -, hb, hr, rfl⟩ := elifs_cons_ok.1 h
    simp only [eraseElifs, erase_of_expr c hc, erase_of_stmts body hb, erase_of_elifs rest hr]

end

theorem erase_of_funcDef (h : funcDef (globalEnv p) f = .ok f') : f'.erase = f.erase := by
  obtain ⟨-, -, -, body, hb, rfl⟩ := funcDef_ok.1 h
  simp only [FuncDef.erase, erase_of_stmts f.body hb, List.map_map]
  rfl

variable (env : Env)
include env

mutual

theorem sharedExpr_eq : (e : Expr) → e.All Expr.HasForm → sharedExpr env e = e
  | .literal l, _ => rfl
  | .name span t x s, _ => rfl
  | .unary span t op e, h => by simp only [sharedExpr, sharedExpr_eq e h.2]
  | .binary span t op lhs rhs, h => by
    simp [sharedExpr, sharedExpr_eq lhs h.2.1, sharedExpr_eq rhs h.2.2]
  | .call span t f args, h => by
    have same (params : List (Option Ty)) := sharedArgs_eq params args h.2
    rw [sharedExpr.eq_def]
    match args, h with
    | [], _ => grind
    | [e], h =>
      have one := sharedExpr_eq e h.2.1
      grind
    | _ :: _ :: _, _ => grind

theorem sharedArgs_eq : (params : List (Option Ty)) → (args : List Expr) →
    Expr.AllIn Expr.HasForm args → sharedArgs env params args = args
  | [], _, _ => by rw [sharedArgs]; nofun
  | _ :: _, [], _ => by rw [sharedArgs]; nofun
  | wanted :: params, e :: rest, h => by
    simp [sharedArgs, sharedExpr_eq e h.1, sharedArgs_eq params rest h.2]

end

mutual

theorem sharedStmt_eq : (s : Stmt) → s.All Expr.HasForm (fun _ => True) →
    sharedStmt env s = s
  | .pass span, _ => rfl
  | .assign span x scope e, h => by simp [sharedStmt, sharedExpr_eq env e h.2]
  | .expr span e, h => by simp only [sharedStmt, sharedExpr_eq env e h.2]
  | .ret span e, h => by simp [sharedStmt, sharedExpr_eq env e h.2]
  | .while span c body, h => by
    simp [sharedStmt, sharedExpr_eq env c h.2.1, sharedStmts_eq body h.2.2]
  | .cond span c body clauses otherwise, h => by
    obtain ⟨-, hc, hb, hl, ho⟩ := h
    simp [sharedStmt, sharedExpr_eq env c hc, sharedStmts_eq body hb,
      sharedElifs_eq clauses hl, sharedStmts_eq otherwise ho]
  | .unknown span, _ => rfl

theorem sharedStmts_eq : (ss : List Stmt) →
    AllIn Expr.HasForm (fun _ => True) ss → sharedStmts env ss = ss
  | [], _ => rfl
  | s :: rest, h => by
    simp [sharedStmts, sharedStmt_eq s h.1, sharedStmts_eq rest h.2]

theorem sharedElifs_eq : (es : List Elif) →
    Stmt.AllInElifs Expr.HasForm (fun _ => True) es → sharedElifs env es = es
  | [], _ => rfl
  | .mk span c body :: rest, h => by
    simp [sharedElifs, sharedElif, sharedExpr_eq env c h.1, sharedStmts_eq body h.2.1,
      sharedElifs_eq rest h.2.2]

end

theorem sharedFunc_eq (f : FuncDef) (h : AllIn Expr.HasForm (fun _ => True) f.body) :
    sharedFunc env f = f := by
  unfold sharedFunc
  split
  · rw [sharedStmts_eq _ f.body h]
  · rfl

theorem sharedFuncs_eq (fs : List FuncDef)
    (h : ∀ f ∈ fs, AllIn Expr.HasForm (fun _ => True) f.body) : sharedFuncs env fs = fs := by
  induction fs with
  | nil => rfl
  | cons f rest ih =>
    simp [sharedFuncs, sharedFunc_eq env f (h f List.mem_cons_self),
      ih fun f hf => h f (List.mem_cons_of_mem _ hf)]

end Typing

open Typing

namespace Program

variable {p t : Program}

theorem check_erase (p : Program) : p.erase.check = p.check := by
  simp only [check, erase, declare_erase, varDecls_erase, funcDefs_erase, stmts_erase]

theorem erase_of_check (h : p.check = .ok t) : t.erase = p.erase := by
  obtain ⟨-, -, -, -, -, fs, ss, hf, hs, rfl⟩ := check_ok.1 h
  have funcs : fs.map FuncDef.erase = p.funcs.map FuncDef.erase :=
    forall₂_map_eq _ _ hf fun f _ f' hff => erase_of_funcDef hff
  simp only [erase, funcs, erase_of_stmts p.stmts hs, List.map_map]
  rfl

theorem HasForms.afterCheck_eq (h : p.HasForms) : p.afterCheck = p := by
  unfold afterCheck
  split
  · rfl
  · simp [sharedFuncs_eq _ p.funcs h.funcs, sharedStmts_eq _ p.stmts h.stmts]

end Program

/-- Checking a program and checking it without its types and scopes gives the same result. The checked
program is the given one but for types and scopes, and is itself accepted as it stands. The given one
is left as it was, unless it has an expression of a form that the language does not have. -/
theorem check_annotates (p : Program) :
    p.erase.check = p.check ∧ (∀ t, p.check = .ok t → t.erase = p.erase ∧ t.check = .ok t) ∧
      (p.HasForms → p.afterCheck = p) := by
  refine ⟨p.check_erase, fun t h => ?_, Program.HasForms.afterCheck_eq⟩
  have same := Program.erase_of_check h
  refine ⟨same, ?_⟩
  calc t.check = t.erase.check := t.check_erase.symm
    _ = p.erase.check := by rw [same]
    _ = p.check := p.check_erase
    _ = .ok t := h

theorem factorial_annotated : factorial.HasForms ∧ factorial.afterCheck = factorial ∧
    ∃ t, factorial.check = .ok t ∧ t.erase = factorial.erase ∧ t.check = .ok t := by
  have forms : factorial.HasForms := by
    constructor <;> simp [factorial, AllIn, Stmt.All, Stmt.AllInElifs, Expr.All, Expr.AllIn,
      Expr.HasForm]
  obtain ⟨-, checked, left⟩ := check_annotates factorial
  exact ⟨forms, left forms, _, rfl, checked _ rfl⟩

end WordScript
