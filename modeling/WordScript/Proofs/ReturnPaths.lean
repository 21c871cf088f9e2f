import WordScript.Proofs.Acceptance
import WordScript.Proofs.Execution
import WordScript.Proofs.GraphFlow
import WordScript.Proofs.GraphModule

/-! Bodies that return.

Checking says of a block whether it returns on every path. The block graph of a body that does is
left with an ended block, and that of any other body is not; stack code of such a body never runs
on to what follows it. So the value that a function yields after its statements is never used
where checking asks for a return. -/
namespace WordScript

namespace Typing

variable {env : Env}

mutual

theorem stmt_returns : (s : Stmt) → ∀ {s'}, stmt env s = .ok s' → s'.returns = s.returns
  | .pass span, s', h => by
    cases h
    rfl
  | .assign span x scope e, s', h => by
    obtain ⟨b, v, -, -, -, rfl⟩ := stmt_assign_ok.1 h
    rfl
  | .expr span e, s', h => by
    obtain ⟨v, -, rfl⟩ := stmt_expr_ok.1 h
    rfl
  | .ret span e, s', h => by
    obtain ⟨wanted, v, -, -, -, rfl⟩ := stmt_ret_ok.1 h
    rfl
  | .while span c body, s', h => by
    obtain ⟨c', body', -, -, -, rfl⟩ := stmt_while_ok.1 h
    rfl
  | .cond span c body clauses otherwise, s', h => by
    obtain ⟨c', body', clauses', otherwise', -, -, hb, hl, ho, rfl⟩ := stmt_cond_ok.1 h
    simp only [Stmt.returns, stmts_anyReturns body hb, elifs_everyReturns clauses hl,
      stmts_anyReturns otherwise ho]
  | .unknown span, s', h => by
    cases h
    rfl

theorem stmts_anyReturns : (ss : List Stmt) → ∀ {ss'}, stmts env ss = .ok ss' →
    Stmt.anyReturns ss' = Stmt.anyReturns ss
  | [], ss', h => by
    cases h
    rfl
  | s :: rest, ss', h => by
    obtain ⟨s', rest', hs, hr, rfl⟩ := stmts_cons_ok.1 h
    simp only [Stmt.anyReturns, stmt_returns s hs, stmts_anyReturns rest hr]

theorem elifs_everyReturns : (es : List Elif) → ∀ {es'}, elifs env es = .ok es' →
    Stmt.everyReturns es' = Stmt.everyReturns es
  | [], es', h => by
    cases h
    rfl
  | .mk span c body :: rest, es', h => by
    obtain ⟨c', body', rest', -, -, hb, hr, rfl⟩ := elifs_cons_ok.1 h
    simp only [Stmt.everyReturns, Elif.returns, stmts_anyReturns body hb,
      elifs_everyReturns rest hr]

end

end Typing

namespace Rules

variable {p : Program}

mutual

theorem returns_eq_false : (s : Stmt) → StmtTyped p none s → s.returns = false
  | .pass span, _ => rfl
  | .assign span x scope e, _ => rfl
  | .expr span e, _ => rfl
  | .ret span e, .ret within _ _ => nomatch within
  | .while span e body, _ => rfl
  | .cond span e body clauses otherwise, .cond _ inside _ _ => by
    simp [Stmt.returns, anyReturns_eq_false body inside]
  | .unknown span, _ => rfl

theorem anyReturns_eq_false : (ss : List Stmt) → BlockTyped p none ss → Stmt.anyReturns ss = false
  | [], _ => rfl
  | s :: rest, .cons head tail => by
    simp [Stmt.anyReturns, returns_eq_false s head, anyReturns_eq_false rest tail,
      ]

end

end Rules

namespace BlockGraph

/-- Nothing returns at the top level, so that its code can be left at its end. -/
theorem stmts_stay_open (typed : Rules.BlockTyped p none ss) (h : stmts ctx ss b = .ok ((), c))
    (hs : b.Sound) (ho : b.Open) : c.Open := by
  rw [← Body.isOpen_iff, (stmts_woven ss h hs ho).isOpen, Rules.anyReturns_eq_false ss typed]
  rfl

end BlockGraph

namespace Machine

/-- Instructions that never run on to what follows them, wherever they are started. -/
def NeverFalls (is : List Sexpr) : Prop :=
  ∀ env fuel depth s t, (seq env fuel depth is).run s ≠ (.ok .next, t)

variable {is js : List Sexpr}

theorem run_resume_next (h : (resume rest c).run s = (.ok .next, t)) :
    c = .next ∧ rest.run s = (.ok .next, t) := by
  cases c with
  | next => exact ⟨rfl, h⟩
  | branch l => cases h
  | ret => cases h

theorem NeverFalls.append_left (h : NeverFalls is) (js : List Sexpr) : NeverFalls (is ++ js) := by
  intro env fuel depth s t ht
  rw [seq_append_eq] at ht
  obtain ⟨c, u, hu, ht⟩ := run_bind_ok.1 ht
  obtain ⟨rfl, -⟩ := run_resume_next ht
  exact h env fuel depth s u hu

theorem NeverFalls.append_right (is : List Sexpr) (h : NeverFalls js) : NeverFalls (is ++ js) := by
  intro env fuel depth s t ht
  rw [seq_append_eq] at ht
  obtain ⟨c, u, -, ht⟩ := run_bind_ok.1 ht
  exact h env _ depth u t (run_resume_next ht).2

theorem NeverFalls.of_instr
    (h : ∀ env fuel depth s t, (instr env fuel depth i).run s ≠ (.ok .next, t)) :
    NeverFalls [i] := by
  intro env fuel depth s t ht
  obtain ⟨k, c, u, -, hu, ht⟩ := seq_cons_ok ht
  obtain ⟨rfl, -⟩ := run_resume_next ht
  exact h env k depth s u hu

theorem return_neverFalls : NeverFalls [StackCode.form "return" []] := by
  refine .of_instr fun env fuel depth s t h => ?_
  rcases (return_settles env depth (s := s)).2 fuel with hr | hr
  · rw [hr] at h
    cases h
  · rw [h] at hr
    cases hr

theorem cond_neverFalls (hy : NeverFalls yes) (hn : NeverFalls no) :
    NeverFalls [StackCode.form "if" (StackCode.arms yes no)] := by
  refine .of_instr fun env fuel depth s t ht => ?_
  obtain ⟨k, v, u, -, -, ht⟩ := instr_cond_ok ht
  by_cases hv : v = 0
  · rw [if_pos hv] at ht
    exact hn env k depth u t ht
  · rw [if_neg hv] at ht
    exact hy env k depth u t ht

end Machine

namespace StackCode

open Machine (NeverFalls)

variable {ctx : Context}

theorem conditional_neverFalls {cond : List Instr} (hy : NeverFalls (Instr.sexprs thenArm))
    (hn : NeverFalls (Instr.sexprs elseArm)) :
    NeverFalls (Instr.sexprs (cond ++ [.cond thenArm elseArm])) := by
  rw [Instr.sexprs_append]
  exact .append_right _ (Machine.cond_neverFalls hy hn)

mutual

theorem stmt_neverFalls : (s : Stmt) → ∀ {n code}, stmt ctx n s = .ok code → s.returns = true →
    NeverFalls (Instr.sexprs code)
  | .ret span e, n, code, h, _ => by
    obtain ⟨c, -, rfl⟩ := stmt_ret_ok.1 h
    rw [Instr.sexprs_append]
    exact .append_right _ Machine.return_neverFalls
  | .cond span c body clauses otherwise, n, code, h, hr => by
    obtain ⟨cond, thenArm, elseArm, -, ht, he, rfl⟩ := stmt_cond_ok.1 h
    simp only [Stmt.returns, Bool.and_eq_true] at hr
    obtain ⟨⟨inside, others⟩, last⟩ := hr
    exact conditional_neverFalls (stmts_neverFall body ht inside)
      (clauses_neverFall clauses (fun hl => stmts_neverFall otherwise hl last) he others)

theorem stmts_neverFall : (ss : List Stmt) → ∀ {n code}, stmts ctx n ss = .ok code →
    Stmt.anyReturns ss = true → NeverFalls (Instr.sexprs code)
  | s :: rest, n, code, h, hr => by
    obtain ⟨first, others, hf, ho, rfl⟩ := stmts_cons_ok.1 h
    rw [Instr.sexprs_append]
    rcases Bool.or_eq_true_iff.1 hr with hr | hr
    · exact (stmt_neverFalls s hf hr).append_left _
    · exact .append_right _ (stmts_neverFall rest ho hr)

theorem clauses_neverFall : (es : List Elif) → ∀ {n code last},
    (∀ {lastCode}, last = .ok lastCode → NeverFalls (Instr.sexprs lastCode)) →
    elifs ctx n last es = .ok code → Stmt.everyReturns es = true → NeverFalls (Instr.sexprs code)
  | [], n, code, last, hlast, h, _ => hlast h
  | .mk span c body :: rest, n, code, last, hlast, h, hr => by
    obtain ⟨cond, thenArm, elseArm, -, ht, he, rfl⟩ := elifs_cons_ok.1 h
    obtain ⟨inside, others⟩ := Bool.and_eq_true_iff.1 hr
    exact conditional_neverFalls (stmts_neverFall body ht inside)
      (clauses_neverFall rest hlast he others)

end

end StackCode

section functions

variable {mode : Arithmetic} {p : Program} {f : FuncDef}

end functions

end WordScript
