import WordScript.Proofs.Acceptance

/-! Where checking stops.

A pass over a tree is safe if it never lacks a part of the tree and stops only at places of a kind.
Checking is safe for every kind that has all the places of the program, and keeps the places. -/
namespace WordScript

/-- A pass that gives what is asked for or stops at a place of a kind. -/
def Safe {ε α : Type} (S : Span → Prop) (q : α → Prop) : Except (Stop ε) α → Prop
  | .ok a => q a
  | .error (.fault span _) => S span
  | .error .crash => False

namespace Safe

variable {ε α β : Type} {S : Span → Prop} {q : α → Prop} {x : Except (Stop ε) α}

theorem bind {p : β → Prop} (h : Safe S q x) (hf : ∀ a, q a → Safe S p (f a)) :
    Safe S p (x >>= f) := by
  rcases x with (⟨span, cause⟩ | _) | a
  · exact h
  · exact h
  · exact hf a h

theorem cases (h : Safe S q x) :
    (∃ a, x = .ok a ∧ q a) ∨ ∃ span cause, x = .error (.fault span cause) ∧ S span := by
  rcases x with (⟨span, cause⟩ | _) | a
  · exact .inr ⟨span, cause, rfl, h⟩
  · exact h.elim
  · exact .inl ⟨a, rfl, h⟩

end Safe

section both

variable {c c' : Expr → Prop} {d d' : Stmt → Prop}

mutual

theorem Expr.All.and : (e : Expr) → e.All c → e.All c' → e.All fun e => c e ∧ c' e
  | .literal _, h, h' => ⟨h, h'⟩
  | .name _ _ _ _, h, h' => ⟨h, h'⟩
  | .call _ _ _ args, h, h' => ⟨⟨h.1, h'.1⟩, Expr.AllIn.and args h.2 h'.2⟩
  | .binary _ _ _ lhs rhs, h, h' =>
    ⟨⟨h.1, h'.1⟩, Expr.All.and lhs h.2.1 h'.2.1, Expr.All.and rhs h.2.2 h'.2.2⟩
  | .unary _ _ _ e, h, h' => ⟨⟨h.1, h'.1⟩, Expr.All.and e h.2 h'.2⟩
  | .unknown _ _, h, h' => ⟨h, h'⟩

theorem Expr.AllIn.and : (es : List Expr) → Expr.AllIn c es → Expr.AllIn c' es →
    Expr.AllIn (fun e => c e ∧ c' e) es
  | [], _, _ => trivial
  | e :: rest, h, h' => ⟨Expr.All.and e h.1 h'.1, Expr.AllIn.and rest h.2 h'.2⟩

end

mutual

theorem Stmt.All.and : (s : Stmt) → s.All c d → s.All c' d' →
    s.All (fun e => c e ∧ c' e) fun s => d s ∧ d' s
  | .pass _, h, h' => ⟨h, h'⟩
  | .assign _ _ _ e, h, h' => ⟨⟨h.1, h'.1⟩, Expr.All.and e h.2 h'.2⟩
  | .expr _ e, h, h' => ⟨⟨h.1, h'.1⟩, Expr.All.and e h.2 h'.2⟩
  | .ret _ e, h, h' => ⟨⟨h.1, h'.1⟩, Expr.All.and e h.2 h'.2⟩
  | .while _ test body, h, h' =>
    ⟨⟨h.1, h'.1⟩, Expr.All.and test h.2.1 h'.2.1, Stmt.AllIn.and body h.2.2 h'.2.2⟩
  | .cond _ test body clauses otherwise, h, h' =>
    ⟨⟨h.1, h'.1⟩, Expr.All.and test h.2.1 h'.2.1, Stmt.AllIn.and body h.2.2.1 h'.2.2.1,
      Stmt.AllInElifs.and clauses h.2.2.2.1 h'.2.2.2.1,
      Stmt.AllIn.and otherwise h.2.2.2.2 h'.2.2.2.2⟩
  | .unknown _, h, h' => ⟨h, h'⟩

theorem Stmt.AllIn.and : (ss : List Stmt) → Stmt.AllIn c d ss → Stmt.AllIn c' d' ss →
    Stmt.AllIn (fun e => c e ∧ c' e) (fun s => d s ∧ d' s) ss
  | [], _, _ => trivial
  | s :: rest, h, h' => ⟨Stmt.All.and s h.1 h'.1, Stmt.AllIn.and rest h.2 h'.2⟩

theorem Stmt.AllInElifs.and : (es : List Elif) → Stmt.AllInElifs c d es →
    Stmt.AllInElifs c' d' es →
    Stmt.AllInElifs (fun e => c e ∧ c' e) (fun s => d s ∧ d' s) es
  | [], _, _ => trivial
  | .mk _ test body :: rest, h, h' =>
    ⟨Expr.All.and test h.1 h'.1, Stmt.AllIn.and body h.2.1 h'.2.1,
      Stmt.AllInElifs.and rest h.2.2 h'.2.2⟩

end

end both

def Elif.span : Elif → Span
  | .mk span _ _ => span

/-- The places of a statement, as far as they can be told without looking inside. -/
def Stmt.SpannedNode (S : Span → Prop) : Stmt → Prop
  | .cond span _ _ clauses _ => S span ∧ ∀ e ∈ clauses, S e.span
  | s => S s.span

structure VarDecl.Spanned (S : Span → Prop) (v : VarDecl) : Prop where
  whole : S v.span
  init : S v.init.span

/-- All places of a list of statements are of a kind. -/
def Stmt.SpannedIn (S : Span → Prop) (ss : List Stmt) : Prop :=
  Stmt.AllIn (S ·.span) (Stmt.SpannedNode S) ss

structure FuncDef.Spanned (S : Span → Prop) (f : FuncDef) : Prop where
  whole : S f.span
  params : ∀ a ∈ f.params, S a.span
  locals : ∀ v ∈ f.locals, v.Spanned S
  body : Stmt.SpannedIn S f.body

/-- All places of a program are of a kind. -/
structure Program.Spanned (S : Span → Prop) (p : Program) : Prop where
  vars : ∀ v ∈ p.vars, v.Spanned S
  funcs : ∀ f ∈ p.funcs, f.Spanned S
  stmts : Stmt.SpannedIn S p.stmts

section erase

variable {S : Span → Prop}

theorem span_erase (e : Expr) : e.erase.span = e.span := by
  cases e <;> rfl

theorem span_eraseElifs (es : List Elif) :
    (Stmt.eraseElifs es).map Elif.span = es.map Elif.span := by
  induction es with
  | nil => rfl
  | cons e es ih =>
    cases e with
    | mk span c body => simp [Stmt.eraseElifs, Elif.span, ih]

theorem spannedNode_erase (s : Stmt) : s.erase.SpannedNode S ↔ s.SpannedNode S := by
  cases s with
  | cond span c body clauses otherwise =>
    have same : (∀ e ∈ Stmt.eraseElifs clauses, S e.span) ↔ ∀ e ∈ clauses, S e.span := by
      rw [← List.forall_mem_map, span_eraseElifs, List.forall_mem_map]
    exact and_congr Iff.rfl same
  | _ => exact Iff.rfl

theorem spannedIn_erase (ss : List Stmt) :
    Stmt.SpannedIn S (Stmt.eraseAll ss) ↔ Stmt.SpannedIn S ss :=
  Stmt.allIn_erase (fun e => by rw [span_erase]) spannedNode_erase ss

theorem VarDecl.spanned_erase (v : VarDecl) : v.erase.Spanned S ↔ v.Spanned S :=
  ⟨fun h => ⟨h.whole, h.init⟩, fun h => ⟨h.whole, h.init⟩⟩

theorem FuncDef.spanned_erase (f : FuncDef) : f.erase.Spanned S ↔ f.Spanned S := by
  constructor
  · intro h
    refine ⟨h.whole, h.params, fun v hv => ?_, (spannedIn_erase _).1 h.body⟩
    exact v.spanned_erase.1 (h.locals _ (List.mem_map_of_mem hv))
  · intro h
    refine ⟨h.whole, h.params, fun v hv => ?_, (spannedIn_erase _).2 h.body⟩
    obtain ⟨u, hu, rfl⟩ := List.mem_map.1 hv
    exact u.spanned_erase.2 (h.locals u hu)

theorem Program.spanned_erase (p : Program) : p.erase.Spanned S ↔ p.Spanned S := by
  constructor
  · intro h
    refine ⟨fun v hv => ?_, fun f hf => ?_, (spannedIn_erase _).1 h.stmts⟩
    · exact v.spanned_erase.1 (h.vars _ (List.mem_map_of_mem hv))
    · exact f.spanned_erase.1 (h.funcs _ (List.mem_map_of_mem hf))
  · intro h
    refine ⟨fun v hv => ?_, fun f hf => ?_, (spannedIn_erase _).2 h.stmts⟩
    · obtain ⟨u, hu, rfl⟩ := List.mem_map.1 hv
      exact u.spanned_erase.2 (h.vars u hu)
    · obtain ⟨g, hg, rfl⟩ := List.mem_map.1 hf
      exact g.spanned_erase.2 (h.funcs g hg)

theorem check_spanned {p : Program} (hk : p.Known) (h : p.check = .ok t) (spanned : p.Spanned S) :
    t.Spanned S := by
  rw [← Program.spanned_erase, Rules.check_same hk h, Program.spanned_erase]
  exact spanned

end erase

namespace Typing

variable {S : Span → Prop} {env : Env}

def Fit (S : Span → Prop) (e : Expr) : Prop := e.KnownNode ∧ S e.span

def FitStmt (S : Span → Prop) (s : Stmt) : Prop := s.KnownNode ∧ s.SpannedNode S

theorem text_of_known {op : UnaryOp} (h : op.Known) : ∃ x, op.text? = some x := by
  cases op with
  | other _ => exact h.elim
  | _ => exact ⟨_, rfl⟩

theorem binaryType_safe (hk : op.Known) (hs : S span) :
    Safe S (fun _ => True) (binaryType span op lhs rhs) := by
  have text : ∃ x, op.text? = some x := by
    cases op with
    | other _ => exact hk.elim
    | _ => exact ⟨_, rfl⟩
  obtain ⟨x, hx⟩ := text
  simp only [binaryType, hx]
  repeat' split
  all_goals first | exact trivial | exact hs

mutual

theorem expr_safe : (e : Expr) → e.All (Fit S) → Safe S (fun _ => True) (expr env e)
  | .literal _, _ => trivial
  | .name span _ x _, h => by
    rw [expr]
    split
    · exact trivial
    · exact h.2
  | .unary span _ op operand, h => by
    refine (expr_safe operand h.2).bind fun e _ => ?_
    split
    · exact trivial
    · obtain ⟨x, hx⟩ := text_of_known h.1.1
      rw [hx]
      exact h.1.2
  | .binary span _ op lhs rhs, h => by
    refine (expr_safe lhs h.2.1).bind fun l _ => (expr_safe rhs h.2.2).bind fun r _ => ?_
    exact (binaryType_safe h.1.1 h.1.2).bind fun _ _ => trivial
  | .call span _ f args, h => by
    unfold expr
    split
    · split
      · exact (expr_safe _ h.2.1).bind fun _ _ => trivial
      · exact h.1.2
    · split
      · exact h.1.2
      · split
        · exact (arguments_safe f 1 _ args h.2).bind fun _ _ => trivial
        · exact h.1.2
  | .unknown _ _, h => h.1.elim

theorem arguments_safe (f : String) (index : Nat) (wanted : List (Option Ty)) :
    (es : List Expr) → Expr.AllIn (Fit S) es →
      Safe S (fun _ => True) (arguments env f index wanted es)
  | [], _ => by
    cases wanted <;> exact trivial
  | e :: rest, h => by
    cases wanted with
    | nil => exact trivial
    | cons type wanted =>
      refine (expr_safe e h.1).bind fun a _ => ?_
      split
      · exact (arguments_safe f (index + 1) wanted rest h.2).bind fun _ _ => trivial
      · exact h.1.self.2

end

theorem condition_safe (h : e.All (Fit S)) : Safe S (fun _ => True) (condition env what e) := by
  refine (expr_safe e h).bind fun c _ => ?_
  split
  · exact trivial
  · exact h.self.2

mutual

theorem stmt_safe : (s : Stmt) → s.All (Fit S) (FitStmt S) → Safe S (fun _ => True) (stmt env s)
  | .pass _, _ => trivial
  | .assign span x _ e, h => by
    rw [stmt]
    split
    · exact h.1.2
    · refine (expr_safe e h.2).bind fun a _ => ?_
      split
      · exact trivial
      · exact h.2.self.2
  | .expr span e, h => by
    exact (expr_safe e h.2).bind fun _ _ => trivial
  | .ret span e, h => by
    rw [stmt]
    split
    · exact h.1.2
    · refine (expr_safe e h.2).bind fun a _ => ?_
      split
      · exact trivial
      · exact h.2.self.2
  | .while span c body, h => by
    refine (condition_safe h.2.1).bind fun _ _ => ?_
    exact (stmts_safe body h.2.2).bind fun _ _ => trivial
  | .cond span c body clauses otherwise, h => by
    refine (condition_safe h.2.1).bind fun _ _ => (stmts_safe body h.2.2.1).bind fun _ _ => ?_
    refine (elifs_safe clauses h.2.2.2.1).bind fun _ _ => ?_
    exact (stmts_safe otherwise h.2.2.2.2).bind fun _ _ => trivial
  | .unknown _, h => h.1.elim

theorem stmts_safe : (ss : List Stmt) → Stmt.AllIn (Fit S) (FitStmt S) ss →
    Safe S (fun _ => True) (stmts env ss)
  | [], _ => trivial
  | s :: rest, h => by
    exact (stmt_safe s h.1).bind fun _ _ => (stmts_safe rest h.2).bind fun _ _ => trivial

theorem elifs_safe : (es : List Elif) → Stmt.AllInElifs (Fit S) (FitStmt S) es →
    Safe S (fun _ => True) (elifs env es)
  | [], _ => trivial
  | .mk span c body :: rest, h => by
    have first : Safe S (fun _ => True) (do
        let cond ← condition env "elif" c
        return Elif.mk span cond (← stmts env body)) :=
      (condition_safe h.1).bind fun _ _ => (stmts_safe body h.2.1).bind fun _ _ => trivial
    exact first.bind fun _ _ => (elifs_safe rest h.2.2).bind fun _ _ => trivial

end

theorem varDecl_safe (h : v.Spanned S) : Safe S (fun _ => True) (varDecl env scope v) := by
  unfold varDecl
  split
  · exact h.whole
  · simp only
    split
    · exact trivial
    · exact h.init

theorem varDecls_safe (h : ∀ v ∈ vs, v.Spanned S) :
    Safe S (fun _ => True) (varDecls env scope vs) := by
  induction vs generalizing env with
  | nil => exact trivial
  | cons v vs ih =>
    refine (varDecl_safe (h v (by simp))).bind fun _ _ => ?_
    exact (ih fun u hu => h u (by simp [hu])).bind fun _ _ => trivial

theorem params_safe (h : ∀ a ∈ ps, S a.span) : Safe S (fun _ => True) (params env f ps) := by
  induction ps generalizing env with
  | nil => exact trivial
  | cons a ps ih =>
    rw [params]
    split
    · exact h a (by simp)
    · exact ih fun b hb => h b (by simp [hb])

theorem allIn_fit (hk : Stmt.AllIn Expr.KnownNode Stmt.KnownNode ss) (hs : Stmt.SpannedIn S ss) :
    Stmt.AllIn (Fit S) (FitStmt S) ss := Stmt.AllIn.and ss hk hs

theorem funcDef_safe (hk : f.Known) (hs : f.Spanned S) :
    Safe S (fun _ => True) (funcDef env f) := by
  refine (params_safe hs.params).bind fun _ _ => (varDecls_safe hs.locals).bind fun _ _ => ?_
  refine (stmts_safe f.body (allIn_fit hk.body hs.body)).bind fun _ _ => ?_
  split
  · exact hs.whole
  · exact trivial

theorem funcDefs_safe (hk : ∀ f ∈ fs, f.Known) (hs : ∀ f ∈ fs, f.Spanned S) :
    Safe S (fun _ => True) (funcDefs env fs) := by
  induction fs with
  | nil => exact trivial
  | cons f fs ih =>
    refine (funcDef_safe (hk f (by simp)) (hs f (by simp))).bind fun _ _ => ?_
    exact (ih (fun g hg => hk g (by simp [hg])) fun g hg => hs g (by simp [hg])).bind
      fun _ _ => trivial

theorem declare_safe (h : ∀ f ∈ fs, f.Spanned S) : Safe S (fun _ => True) (declare env fs) := by
  induction fs generalizing env with
  | nil => exact trivial
  | cons f fs ih =>
    rw [declare]
    split
    · exact (h f (by simp)).whole
    · split
      · exact (h f (by simp)).whole
      · exact ih fun g hg => h g (by simp [hg])

end Typing

/-- Checking a program of known nodes gives a program with the same places, or stops at one of
them. -/
theorem Program.check_safe {p : Program} (hk : p.Known) (hs : p.Spanned S) :
    Safe S (Program.Spanned S) p.check := by
  have safe : Safe S (fun _ => True) p.check := by
    refine (Typing.declare_safe hs.funcs).bind fun _ _ => ?_
    refine (Typing.varDecls_safe hs.vars).bind fun _ _ => ?_
    refine (Typing.funcDefs_safe hk.funcs hs.funcs).bind fun _ _ => ?_
    exact (Typing.stmts_safe p.stmts (Typing.allIn_fit hk.stmts hs.stmts)).bind fun _ _ => trivial
  cases h : p.check with
  | ok t => exact check_spanned hk h hs
  | error e =>
    rw [h] at safe
    cases e with
    | fault span cause => exact safe
    | crash => exact safe

end WordScript
