import Mathlib.Tactic.Common
import WordScript.Proofs.TypeRules
import WordScript.Typing

/-! Checking expressions and statements against the typing rules.

The environment of a place matches the rules there when it gives the same types and scopes to
names and the same signatures to functions. In a matching environment checking an expression or a
statement succeeds just when the rules type it, and gives it the type of the rules. -/
namespace WordScript
namespace Typing

variable {env : Env} {span : Span} {t : Option Ty}
variable {e' e c : Expr} {s' : Stmt} {body : List Stmt}

section

-- The equations are derived here, once for all proofs below.
attribute [local simp] expr arguments stmt stmts elif elifs

end

theorem expr_literal_ok : expr env (.literal l) = .ok e' ↔ e' = .literal (literal l) := by
  simp [expr, eq_comm]

theorem expr_name_ok :
    expr env (.name span t x s) = .ok e' ↔
      ∃ b, env.var? x = some b ∧ e' = .name span b.type x b.scope := by
  cases h : env.var? x with
  | none => simp [expr, h, fault]
  | some b => simp [expr, h, eq_comm]

theorem expr_unary_ok :
    expr env (.unary span t op e) = .ok e' ↔
      ∃ o, expr env e = .ok o ∧ o.type = unaryType op ∧
        e' = .unary span (unaryType op) op o := by
  simp only [expr, bind_eq_ok]
  refine exists_congr fun o => and_congr_right fun _ => ?_
  by_cases h : o.type = unaryType op
  · rw [if_pos h, pure_eq_ok]
    simp [h, eq_comm]
  · simp [h, bind_eq_ok, fault]

theorem expr_binary_ok :
    expr env (.binary span t op lhs rhs) = .ok e' ↔
      ∃ l r type, expr env lhs = .ok l ∧ expr env rhs = .ok r ∧
        binaryType span op l.type r.type = .ok type ∧ e' = .binary span type op l r := by
  simp only [expr, bind_eq_ok, pure_eq_ok]
  constructor
  · rintro ⟨l, hl, r, hr, type, ht, rfl⟩
    exact ⟨l, r, type, hl, hr, ht, rfl⟩
  · rintro ⟨l, r, type, hl, hr, ht, rfl⟩
    exact ⟨l, hl, r, hr, type, ht, rfl⟩

theorem expr_print_ok :
    expr env (.call span t "print" args) = .ok e' ↔
      ∃ a a', args = [a] ∧ expr env a = .ok a' ∧
        e' = .call span (some .unit) "print" [a'] := by
  rcases args with _ | ⟨a, _ | ⟨b, rest⟩⟩
  · simp [expr, fault]
  · simp only [expr, if_pos, bind_eq_ok, pure_eq_ok]
    constructor
    · rintro ⟨a', ha, rfl⟩
      exact ⟨a, a', rfl, ha, rfl⟩
    · rintro ⟨_, a', h, ha, rfl⟩
      cases h
      exact ⟨a', ha, rfl⟩
  · simp [expr, fault]

theorem expr_call_ok (hf : f ≠ "print") :
    expr env (.call span t f args) = .ok e' ↔
      ∃ sig args', env.func? f = some sig ∧ args.length = sig.params.length ∧
        arguments env f 1 sig.params args = .ok args' ∧
        e' = .call span sig.returns f args' := by
  rw [expr.eq_def]
  simp only [if_neg hf]
  cases h : env.func? f with
  | none => simp [fault]
  | some sig =>
    by_cases hl : args.length = sig.params.length
    · simp only [if_pos hl, bind_eq_ok, pure_eq_ok]
      constructor
      · rintro ⟨args', ha, rfl⟩
        exact ⟨sig, args', rfl, hl, ha, rfl⟩
      · rintro ⟨_, args', hs, _, ha, rfl⟩
        cases hs
        exact ⟨args', ha, rfl⟩
    · simp [fault, hl]

theorem arguments_cons_ok {params : List (Option Ty)} :
    arguments env f i (wanted :: params) (e :: rest) = .ok args' ↔
      ∃ a rest', expr env e = .ok a ∧ a.type = wanted ∧
        arguments env f (i + 1) params rest = .ok rest' ∧ args' = a :: rest' := by
  simp only [arguments, bind_eq_ok]
  constructor
  · rintro ⟨a, ha, h⟩
    split at h
    · rename_i hw
      obtain ⟨rest', hr, h⟩ := bind_eq_ok.1 h
      exact ⟨a, rest', ha, hw, hr, (pure_eq_ok.1 h).symm⟩
    · simp [fault] at h
  · rintro ⟨a, rest', ha, hw, hr, rfl⟩
    exact ⟨a, ha, by rw [if_pos hw]; exact bind_eq_ok.2 ⟨rest', hr, rfl⟩⟩

theorem binaryType_ok :
    binaryType span op lhs rhs = .ok type ↔
      (op ∈ [.add, .sub, .mul, .floorDiv, .mod] ∧ lhs = some .int ∧ rhs = some .int ∧
        type = some .int) ∨
      (op ∈ [.gt, .ge, .lt, .le] ∧ lhs = some .int ∧ rhs = some .int ∧ type = some .bool) ∨
      (op ∈ [.eq, .ne] ∧ lhs = rhs ∧ type = some .bool) ∨
      (op = .is ∧ lhs = some .unit ∧ rhs = some .unit ∧ type = some .bool) := by
  cases op <;> simp [binaryType, BinaryOp.text?, BinaryOp.isArith, BinaryOp.isOrder, fault] <;>
    split_ifs <;> simp_all [eq_comm]

theorem condition_ok : condition env what e = .ok c ↔ expr env e = .ok c ∧ c.type = some .bool := by
  simp only [condition, bind_eq_ok]
  constructor
  · rintro ⟨c', hc, h⟩
    split at h
    · rename_i hb
      cases pure_eq_ok.1 h
      exact ⟨hc, hb⟩
    · simp [fault] at h
  · rintro ⟨hc, hb⟩
    exact ⟨c, hc, by rw [if_pos hb]; rfl⟩

theorem stmt_assign_ok :
    stmt env (.assign span x s e) = .ok s' ↔
      ∃ b v, env.var? x = some b ∧ expr env e = .ok v ∧ v.type = b.type ∧
        s' = .assign span x b.scope v := by
  cases h : env.var? x with
  | none => simp [stmt, h, fault]
  | some b =>
    simp only [stmt, h, bind_eq_ok]
    constructor
    · rintro ⟨v, hv, hs⟩
      split at hs
      · rename_i ht
        exact ⟨b, v, rfl, hv, ht, (pure_eq_ok.1 hs).symm⟩
      · simp [fault] at hs
    · rintro ⟨_, v, hb, hv, ht, rfl⟩
      cases hb
      exact ⟨v, hv, by rw [if_pos ht]; rfl⟩

theorem stmt_expr_ok :
    stmt env (.expr span e) = .ok s' ↔ ∃ v, expr env e = .ok v ∧ s' = .expr span v := by
  simp only [stmt, bind_eq_ok, pure_eq_ok]
  exact exists_congr fun v => and_congr_right fun _ => eq_comm

theorem stmt_ret_ok :
    stmt env (.ret span e) = .ok s' ↔
      ∃ wanted v, env.returns = some wanted ∧ expr env e = .ok v ∧ v.type = wanted ∧
        s' = .ret span v := by
  cases h : env.returns with
  | none => simp [stmt, h, fault]
  | some wanted =>
    simp only [stmt, h, bind_eq_ok]
    constructor
    · rintro ⟨v, hv, hs⟩
      split at hs
      · rename_i ht
        exact ⟨wanted, v, rfl, hv, ht, (pure_eq_ok.1 hs).symm⟩
      · simp [fault] at hs
    · rintro ⟨_, v, hw, hv, ht, rfl⟩
      cases hw
      exact ⟨v, hv, by rw [if_pos ht]; rfl⟩

theorem stmt_while_ok :
    stmt env (.while span c body) = .ok s' ↔
      ∃ c' body', expr env c = .ok c' ∧ c'.type = some .bool ∧ stmts env body = .ok body' ∧
        s' = .while span c' body' := by
  simp only [stmt, bind_eq_ok, pure_eq_ok, condition_ok]
  constructor
  · rintro ⟨c', ⟨hc, ht⟩, body', hb, rfl⟩
    exact ⟨c', body', hc, ht, hb, rfl⟩
  · rintro ⟨c', body', hc, ht, hb, rfl⟩
    exact ⟨c', ⟨hc, ht⟩, body', hb, rfl⟩

theorem stmt_cond_ok :
    stmt env (.cond span c body clauses otherwise) = .ok s' ↔
      ∃ c' body' clauses' otherwise', expr env c = .ok c' ∧ c'.type = some .bool ∧
        stmts env body = .ok body' ∧ elifs env clauses = .ok clauses' ∧
        stmts env otherwise = .ok otherwise' ∧ s' = .cond span c' body' clauses' otherwise' := by
  simp only [stmt, bind_eq_ok, pure_eq_ok, condition_ok]
  constructor
  · rintro ⟨c', ⟨hc, ht⟩, body', hb, clauses', hl, otherwise', ho, rfl⟩
    exact ⟨c', body', clauses', otherwise', hc, ht, hb, hl, ho, rfl⟩
  · rintro ⟨c', body', clauses', otherwise', hc, ht, hb, hl, ho, rfl⟩
    exact ⟨c', ⟨hc, ht⟩, body', hb, clauses', hl, otherwise', ho, rfl⟩

theorem stmts_cons_ok :
    stmts env (s :: rest) = .ok ss' ↔
      ∃ s' rest', stmt env s = .ok s' ∧ stmts env rest = .ok rest' ∧ ss' = s' :: rest' := by
  simp only [stmts, bind_eq_ok, pure_eq_ok]
  constructor
  · rintro ⟨s', hs, rest', hr, rfl⟩
    exact ⟨s', rest', hs, hr, rfl⟩
  · rintro ⟨s', rest', hs, hr, rfl⟩
    exact ⟨s', hs, rest', hr, rfl⟩

theorem elifs_cons_ok :
    elifs env (.mk span c body :: rest) = .ok es' ↔
      ∃ c' body' rest', expr env c = .ok c' ∧ c'.type = some .bool ∧
        stmts env body = .ok body' ∧ elifs env rest = .ok rest' ∧
        es' = .mk span c' body' :: rest' := by
  simp only [elifs, elif, bind_eq_ok, pure_eq_ok, condition_ok]
  constructor
  · rintro ⟨_, ⟨c', ⟨hc, ht⟩, body', hb, rfl⟩, rest', hr, rfl⟩
    exact ⟨c', body', rest', hc, ht, hb, hr, rfl⟩
  · rintro ⟨c', body', rest', hc, ht, hb, hr, rfl⟩
    exact ⟨_, ⟨c', ⟨hc, ht⟩, body', hb, rfl⟩, rest', hr, rfl⟩

end Typing

namespace Rules

/-- An environment that knows what the rules know at a place. -/
structure Matches (env : Typing.Env) (p : Program) (place : Option FuncDef) : Prop where
  var : ∀ x b, env.var? x = some b ↔ ∃ type, b.type = some type ∧ Bound p place x type b.scope
  func : ∀ f s, env.func? f = some s ↔
    ∃ types result, s = ⟨types.map some, some result⟩ ∧ Callable p f types result
  print : env.func? "print" = none
  returns : env.returns = place.map (·.returns)

variable {env : Typing.Env} {p : Program} {place : Option FuncDef}

namespace Matches

theorem var_of_bound (hm : Matches env p place) (h : Bound p place x type scope) :
    env.var? x = some ⟨some type, scope⟩ :=
  (hm.var x ⟨some type, scope⟩).2 ⟨type, rfl, h⟩

variable (hm : Matches env p place) (h : Callable p f types result)
include hm h

theorem func_of_callable : env.func? f = some ⟨types.map some, some result⟩ :=
  (hm.func f _).2 ⟨types, result, rfl, h⟩

theorem callable_ne_print :
    f ≠ "print" := by
  rintro rfl
  have := hm.func_of_callable h
  simp [hm.print] at this

end Matches

theorem HaveTypes.length_eq (h : HaveTypes p place args types) : args.length = types.length := by
  induction args generalizing types with
  | nil => cases h; rfl
  | cons e rest ih => cases h with
    | cons head tail => simp [ih tail]

section

variable (hm : Matches env p place)
include hm

mutual

theorem expr_complete :
    HasType p place e type → ∃ e', Typing.expr env e = .ok e' ∧ e'.type = some type
  | .int kind => ⟨_, rfl, by simp [Expr.type, Typing.literal, Typing.literalType, kind]⟩
  | .truth kind => ⟨_, rfl, by
      rcases kind with kind | kind <;>
        simp [Expr.type, Typing.literal, Typing.literalType, kind]⟩
  | .unit kind => ⟨_, rfl, by simp [Expr.type, Typing.literal, Typing.literalType, kind]⟩
  | .name bound => ⟨_, Typing.expr_name_ok.2 ⟨_, hm.var_of_bound bound, rfl⟩, rfl⟩
  | .neg operand => by
    obtain ⟨o, ho, ht⟩ := expr_complete operand
    exact ⟨_, Typing.expr_unary_ok.2 ⟨o, ho, ht, rfl⟩, rfl⟩
  | .not operand => by
    obtain ⟨o, ho, ht⟩ := expr_complete operand
    exact ⟨_, Typing.expr_unary_ok.2 ⟨o, ho, ht, rfl⟩, rfl⟩
  | .arith op_mem left right => by
    obtain ⟨l, hl, hlt⟩ := expr_complete left
    obtain ⟨r, hr, hrt⟩ := expr_complete right
    exact ⟨_, Typing.expr_binary_ok.2 ⟨l, r, _, hl, hr,
      Typing.binaryType_ok.2 (.inl ⟨op_mem, hlt, hrt, rfl⟩), rfl⟩, rfl⟩
  | .order op_mem left right => by
    obtain ⟨l, hl, hlt⟩ := expr_complete left
    obtain ⟨r, hr, hrt⟩ := expr_complete right
    exact ⟨_, Typing.expr_binary_ok.2 ⟨l, r, _, hl, hr,
      Typing.binaryType_ok.2 (.inr (.inl ⟨op_mem, hlt, hrt, rfl⟩)), rfl⟩, rfl⟩
  | .equality op_mem left right => by
    obtain ⟨l, hl, hlt⟩ := expr_complete left
    obtain ⟨r, hr, hrt⟩ := expr_complete right
    exact ⟨_, Typing.expr_binary_ok.2 ⟨l, r, _, hl, hr,
      Typing.binaryType_ok.2 (.inr (.inr (.inl ⟨op_mem, hlt.trans hrt.symm, rfl⟩))), rfl⟩, rfl⟩
  | .identity left right => by
    obtain ⟨l, hl, hlt⟩ := expr_complete left
    obtain ⟨r, hr, hrt⟩ := expr_complete right
    exact ⟨_, Typing.expr_binary_ok.2 ⟨l, r, _, hl, hr,
      Typing.binaryType_ok.2 (.inr (.inr (.inr ⟨rfl, hlt, hrt, rfl⟩))), rfl⟩, rfl⟩
  | .print arg => by
    obtain ⟨a, ha, -⟩ := expr_complete arg
    exact ⟨_, Typing.expr_print_ok.2 ⟨_, a, rfl, ha, rfl⟩, rfl⟩
  | .call callee given => by
    obtain ⟨args', ha⟩ := arguments_complete _ 1 given
    have hl := given.length_eq
    refine ⟨_, (Typing.expr_call_ok (hm.callable_ne_print callee)).2
      ⟨_, args', hm.func_of_callable callee, ?_, ha, rfl⟩, rfl⟩
    simpa using hl

theorem arguments_complete (f : String) (index : Nat) :
    HaveTypes p place args types →
      ∃ args', Typing.arguments env f index (types.map some) args = .ok args'
  | .nil => ⟨[], rfl⟩
  | .cons head tail => by
    obtain ⟨a, ha, ht⟩ := expr_complete head
    obtain ⟨rest', hr⟩ := arguments_complete f (index + 1) tail
    exact ⟨_, Typing.arguments_cons_ok.2 ⟨a, rest', ha, ht, hr, rfl⟩⟩

end

mutual

theorem stmt_complete : StmtTyped p place s → ∃ s', Typing.stmt env s = .ok s'
  | .pass => ⟨_, rfl⟩
  | .assign target value => by
    obtain ⟨v, hv, ht⟩ := expr_complete hm value
    exact ⟨_, Typing.stmt_assign_ok.2 ⟨_, v, hm.var_of_bound target, hv, ht, rfl⟩⟩
  | .expr value => by
    obtain ⟨v, hv, -⟩ := expr_complete hm value
    exact ⟨_, Typing.stmt_expr_ok.2 ⟨v, hv, rfl⟩⟩
  | .ret within returns value => by
    obtain ⟨v, hv, ht⟩ := expr_complete hm value
    have hr : env.returns = some v.type := by
      rw [hm.returns, within, Option.map_some, returns, ht]
    exact ⟨_, Typing.stmt_ret_ok.2 ⟨_, v, hr, hv, rfl, rfl⟩⟩
  | .while cond inside => by
    obtain ⟨c, hc, ht⟩ := expr_complete hm cond
    obtain ⟨body, hb⟩ := block_complete inside
    exact ⟨_, Typing.stmt_while_ok.2 ⟨c, body, hc, ht, hb, rfl⟩⟩
  | .cond cond inside elifs last => by
    obtain ⟨c, hc, ht⟩ := expr_complete hm cond
    obtain ⟨body, hb⟩ := block_complete inside
    obtain ⟨clauses, hl⟩ := clauses_complete elifs
    obtain ⟨otherwise, ho⟩ := block_complete last
    exact ⟨_, Typing.stmt_cond_ok.2 ⟨c, body, clauses, otherwise, hc, ht, hb, hl, ho, rfl⟩⟩

theorem block_complete : BlockTyped p place ss → ∃ ss', Typing.stmts env ss = .ok ss'
  | .nil => ⟨[], rfl⟩
  | .cons head tail => by
    obtain ⟨s, hs⟩ := stmt_complete head
    obtain ⟨rest, hr⟩ := block_complete tail
    exact ⟨_, Typing.stmts_cons_ok.2 ⟨s, rest, hs, hr, rfl⟩⟩

theorem clauses_complete : ClausesTyped p place es → ∃ es', Typing.elifs env es = .ok es'
  | .nil => ⟨[], rfl⟩
  | .cons cond inside tail => by
    obtain ⟨c, hc, ht⟩ := expr_complete hm cond
    obtain ⟨body, hb⟩ := block_complete inside
    obtain ⟨rest, hr⟩ := clauses_complete tail
    exact ⟨_, Typing.elifs_cons_ok.2 ⟨c, body, rest, hc, ht, hb, hr, rfl⟩⟩

end

theorem HasType.unique (ha : HasType p place e a) (hb : HasType p place e b) : a = b := by
  obtain ⟨x, hx, hxa⟩ := expr_complete hm ha
  obtain ⟨y, hy, hyb⟩ := expr_complete hm hb
  cases hx.symm.trans hy
  exact Option.some.inj (hxa.symm.trans hyb)

end

/-- The outcome of checking an expression of the type `type`. -/
structure Elaborated (p : Program) (place : Option FuncDef) (e e' : Expr) (type : Ty) : Prop where
  carried : e'.type = some type
  before : HasType p place e type
  after : HasType p place e' type
  all : e'.All (Carries p place)
  same : e'.erase = e.erase

section

variable (hm : Matches env p place)
include hm

theorem carries_of_type (ht : e.type = some type) (h : HasType p place e type)
    (hx : ∀ span t x s, e = .name span t x s → Bound p place x type s) : Carries p place e :=
  ⟨type, ht, fun _ => ⟨fun h' => h'.unique hm h, fun h' => h' ▸ h⟩, hx⟩

theorem literal_sound (hk : l.kind.Known) :
    ∃ type, Elaborated p place (.literal l) (.literal (Typing.literal l)) type := by
  have typed : ∃ type, Typing.literalType l.kind = some type ∧
      ∀ l' : Literal, l'.kind = l.kind → HasType p place (.literal l') type := by
    cases h : l.kind with
    | int => exact ⟨.int, rfl, fun _ h' => .int h'⟩
    | isTrue => exact ⟨.bool, rfl, fun _ h' => .truth (.inl h')⟩
    | isFalse => exact ⟨.bool, rfl, fun _ h' => .truth (.inr h')⟩
    | unit => exact ⟨.unit, rfl, fun _ h' => .unit h'⟩
    | other n => rw [h] at hk; exact hk.elim
  obtain ⟨type, ht, h⟩ := typed
  refine ⟨type, ht, h l rfl, h _ rfl, ?_, rfl⟩
  exact carries_of_type hm ht (h _ rfl) (by simp)

theorem unary_sound (hk : op.Known) (ho : Elaborated p place e o type)
    (ht : o.type = Typing.unaryType op) :
    ∃ type, Elaborated p place (.unary span t op e)
      (.unary span (Typing.unaryType op) op o) type := by
  have hty : Typing.unaryType op = some type := ht.symm.trans ho.carried
  have typed : ∀ (t : Option Ty) (x : Expr), HasType p place x type →
      HasType p place (.unary span t op x) type := by
    intro t x hx
    cases op with
    | neg => cases hty; exact .neg hx
    | not => cases hty; exact .not hx
    | other n => exact hk.elim
  refine ⟨type, hty, typed t e ho.before, typed _ o ho.after, ⟨?_, ho.all⟩, ?_⟩
  · exact carries_of_type hm hty (typed _ o ho.after) (by simp)
  · simp [Expr.erase, ho.same]

theorem binary_sound (hl : Elaborated p place lhs l a) (hr : Elaborated p place rhs r b)
    (ht : Typing.binaryType span op l.type r.type = .ok type) :
    ∃ result, Elaborated p place (.binary span t op lhs rhs) (.binary span type op l r) result := by
  -- Each row of the operator table is a rule, for the operands before and after the check.
  have typed : ∃ result, type = some result ∧ ∀ (t : Option Ty) (x y : Expr),
      HasType p place x a → HasType p place y b →
      HasType p place (.binary span t op x y) result := by
    rw [hl.carried, hr.carried] at ht
    rcases Typing.binaryType_ok.1 ht with ⟨hop, ha, hb, rfl⟩ | ⟨hop, ha, hb, rfl⟩ |
      ⟨hop, hab, rfl⟩ | ⟨rfl, ha, hb, rfl⟩
    · cases ha; cases hb
      exact ⟨.int, rfl, fun _ _ _ hx hy => .arith hop hx hy⟩
    · cases ha; cases hb
      exact ⟨.bool, rfl, fun _ _ _ hx hy => .order hop hx hy⟩
    · cases hab
      exact ⟨.bool, rfl, fun _ _ _ hx hy => .equality hop hx hy⟩
    · cases ha; cases hb
      exact ⟨.bool, rfl, fun _ _ _ hx hy => .identity hx hy⟩
  obtain ⟨result, rfl, typed⟩ := typed
  have after := typed (some result) l r hl.after hr.after
  refine ⟨result, rfl, typed t lhs rhs hl.before hr.before, after, ⟨?_, hl.all, hr.all⟩, ?_⟩
  · exact carries_of_type hm rfl after (by simp)
  · simp [Expr.erase, hl.same, hr.same]

end

/-- The outcome of checking the arguments of a call. -/
structure ElaboratedAll (p : Program) (place : Option FuncDef) (args args' : List Expr)
    (types : List Ty) : Prop where
  before : HaveTypes p place args types
  after : HaveTypes p place args' types
  all : Expr.AllIn (Carries p place) args'
  same : Expr.eraseAll args' = Expr.eraseAll args

mutual

theorem expr_sound (hm : Matches env p place) :
    (e : Expr) → e.All Expr.KnownNode → ∀ {e'}, Typing.expr env e = .ok e' →
      ∃ type, Elaborated p place e e' type
  | .literal l, hk, e', h => by
    cases Typing.expr_literal_ok.1 h
    exact literal_sound hm hk
  | .name span t x s, _, e', h => by
    obtain ⟨b, hb, rfl⟩ := Typing.expr_name_ok.1 h
    obtain ⟨type, ht, bound⟩ := (hm.var x b).1 hb
    have after : HasType p place (.name span b.type x b.scope) type := .name bound
    refine ⟨type, ht, .name bound, after, carries_of_type hm ht after ?_, rfl⟩
    intro _ _ _ _ heq
    cases heq
    exact bound
  | .unary span t op e, hk, e', h => by
    obtain ⟨o, ho, ht, rfl⟩ := Typing.expr_unary_ok.1 h
    obtain ⟨type, he⟩ := expr_sound hm e hk.2 ho
    exact unary_sound hm hk.1 he ht
  | .binary span t op lhs rhs, hk, e', h => by
    obtain ⟨l, r, type, hl, hr, ht, rfl⟩ := Typing.expr_binary_ok.1 h
    obtain ⟨a, hla⟩ := expr_sound hm lhs hk.2.1 hl
    obtain ⟨b, hrb⟩ := expr_sound hm rhs hk.2.2 hr
    exact binary_sound hm hla hrb ht
  | .call span t f args, hk, e', h => by
    by_cases hf : f = "print"
    · subst hf
      obtain ⟨a, a', rfl, ha, rfl⟩ := Typing.expr_print_ok.1 h
      obtain ⟨type, he⟩ := expr_sound hm a hk.2.1 ha
      have after : HasType p place (.call span (some .unit) "print" [a']) .unit := .print he.after
      refine ⟨.unit, rfl, .print he.before, after,
        ⟨carries_of_type hm rfl after (by simp), he.all, trivial⟩, ?_⟩
      simp [Expr.erase, Expr.eraseAll, he.same]
    · obtain ⟨sig, args', hs, hlen, ha, rfl⟩ := (Typing.expr_call_ok hf).1 h
      obtain ⟨types, result, rfl, callee⟩ := (hm.func f sig).1 hs
      have he := arguments_sound hm f 1 types args hk.2 (by simpa using hlen) ha
      have after : HasType p place (.call span (some result) f args') result :=
        .call callee he.after
      refine ⟨result, rfl, .call callee he.before, after,
        ⟨carries_of_type hm rfl after (by simp), he.all⟩, ?_⟩
      simp [Expr.erase, he.same]
  | .unknown span t, hk, _, _ => hk.elim

theorem arguments_sound (hm : Matches env p place) (f : String) (index : Nat) :
    (types : List Ty) → (args : List Expr) → Expr.AllIn Expr.KnownNode args →
      args.length = types.length →
      ∀ {args'}, Typing.arguments env f index (types.map some) args = .ok args' →
        ElaboratedAll p place args args' types
  | [], [], _, _, args', h => by
    cases h
    exact ⟨.nil, .nil, trivial, rfl⟩
  | type :: types, e :: rest, hk, hlen, args', h => by
    obtain ⟨a, rest', ha, ht, hr, rfl⟩ := Typing.arguments_cons_ok.1 h
    obtain ⟨type', he⟩ := expr_sound hm e hk.1 ha
    cases he.carried.symm.trans ht
    have htail := arguments_sound hm f (index + 1) types rest hk.2 (by simpa using hlen) hr
    exact ⟨.cons he.before htail.before, .cons he.after htail.after, ⟨he.all, htail.all⟩,
      by simp [Expr.eraseAll, he.same, htail.same]⟩

end

/-- The outcome of checking a statement. -/
structure StmtElaborated (p : Program) (place : Option FuncDef) (s s' : Stmt) : Prop where
  before : StmtTyped p place s
  after : StmtTyped p place s'
  all : s'.All (Carries p place) (CarriesScope p place)
  same : s'.erase = s.erase

/-- The outcome of checking a block. -/
structure BlockElaborated (p : Program) (place : Option FuncDef) (ss ss' : List Stmt) : Prop where
  before : BlockTyped p place ss
  after : BlockTyped p place ss'
  all : Stmt.AllIn (Carries p place) (CarriesScope p place) ss'
  same : Stmt.eraseAll ss' = Stmt.eraseAll ss

/-- The outcome of checking `elif` clauses. -/
structure ClausesElaborated (p : Program) (place : Option FuncDef) (es es' : List Elif) : Prop where
  before : ClausesTyped p place es
  after : ClausesTyped p place es'
  all : Stmt.AllInElifs (Carries p place) (CarriesScope p place) es'
  same : Stmt.eraseElifs es' = Stmt.eraseElifs es

section

variable (hm : Matches env p place)
include hm

mutual

theorem stmt_sound :
    (s : Stmt) → s.All Expr.KnownNode Stmt.KnownNode → ∀ {s'}, Typing.stmt env s = .ok s' →
      StmtElaborated p place s s'
  | .pass span, _, s', h => by
    cases h
    exact ⟨.pass, .pass, by simp [Stmt.All, CarriesScope], rfl⟩
  | .assign span x sc e, hk, s', h => by
    obtain ⟨b, v, hb, hv, ht, rfl⟩ := Typing.stmt_assign_ok.1 h
    obtain ⟨type, hbt, bound⟩ := (hm.var x b).1 hb
    obtain ⟨type', he⟩ := expr_sound hm e hk.2 hv
    cases he.carried.symm.trans (ht.trans hbt)
    refine ⟨.assign bound he.before, .assign bound he.after, ⟨?_, he.all⟩, ?_⟩
    · intro _ _ _ _ heq
      cases heq
      exact ⟨type, bound⟩
    · simp [Stmt.erase, he.same]
  | .expr span e, hk, s', h => by
    obtain ⟨v, hv, rfl⟩ := Typing.stmt_expr_ok.1 h
    obtain ⟨type, he⟩ := expr_sound hm e hk.2 hv
    exact ⟨.expr he.before, .expr he.after, ⟨by simp [CarriesScope], he.all⟩,
      by simp [Stmt.erase, he.same]⟩
  | .ret span e, hk, s', h => by
    obtain ⟨wanted, v, hw, hv, rfl, rfl⟩ := Typing.stmt_ret_ok.1 h
    obtain ⟨type, he⟩ := expr_sound hm e hk.2 hv
    rw [hm.returns, Option.map_eq_some_iff] at hw
    obtain ⟨f, hf, hr⟩ := hw
    have hr := hr.trans he.carried
    exact ⟨.ret hf hr he.before, .ret hf hr he.after,
      ⟨by simp [CarriesScope], he.all⟩, by simp [Stmt.erase, he.same]⟩
  | .while span c body, hk, s', h => by
    obtain ⟨c', body', hc, ht, hb, rfl⟩ := Typing.stmt_while_ok.1 h
    obtain ⟨type, he⟩ := expr_sound hm c hk.2.1 hc
    cases he.carried.symm.trans ht
    have hbody := block_sound body hk.2.2 hb
    exact ⟨.while he.before hbody.before, .while he.after hbody.after,
      ⟨by simp [CarriesScope], he.all, hbody.all⟩,
      by simp [Stmt.erase, he.same, hbody.same]⟩
  | .cond span c body clauses otherwise, hk, s', h => by
    obtain ⟨c', body', clauses', otherwise', hc, ht, hb, hl, ho, rfl⟩ := Typing.stmt_cond_ok.1 h
    obtain ⟨type, he⟩ := expr_sound hm c hk.2.1 hc
    cases he.carried.symm.trans ht
    have hbody := block_sound body hk.2.2.1 hb
    have hclauses := clauses_sound clauses hk.2.2.2.1 hl
    have hlast := block_sound otherwise hk.2.2.2.2 ho
    exact ⟨.cond he.before hbody.before hclauses.before hlast.before,
      .cond he.after hbody.after hclauses.after hlast.after,
      ⟨by simp [CarriesScope], he.all, hbody.all, hclauses.all, hlast.all⟩,
      by simp [Stmt.erase, he.same, hbody.same, hclauses.same, hlast.same]⟩
  | .unknown span, hk, _, _ => hk.elim

theorem block_sound :
    (ss : List Stmt) → Stmt.AllIn Expr.KnownNode Stmt.KnownNode ss →
      ∀ {ss'}, Typing.stmts env ss = .ok ss' → BlockElaborated p place ss ss'
  | [], _, ss', h => by
    cases h
    exact ⟨.nil, .nil, trivial, rfl⟩
  | s :: rest, hk, ss', h => by
    obtain ⟨s', rest', hs, hr, rfl⟩ := Typing.stmts_cons_ok.1 h
    have hhead := stmt_sound s hk.1 hs
    have htail := block_sound rest hk.2 hr
    exact ⟨.cons hhead.before htail.before, .cons hhead.after htail.after,
      ⟨hhead.all, htail.all⟩, by simp [Stmt.eraseAll, hhead.same, htail.same]⟩

theorem clauses_sound :
    (es : List Elif) → Stmt.AllInElifs Expr.KnownNode Stmt.KnownNode es →
      ∀ {es'}, Typing.elifs env es = .ok es' → ClausesElaborated p place es es'
  | [], _, es', h => by
    cases h
    exact ⟨.nil, .nil, trivial, rfl⟩
  | .mk span c body :: rest, hk, es', h => by
    obtain ⟨c', body', rest', hc, ht, hb, hr, rfl⟩ := Typing.elifs_cons_ok.1 h
    obtain ⟨type, he⟩ := expr_sound hm c hk.1 hc
    cases he.carried.symm.trans ht
    have hbody := block_sound body hk.2.1 hb
    have htail := clauses_sound rest hk.2.2 hr
    exact ⟨.cons he.before hbody.before htail.before, .cons he.after hbody.after htail.after,
      ⟨he.all, hbody.all, htail.all⟩,
      by simp [Stmt.eraseElifs, he.same, hbody.same, htail.same]⟩

end

end

mutual

theorem returns_iff : (s : Stmt) → (s.returns = true ↔ Returns s)
  | .ret span e => ⟨fun _ => .ret, fun _ => rfl⟩
  | .cond span c body clauses otherwise => by
    have hb := anyReturns_iff body
    have hc := everyReturns_iff clauses
    have ho := anyReturns_iff otherwise
    simp only [Stmt.returns, Bool.and_eq_true, hb, hc, ho]
    constructor
    · rintro ⟨⟨hb, hc⟩, ho⟩
      exact .cond hb hc ho
    · intro h
      cases h with
      | cond hb hc ho => exact ⟨⟨hb, hc⟩, ho⟩
  | .pass span => ⟨nofun, nofun⟩
  | .assign span x s e => ⟨nofun, nofun⟩
  | .expr span e => ⟨nofun, nofun⟩
  | .while span c body => ⟨nofun, nofun⟩
  | .unknown span => ⟨nofun, nofun⟩

theorem anyReturns_iff : (ss : List Stmt) → (Stmt.anyReturns ss = true ↔ BlockReturns ss)
  | [] => ⟨nofun, nofun⟩
  | s :: rest => by
    have hs := returns_iff s
    have hr := anyReturns_iff rest
    simp only [Stmt.anyReturns, Bool.or_eq_true, hs, hr]
    constructor
    · rintro (h | h)
      · exact .here h
      · exact .later h
    · intro h
      cases h with
      | here h => exact .inl h
      | later h => exact .inr h

theorem everyReturns_iff : (es : List Elif) → (Stmt.everyReturns es = true ↔ ClausesReturn es)
  | [] => ⟨fun _ => .nil, fun _ => rfl⟩
  | .mk span c body :: rest => by
    have hb := anyReturns_iff body
    have hr := everyReturns_iff rest
    simp only [Stmt.everyReturns, Elif.returns, Bool.and_eq_true, hb, hr]
    constructor
    · rintro ⟨hb, hr⟩
      exact .cons hb hr
    · intro h
      cases h with
      | cons hb hr => exact ⟨hb, hr⟩

end

mutual

theorem returns_erase : (s : Stmt) → s.erase.returns = s.returns
  | .ret span e => rfl
  | .cond span c body clauses otherwise => by
    simp [Stmt.erase, Stmt.returns, anyReturns_erase body, everyReturns_erase clauses,
      anyReturns_erase otherwise]
  | .pass span => rfl
  | .assign span x s e => rfl
  | .expr span e => rfl
  | .while span c body => rfl
  | .unknown span => rfl

theorem anyReturns_erase : (ss : List Stmt) →
    Stmt.anyReturns (Stmt.eraseAll ss) = Stmt.anyReturns ss
  | [] => rfl
  | s :: rest => by simp [Stmt.eraseAll, Stmt.anyReturns, returns_erase s, anyReturns_erase rest]

theorem everyReturns_erase : (es : List Elif) →
    Stmt.everyReturns (Stmt.eraseElifs es) = Stmt.everyReturns es
  | [] => rfl
  | .mk span c body :: rest => by
    simp [Stmt.eraseElifs, Stmt.everyReturns, Elif.returns, anyReturns_erase body,
      everyReturns_erase rest]

end

end Rules
end WordScript
