import WordScript.Proofs.ParseSound
import WordScript.Proofs.Scanning

/-! What is derived is read.

A function of the parser decides by the next token, and the grammar is such that what can follow a
production never goes on with what the production could go on with. So what is derived is read, if
a token follows that can follow it. Five steps of fuel are enough for each token. -/
namespace WordScript

namespace Grammar

open Token (Kind)
open Deriv (shape)

namespace Reads

variable {a b e : Ebnf} {k : Kind} {s : Symbol} {ts rest : List Token} {ns : List Node}

theorem token_iff : Reads (.token k) ts ns rest ↔
    ∃ t, ts = t :: rest ∧ t.kind = k ∧ ns = if k.isLayout then [] else [.leaf t] := by
  constructor
  · rintro ⟨d, h, rfl, rfl⟩
    cases h with
    | @token _ t kind => exact ⟨t, rfl, kind, by rw [Deriv.nodes, kind]⟩
  · rintro ⟨t, rfl, rfl, rfl⟩
    exact ⟨.token t, .token rfl, rfl, rfl⟩

theorem rule_iff : Reads (.rule s) ts ns rest ↔
    ∃ ms, Reads (productions s) ts ms rest ∧ ns = shape s ms := by
  constructor
  · rintro ⟨d, h, rfl, rfl⟩
    cases h with
    | rule h => exact ⟨_, h.reads, rfl⟩
  · rintro ⟨ms, h, rfl⟩
    exact .rule s h rfl

theorem seq_iff : Reads (a ++ b) ts ns rest ↔
    ∃ ms us ls, Reads a ts ms us ∧ Reads b us ls rest ∧ ns = ms ++ ls := by
  constructor
  · rintro ⟨d, h, rfl, rfl⟩
    cases h with
    | seq hx hy => exact ⟨_, _, _, ⟨_, hx, rfl, List.append_assoc ..⟩, hy.reads, rfl⟩
  · rintro ⟨ms, us, ls, h, h', rfl⟩
    exact h.seq h'

theorem alt_iff : Reads (a ||| b) ts ns rest ↔ Reads a ts ns rest ∨ Reads b ts ns rest := by
  constructor
  · rintro ⟨d, h, rfl, rfl⟩
    cases h with
    | left h => exact .inl h.reads
    | right h => exact .inr h.reads
  · rintro (h | h)
    · exact h.left
    · exact h.right

theorem opt_iff : Reads (.opt a) ts ns rest ↔ ts = rest ∧ ns = [] ∨ Reads a ts ns rest := by
  constructor
  · rintro ⟨d, h, rfl, rfl⟩
    cases h with
    | absent => exact .inl ⟨rfl, rfl⟩
    | present h => exact .inr h.reads
  · rintro (⟨rfl, rfl⟩ | h)
    · exact .absent
    · exact h.present

theorem many_iff : Reads (.many a) ts ns rest ↔ ts = rest ∧ ns = [] ∨
    ∃ ms us ls, Reads a ts ms us ∧ Reads (.many a) us ls rest ∧ ns = ms ++ ls := by
  constructor
  · rintro ⟨d, h, rfl, rfl⟩
    cases h with
    | done => exact .inl ⟨rfl, rfl⟩
    | more hx hy => exact .inr ⟨_, _, _, ⟨_, hx, rfl, List.append_assoc ..⟩, hy.reads, rfl⟩
  · rintro (⟨rfl, rfl⟩ | ⟨ms, us, ls, h, h', rfl⟩)
    · exact .done
    · exact h.more h'

theorem length_le (h : Reads e ts ns rest) : rest.length ≤ ts.length := by
  obtain ⟨d, -, -, rfl⟩ := h
  simp

theorem nextIn (h : Reads e ts ns rest) (hr : NextIn after rest) :
    NextIn (e.first start ++ if e.nullable then after else []) ts := by
  obtain ⟨d, hd, -, rfl⟩ := h
  exact hd.nextIn hr

theorem starts (h : Reads e ts ns rest) (some : e.nullable = false) :
    NextIn (e.first start) ts := by
  obtain ⟨d, hd, -, rfl⟩ := h
  obtain ⟨t, us, hy, ht⟩ := hd.starts_some productions_fit some
  exact ⟨t, us ++ rest, by rw [hy]; rfl, ht⟩

theorem length_lt (h : Reads (.rule s) ts ns rest) : rest.length < ts.length := by
  obtain ⟨d, hd, -, rfl⟩ := h
  obtain ⟨t, us, hy, -⟩ := hd.starts_some productions_fit rfl
  simp only [hy, List.length_append, List.length_cons]
  omega

end Reads

theorem Signs.sign (signs : Signs op isOp) (h : Reads op ts ns rest) :
    ∃ t, ts = t :: rest ∧ isOp t.kind = true ∧ ns = [.leaf t] := by
  obtain ⟨d, hd, rfl, rfl⟩ := h
  obtain ⟨t, ht, hy, hn⟩ := signs.only hd
  exact ⟨t, by rw [hy]; rfl, ht, hn⟩

theorem ReadsClosed.parts (h : ReadsClosed e ts ns rest) :
    (∃ t, ts = t :: rest ∧ t.kind = .rparen ∧ ns = [.leaf t]) ∨
    ∃ ms t us, Reads e ts ms (t :: us) ∧
      (t.kind = .rparen ∧ us = rest ∧ ns = ms ++ [.leaf t] ∨
        ∃ ls, t.kind = .comma ∧ ReadsClosed e us ls rest ∧ ns = ms ++ .leaf t :: ls) := by
  obtain ⟨_, close, h, kind, rfl⟩ := h
  rcases Reads.opt_iff.1 h with ⟨rfl, rfl⟩ | h
  · exact .inl ⟨close, rfl, kind, rfl⟩
  obtain ⟨_, vs, _, items, ending, rfl⟩ := Reads.seq_iff.1 h
  obtain ⟨ms, us, _, first, others, rfl⟩ := Reads.seq_iff.1 items
  refine .inr ⟨ms, ?_⟩
  rcases Reads.many_iff.1 others with ⟨rfl, rfl⟩ | ⟨_, ws, ks, item, others', rfl⟩
  · rcases Reads.opt_iff.1 ending with ⟨rfl, rfl⟩ | ending
    · exact ⟨close, rest, first, .inl ⟨kind, rfl, by simp⟩⟩
    · obtain ⟨t, rfl, comma, rfl⟩ := Reads.token_iff.1 ending
      exact ⟨t, _, first, .inr ⟨_, comma, .close kind, by simp [Kind.isLayout]⟩⟩
  · obtain ⟨_, xs, js, word, next, rfl⟩ := Reads.seq_iff.1 item
    obtain ⟨t, rfl, comma, rfl⟩ := Reads.token_iff.1 word
    have others : Reads (.list e .comma) xs _ (close :: rest) := (next.seq others').seq ending
    exact ⟨t, _, first, .inr ⟨_, comma, ⟨_, close, others.present, kind, rfl⟩,
      by simp [Kind.isLayout]⟩⟩

end Grammar

namespace Parser

open Token (Kind)
open Grammar
open Grammar.Reads (token_iff rule_iff seq_iff alt_iff opt_iff many_iff)
open Grammar.Deriv (leftGrouped callGrouped shape)

/-- `p` reads what is derived from `s`, if there is not too much to read and what is derived is
followed by what can follow. -/
def Complete (p : Parser Node) (s : Symbol) (len : Nat) : Prop :=
  ∀ ⦃ts ns rest⦄, Reads (.rule s) ts ns rest → ts.length ≤ len → NextIn (follow s) rest →
    ∃ n, ns = [n] ∧ p ts = .ok (n, rest)

section complete

variable {α β : Type} {fuel len : Nat} {k : Kind} {t : Token} {ts rest : List Token}
  {ns : List Node} {op : Ebnf}
variable {p q : Parser α} {us : List Token} {ms ls : List Node}

theorem bind_of {f : α → Parser β} (h : p ts = .ok (a, us)) : (p >>= f) ts = f a us := by
  simp only [bind, StateT.bind, h, Except.bind]

theorem pure_apply (a : α) (ts : List Token) : (pure a : Parser α) ts = .ok (a, ts) := rfl

theorem leaf_cons : leaf (t :: rest) = .ok (.leaf t, rest) := rfl

theorem peek_cons : peek (t :: rest) = .ok (t, t :: rest) := rfl

theorem want_cons (h : t.kind = k) : want k (t :: rest) = .ok (.leaf t, rest) :=
  want_ok.2 ⟨t, rfl, h, rfl⟩

theorem drop_cons (h : t.kind = k) : drop k (t :: rest) = .ok ((), rest) := drop_ok.2 ⟨t, rfl, h⟩

theorem at_same (h : t.kind = k) : at? k (t :: rest) = .ok (true, t :: rest) :=
  at_ok.2 ⟨rfl, t, rest, rfl, decide_eq_true h⟩

theorem at_other (h : NextIn kinds ts) (none : k ∉ kinds) : at? k ts = .ok (false, ts) := by
  obtain ⟨t, rest, rfl, ht⟩ := h
  exact at_ok.2 ⟨rfl, t, rest, rfl, decide_eq_false (ne_of_mem_of_not_mem ht none)⟩

theorem at_take (h : t.kind = k) :
    (at? k >>= fun b => if b = true then p else q) (t :: rest) = p (t :: rest) := by
  rw [bind_of (at_same h), if_pos rfl]

/-- A choice is passed by where the token that it asks for cannot stand. -/
theorem at_skip (h : NextIn kinds ts) (none : k ∉ kinds) :
    (at? k >>= fun b => if b = true then p else q) ts = q ts := by
  rw [bind_of (at_other h none), if_neg Bool.false_ne_true]

theorem nextIn_cons (h : t.kind = k) : NextIn [k] (t :: rest) := ⟨t, rest, rfl, by simp [h]⟩

section levels

variable {operand : Parser Node} {isOp : Kind → Bool} {lhs : Node} {s i : Symbol}

theorem binaryRest_complete (signs : Signs op isOp) (stop : ∀ k ∈ follow s, isOp k = false)
    (known : (op ++ .rule i).first start ++ follow s ⊆ follow i) (side : Complete operand i len)
    (h : Reads (.many (op ++ .rule i)) ts ns rest) (short : ts.length ≤ len)
    (enough : ts.length < fuel) (hr : NextIn (follow s) rest) :
    binaryRest operand isOp fuel lhs ts = .ok (leftGrouped lhs ns, rest) := by
  induction fuel generalizing lhs ts ns with
  | zero => omega
  | succ fuel ih =>
    rcases many_iff.1 h with ⟨rfl, rfl⟩ | ⟨_, us, _, first, others, rfl⟩
    · obtain ⟨t, rest, rfl, ht⟩ := hr
      simp [binaryRest, bind_of peek_cons, stop _ ht, pure_apply, leftGrouped]
    · obtain ⟨_, vs, _, sign, second, rfl⟩ := seq_iff.1 first
      obtain ⟨t, rfl, ht, rfl⟩ := signs.sign sign
      have less := second.length_le
      simp only [List.length_cons] at short enough
      obtain ⟨m, rfl, run⟩ := side second (by omega) ((others.nextIn hr).mono known)
      rw [binaryRest, bind_of peek_cons, if_pos ht, bind_of leaf_cons, bind_of run,
        ih others (by omega) (by omega)]
      rfl

theorem binary_complete (level : productions s = .rule i ++ .many (op ++ .rule i))
    (grouped : ∀ m ns, shape s (m :: ns) = [leftGrouped m ns]) (signs : Signs op isOp)
    (stop : ∀ k ∈ follow s, isOp k = false)
    (known : (op ++ .rule i).first start ++ follow s ⊆ follow i) (enough : len < fuel)
    (side : Complete operand i len) : Complete (binary operand isOp fuel) s len := by
  intro ts ns rest derived short hr
  obtain ⟨_, h, rfl⟩ := rule_iff.1 derived
  rw [level] at h
  obtain ⟨_, us, ls, first, others, rfl⟩ := seq_iff.1 h
  have less := first.length_le
  obtain ⟨m, rfl, run⟩ := side first short ((others.nextIn hr).mono known)
  refine ⟨leftGrouped m ls, grouped m ls, ?_⟩
  rw [binary, bind_of run]
  exact binaryRest_complete signs stop known side others (by omega) (by omega) hr

end levels

/-- The functions that read expressions read what is derived, with five steps of fuel for each
token. -/
structure ExprComplete (fuel : Nat) : Prop where
  expr : ∀ {len}, 5 * len + 4 ≤ fuel → Complete (expr fuel) .expr len
  notExpr : ∀ {len}, 5 * len + 3 ≤ fuel → Complete (notExpr fuel) .notExpr len
  factor : ∀ {len}, 5 * len + 2 ≤ fuel → Complete (factor fuel) .factor len
  primary : ∀ {len}, 5 * len + 1 ≤ fuel → Complete (primary fuel) .primary len
  calls : ∀ {callee ts ns rest}, Reads (.many (.rule .argList)) ts ns rest →
    5 * ts.length + 1 ≤ fuel → NextIn afterPrimary rest →
    calls fuel callee ts = .ok (callGrouped callee ns, rest)
  args : ∀ {ts ns rest}, ReadsClosed (.rule .expr) ts ns rest → 5 * ts.length + 5 ≤ fuel →
    args fuel ts = .ok (ns, rest)

section

variable (ih : ExprComplete fuel)
include ih

theorem expr_complete (enough : 5 * len + 4 ≤ fuel + 1) : Complete (expr (fuel + 1)) .expr len := by
  have ands : Complete (binary (notExpr fuel) isAnd fuel) .andExpr len :=
    binary_complete rfl (fun _ _ => rfl) signs_and (by decide) (by decide) (by omega)
      (ih.notExpr (by omega))
  have ors : Complete (expr (fuel + 1)) .orExpr len :=
    binary_complete rfl (fun _ _ => rfl) signs_or (by decide) (by decide) (by omega) ands
  intro ts ns rest derived short hr
  obtain ⟨_, h, rfl⟩ := rule_iff.1 derived
  exact ors h short hr

theorem comparison_complete (enough : 5 * len + 2 ≤ fuel) :
    Complete (binary (binary (binary (factor fuel) isProduct fuel) isSum fuel) isComparison fuel)
      .comparison len := by
  have products : Complete (binary (factor fuel) isProduct fuel) .term len :=
    binary_complete rfl (fun _ _ => rfl) signs_product (by decide) (by decide) (by omega)
      (ih.factor enough)
  have sums : Complete (binary (binary (factor fuel) isProduct fuel) isSum fuel) .arithExpr len :=
    binary_complete rfl (fun _ _ => rfl) signs_sum (by decide) (by decide) (by omega) products
  exact binary_complete rfl (fun _ _ => rfl) signs_comparison (by decide) (by decide) (by omega)
    sums

theorem notExpr_complete (enough : 5 * len + 3 ≤ fuel + 1) :
    Complete (notExpr (fuel + 1)) .notExpr len := by
  intro ts ns rest derived short hr
  obtain ⟨_, h, rfl⟩ := rule_iff.1 derived
  rcases alt_iff.1 h with h | h
  · obtain ⟨_, us, _, word, inner, rfl⟩ := seq_iff.1 h
    obtain ⟨t, rfl, kind, rfl⟩ := token_iff.1 word
    rw [List.length_cons] at short
    obtain ⟨m, rfl, run⟩ := ih.notExpr (by omega) inner (Nat.le_refl _) hr
    refine ⟨.branch "UnaryExpression" [.leaf t, m], rfl, ?_⟩
    rw [notExpr, at_take kind, bind_of leaf_cons, bind_of run, pure_apply]
  · obtain ⟨m, rfl, run⟩ := comparison_complete ih (by omega) h short hr
    refine ⟨m, rfl, ?_⟩
    rw [notExpr, at_skip (h.starts rfl) (by decide), run]

theorem power_complete (enough : 5 * len + 1 ≤ fuel) :
    Complete (do
      let base ← primary fuel
      if ← at? (.arith .power) then
        let op ← leaf
        return .branch "BinaryExpression" [base, op, ← factor fuel]
      else return base) .power len := by
  intro ts ns rest derived short hr
  obtain ⟨_, h, rfl⟩ := rule_iff.1 derived
  obtain ⟨_, us, _, base, power, rfl⟩ := seq_iff.1 h
  have less := base.length_le
  obtain ⟨m, rfl, run⟩ := ih.primary enough base short ((power.nextIn hr).mono (by decide))
  rw [bind_of run]
  rcases opt_iff.1 power with ⟨rfl, rfl⟩ | there
  · exact ⟨m, rfl, by rw [at_skip hr (by decide), pure_apply]⟩
  · obtain ⟨_, vs, _, word, exponent, rfl⟩ := seq_iff.1 there
    obtain ⟨t, rfl, kind, rfl⟩ := token_iff.1 word
    rw [List.length_cons] at less
    obtain ⟨m', rfl, run'⟩ := ih.factor (by omega) exponent (Nat.le_refl _) hr
    refine ⟨.branch "BinaryExpression" [m, .leaf t, m'], rfl, ?_⟩
    rw [at_take kind, bind_of leaf_cons, bind_of run', pure_apply]

theorem factor_complete (enough : 5 * len + 2 ≤ fuel + 1) :
    Complete (factor (fuel + 1)) .factor len := by
  intro ts ns rest derived short hr
  obtain ⟨_, h, rfl⟩ := rule_iff.1 derived
  rcases alt_iff.1 h with h | h
  · obtain ⟨_, us, _, sign, inner, rfl⟩ := seq_iff.1 h
    obtain ⟨t, rfl, ht, rfl⟩ := signs_sum.sign sign
    rw [List.length_cons] at short
    obtain ⟨m, rfl, run⟩ := ih.factor (by omega) inner (Nat.le_refl _) hr
    refine ⟨.branch "UnaryExpression" [.leaf t, m], rfl, ?_⟩
    rw [factor, bind_of peek_cons, if_pos ht, bind_of leaf_cons, bind_of run, pure_apply]
  · obtain ⟨m, rfl, run⟩ := power_complete ih (by omega) h short hr
    obtain ⟨t, us, rfl, ht⟩ := h.starts rfl
    have none : ∀ k ∈ start .power, ¬ isSum k = true := by decide
    refine ⟨m, rfl, ?_⟩
    rw [factor, bind_of peek_cons, if_neg (none _ ht), run]

theorem primary_complete (enough : 5 * len + 1 ≤ fuel + 1) :
    Complete (primary (fuel + 1)) .primary len := by
  intro ts ns rest derived short hr
  obtain ⟨_, h, rfl⟩ := rule_iff.1 derived
  obtain ⟨_, us, ls, atom, lists, rfl⟩ := seq_iff.1 h
  obtain ⟨_, choice, rfl⟩ := rule_iff.1 atom
  rcases alt_iff.1 choice with word | enclosed
  · obtain ⟨t, rfl, ht, rfl⟩ := signs_atom.sign word
    rw [List.length_cons] at short
    refine ⟨callGrouped (.leaf t) ls, rfl, ?_⟩
    rw [primary, bind_of peek_cons, if_pos ht, bind_of leaf_cons]
    exact ih.calls lists (by omega) hr
  · obtain ⟨_, vs, _, head, close, rfl⟩ := seq_iff.1 enclosed
    obtain ⟨t', rfl, kind', rfl⟩ := token_iff.1 close
    obtain ⟨_, ws, _, word, inner, rfl⟩ := seq_iff.1 head
    obtain ⟨t, rfl, kind, rfl⟩ := token_iff.1 word
    have less := inner.length_le
    rw [List.length_cons] at short less
    obtain ⟨m, rfl, run⟩ := ih.expr (by omega) inner (Nat.le_refl _)
      ((nextIn_cons kind').mono (by decide))
    have other : ¬ isAtom t.kind = true := by simp [kind, isAtom]
    refine ⟨callGrouped (.branch "ParenthesizedExpression" [.leaf t, m, .leaf t']) ls, rfl, ?_⟩
    rw [primary, bind_of peek_cons, if_neg other, at_take kind, bind_of leaf_cons, bind_of run,
      bind_of (want_cons kind')]
    exact ih.calls lists (by omega) hr

theorem calls_complete (h : Reads (.many (.rule .argList)) ts ns rest)
    (enough : 5 * ts.length + 1 ≤ fuel + 1) (hr : NextIn afterPrimary rest) :
    calls (fuel + 1) callee ts = .ok (callGrouped callee ns, rest) := by
  rcases many_iff.1 h with ⟨rfl, rfl⟩ | ⟨_, us, ls, first, others, rfl⟩
  · rw [calls, at_skip hr (by decide), pure_apply]
    rfl
  · obtain ⟨_, parts, rfl⟩ := rule_iff.1 first
    obtain ⟨_, vs, _, head, close, rfl⟩ := seq_iff.1 parts
    obtain ⟨t', rfl, kind', rfl⟩ := token_iff.1 close
    obtain ⟨_, ws, ms, word, items, rfl⟩ := seq_iff.1 head
    obtain ⟨t, rfl, kind, rfl⟩ := token_iff.1 word
    have less := items.length_le
    rw [List.length_cons] at less enough
    rw [calls, at_take kind, bind_of leaf_cons,
      bind_of (ih.args ⟨ms, t', items, kind', rfl⟩ (by omega)), ih.calls others (by omega) hr]
    simp [Kind.isLayout, shape, callGrouped]

theorem args_complete (h : ReadsClosed (.rule .expr) ts ns rest)
    (enough : 5 * ts.length + 5 ≤ fuel + 1) : args (fuel + 1) ts = .ok (ns, rest) := by
  rcases h.parts with ⟨t, rfl, kind, rfl⟩ | ⟨_, t, us, item, h⟩
  · rw [args, at_take kind, bind_of leaf_cons, pure_apply]
  have less := item.length_lt
  rw [List.length_cons] at less
  rw [args, at_skip (item.starts rfl) (by decide)]
  rcases h with ⟨kind, rfl, rfl⟩ | ⟨ls, kind, others, rfl⟩
  · obtain ⟨m, rfl, run⟩ := ih.expr (by omega) item (Nat.le_refl _)
      ((nextIn_cons kind).mono (by decide))
    rw [bind_of run, at_skip (nextIn_cons kind) (by decide), bind_of (want_cons kind), pure_apply]
    rfl
  · obtain ⟨m, rfl, run⟩ := ih.expr (by omega) item (Nat.le_refl _)
      ((nextIn_cons kind).mono (by decide))
    rw [bind_of run, at_take kind, bind_of leaf_cons, bind_of (ih.args others (by omega)),
      pure_apply]
    rfl

end

theorem exprComplete (fuel : Nat) : ExprComplete fuel := by
  induction fuel with
  | zero => constructor <;> intros <;> omega
  | succ fuel ih =>
    exact ⟨expr_complete ih, notExpr_complete ih, factor_complete ih, primary_complete ih,
      calls_complete ih, args_complete ih⟩

theorem typeDef_complete (enough : 5 * len ≤ fuel) :
    Complete (typeDef .colon fuel) .typeDef len := by
  intro ts ns rest derived short hr
  obtain ⟨_, h, rfl⟩ := rule_iff.1 derived
  obtain ⟨_, us, _, word, type, rfl⟩ := seq_iff.1 h
  obtain ⟨t, rfl, kind, rfl⟩ := token_iff.1 word
  rw [List.length_cons] at short
  obtain ⟨m, rfl, run⟩ := (exprComplete fuel).expr (by omega) type (Nat.le_refl _)
    (hr.mono (by decide))
  refine ⟨.branch "TypeDef" [.leaf t, m], rfl, ?_⟩
  rw [typeDef, bind_of (want_cons kind), bind_of run, pure_apply]

theorem assigned_complete (h : Reads (.opt (.token .assign ++ .rule .expr)) ts ns rest)
    (enough : 5 * ts.length ≤ fuel) (hr : NextIn [.newline] rest) :
    (do
      if ← at? .assign then
        let sign ← leaf
        return .branch "AssignStatement" (head ++ [sign, ← expr fuel])
      else if typed = true then return .branch "AssignStatement" head
      else return .branch "ExpressionStatement" head : Parser Node) ts =
      .ok (.branch (if typed || !ns.isEmpty then "AssignStatement" else "ExpressionStatement")
        (head ++ ns), rest) := by
  rcases opt_iff.1 h with ⟨rfl, rfl⟩ | there
  · rw [at_skip hr (by decide), List.append_nil]
    cases typed <;> rfl
  · obtain ⟨_, us, _, word, value, rfl⟩ := seq_iff.1 there
    obtain ⟨t, rfl, kind, rfl⟩ := token_iff.1 word
    rw [List.length_cons] at enough
    obtain ⟨m, rfl, run⟩ := (exprComplete fuel).expr (by omega) value (Nat.le_refl _)
      (hr.mono (by decide))
    rw [at_take kind, bind_of leaf_cons, bind_of run, pure_apply]
    simp [Kind.isLayout]

theorem exprOrAssign_complete (enough : 5 * len + 4 ≤ fuel) :
    Complete (exprOrAssign fuel) .exprOrAssignStmt len := by
  intro ts ns rest derived short hr
  obtain ⟨_, h, rfl⟩ := rule_iff.1 derived
  obtain ⟨_, vs, ls, head, value, rfl⟩ := seq_iff.1 h
  obtain ⟨_, us, _, target, type, rfl⟩ := seq_iff.1 head
  have next : NextIn (follow .typeDef) vs := (value.nextIn hr).mono (by decide)
  have less := target.length_le
  obtain ⟨m, rfl, run⟩ := (exprComplete fuel).expr enough target short
    ((type.nextIn next).mono (by decide))
  rw [exprOrAssign, bind_of run]
  rcases opt_iff.1 type with ⟨rfl, rfl⟩ | there
  · refine ⟨.branch (if !ls.isEmpty then "AssignStatement" else "ExpressionStatement") (m :: ls),
      by cases ls <;> rfl, ?_⟩
    rw [bind_of (at_other next (by decide))]
    exact assigned_complete value (by omega) hr
  · obtain ⟨n, rfl, run'⟩ := (@typeDef_complete fuel _ (by omega)) there (Nat.le_refl _) next
    obtain ⟨t, us, rfl, ht⟩ := there.starts rfl
    have less' := there.length_le
    have colon : t.kind = .colon := by simpa [Ebnf.first, start] using ht
    refine ⟨.branch "AssignStatement" (m :: n :: ls), rfl, ?_⟩
    rw [bind_of (at_same colon), if_pos rfl, bind_of run']
    exact assigned_complete value (by omega) hr

theorem simpleStmt_complete (enough : 5 * len + 4 ≤ fuel) :
    Complete (simpleStmt fuel) .simpleStmt len := by
  intro ts ns rest derived short hr
  obtain ⟨_, h, rfl⟩ := rule_iff.1 derived
  rcases alt_iff.1 h with h | plain
  · rcases alt_iff.1 h with pass | ret
    · obtain ⟨t, rfl, kind, rfl⟩ := token_iff.1 pass
      refine ⟨.branch "PassStatement" [.leaf t], by simp [Kind.isLayout, shape, kind], ?_⟩
      rw [simpleStmt, at_take kind, bind_of leaf_cons, pure_apply]
    · obtain ⟨_, us, _, word, value, rfl⟩ := seq_iff.1 ret
      obtain ⟨t, rfl, kind, rfl⟩ := token_iff.1 word
      rw [List.length_cons] at short
      rw [simpleStmt, at_skip (nextIn_cons kind) (by decide), at_take kind, bind_of leaf_cons]
      rcases opt_iff.1 value with ⟨rfl, rfl⟩ | there
      · refine ⟨.branch "ReturnStatement" [.leaf t], by simp [Kind.isLayout, shape, kind], ?_⟩
        obtain ⟨t', us, rfl, ht⟩ := hr
        have ends : t'.kind = .newline := by simpa [follow] using ht
        rw [at_take ends, pure_apply]
      · obtain ⟨m, rfl, run⟩ := (exprComplete fuel).expr (by omega) there (Nat.le_refl _)
          (hr.mono (by decide))
        refine ⟨.branch "ReturnStatement" [.leaf t, m], by simp [Kind.isLayout, shape, kind], ?_⟩
        rw [at_skip (there.starts rfl) (by decide), bind_of run, pure_apply]
  · obtain ⟨m, hm, run⟩ := exprOrAssign_complete enough plain short hr
    obtain ⟨_, -, rfl⟩ := rule_iff.1 plain
    refine ⟨m, by rw [shape_simpleStmt, hm], ?_⟩
    rw [simpleStmt, at_skip (plain.starts rfl) (by decide), at_skip (plain.starts rfl) (by decide),
      run]

/-- A simple statement with the end of its line is read whatever follows. -/
theorem simpleLine_complete (h : Reads (.rule .simpleStmt ++ .token .newline) ts ns rest)
    (enough : 5 * ts.length + 4 ≤ fuel) : ∃ n, ns = [n] ∧ simpleLine fuel ts = .ok (n, rest) := by
  obtain ⟨_, us, _, stmt, line, rfl⟩ := seq_iff.1 h
  obtain ⟨t, rfl, kind, rfl⟩ := token_iff.1 line
  obtain ⟨m, rfl, run⟩ := simpleStmt_complete enough stmt (Nat.le_refl _)
    ((nextIn_cons kind).mono (by decide))
  exact ⟨m, rfl, by rw [simpleLine, bind_of run, bind_of (drop_cons kind), pure_apply]⟩

theorem paramRest_complete
    (ih : ∀ {ts ns}, ReadsClosed (.rule .param) ts ns rest → 5 * ts.length + 1 ≤ fuel →
      params fuel ts = .ok (ns, rest)) (enough : 5 * us.length + 1 ≤ fuel)
    (h : t.kind = .rparen ∧ us = rest ∧ ns = ms ++ [.leaf t] ∨
      ∃ ls, t.kind = .comma ∧ ReadsClosed (.rule .param) us ls rest ∧ ns = ms ++ .leaf t :: ls) :
    NextIn (follow .param) (t :: us) ∧
      (do
        if ← at? .comma then
          let comma ← leaf
          return ms ++ comma :: (← params fuel)
        else return ms ++ [← want .rparen] : Parser (List Node)) (t :: us) = .ok (ns, rest) := by
  rcases h with ⟨kind, rfl, rfl⟩ | ⟨ls, kind, others, rfl⟩
  · refine ⟨(nextIn_cons kind).mono (by decide), ?_⟩
    rw [at_skip (nextIn_cons kind) (by decide), bind_of (want_cons kind), pure_apply]
  · refine ⟨(nextIn_cons kind).mono (by decide), ?_⟩
    rw [at_take kind, bind_of leaf_cons, bind_of (ih others enough), pure_apply]

theorem params_complete (h : ReadsClosed (.rule .param) ts ns rest)
    (enough : 5 * ts.length + 1 ≤ fuel) : params fuel ts = .ok (ns, rest) := by
  induction fuel generalizing ts ns with
  | zero => omega
  | succ fuel ih =>
    rcases h.parts with ⟨t, rfl, kind, rfl⟩ | ⟨_, t, us, item, h⟩
    · rw [params, at_take kind, bind_of leaf_cons, pure_apply]
    have less := item.length_lt
    rw [List.length_cons] at less
    obtain ⟨next, others⟩ := paramRest_complete ih (by omega) h
    obtain ⟨_, parts, rfl⟩ := rule_iff.1 item
    obtain ⟨_, vs, _, word, type, rfl⟩ := seq_iff.1 parts
    obtain ⟨name, rfl, kind, rfl⟩ := token_iff.1 word
    rw [List.length_cons] at enough
    rw [params, at_skip (nextIn_cons kind) (by decide), bind_of (want_cons kind)]
    rcases opt_iff.1 type with ⟨rfl, rfl⟩ | there
    · rw [bind_of (at_other next (by decide))]
      exact others
    · obtain ⟨n, rfl, run⟩ := (@typeDef_complete fuel _ (by omega)) there (Nat.le_refl _)
        (next.mono (by decide))
      obtain ⟨t', ws, rfl, ht⟩ := there.starts rfl
      have colon : t'.kind = .colon := by simpa [Ebnf.first, start] using ht
      rw [bind_of (at_same colon), if_pos rfl, bind_of run]
      exact others

theorem paramList_complete (enough : 5 * len ≤ fuel) :
    Complete (paramList fuel) .paramList len := by
  intro ts ns rest derived short hr
  obtain ⟨_, h, rfl⟩ := rule_iff.1 derived
  obtain ⟨_, vs, _, head, close, rfl⟩ := seq_iff.1 h
  obtain ⟨_, us, ms, word, items, rfl⟩ := seq_iff.1 head
  obtain ⟨t, rfl, kind, rfl⟩ := token_iff.1 word
  obtain ⟨t', rfl, kind', rfl⟩ := token_iff.1 close
  rw [List.length_cons] at short
  refine ⟨.branch "ParamList" (.leaf t :: (ms ++ [.leaf t'])), rfl, ?_⟩
  rw [paramList, bind_of (want_cons kind),
    bind_of (params_complete ⟨ms, t', items, kind', rfl⟩ (by omega)), pure_apply]

/-- The functions that read statements read what is derived, with five steps of fuel for each
token. -/
structure StmtComplete (fuel : Nat) : Prop where
  stmt : ∀ {len}, 5 * len + 5 ≤ fuel → Complete (stmt fuel) .stmt len
  clauses : ∀ {ts ms us ls rest},
    Reads (.many (.token (.keyword .elifWord) ++ .rule .expr ++ .rule .body)) ts ms us →
    Reads (.opt (.token (.keyword .elseWord) ++ .rule .body)) us ls rest →
    5 * ts.length + 1 ≤ fuel → NextIn afterStmt rest →
    clauses fuel ts = .ok (ms ++ ls, rest)
  body : ∀ {len}, 5 * len + 1 ≤ fuel → Complete (body fuel) .body len
  block : ∀ {ts ms us ls t rest}, Reads (.rule .stmt) ts ms us →
    Reads (.many (.rule .stmt)) us ls (t :: rest) → t.kind = .dedent → 5 * ts.length + 6 ≤ fuel →
    block fuel ts = .ok (ms ++ ls, rest)

section

variable (ih : StmtComplete fuel)
include ih

section

variable (enough : 5 * len + 4 ≤ fuel)
include enough

theorem funcDef_complete : Complete (stmt (fuel + 1)) .funcDef len := by
  intro ts ns rest derived short hr
  obtain ⟨_, h, rfl⟩ := rule_iff.1 derived
  obtain ⟨_, ws, _, head, lines, rfl⟩ := seq_iff.1 h
  obtain ⟨_, vs, _, head', result, rfl⟩ := seq_iff.1 head
  obtain ⟨_, us, _, head'', list, rfl⟩ := seq_iff.1 head'
  obtain ⟨_, _, _, word, ident, rfl⟩ := seq_iff.1 head''
  obtain ⟨t, rfl, kind, rfl⟩ := token_iff.1 word
  obtain ⟨t', rfl, kind', rfl⟩ := token_iff.1 ident
  have less := list.length_le
  have less' := result.length_le
  simp only [List.length_cons] at short
  obtain ⟨params, rfl, run⟩ := (@paramList_complete fuel _ (by omega)) list (Nat.le_refl _)
    ((result.nextIn (lines.nextIn hr)).mono (by decide))
  obtain ⟨body, rfl, run'⟩ := ih.body (by omega) lines (Nat.le_refl _) (hr.mono (by decide))
  rw [stmt, at_take kind, bind_of leaf_cons, bind_of (want_cons kind'), bind_of run]
  rcases opt_iff.1 result with ⟨rfl, rfl⟩ | there
  · refine ⟨.branch "FunctionDefinition" [.leaf t, .leaf t', params, body], rfl, ?_⟩
    rw [at_skip (lines.starts rfl) (by decide), pure_bind]
    simp only [bind_of run', pure_apply]
    rfl
  · obtain ⟨_, xs, _, arrow, type, rfl⟩ := seq_iff.1 there
    obtain ⟨a, rfl, ha, rfl⟩ := token_iff.1 arrow
    rw [List.length_cons] at less
    obtain ⟨m, rfl, run''⟩ := (exprComplete fuel).expr (by omega) type (Nat.le_refl _)
      ((lines.nextIn hr).mono (by decide))
    refine ⟨.branch "FunctionDefinition" [.leaf t, .leaf t', params,
      .branch "TypeDef" [.leaf a, m], body], rfl, ?_⟩
    rw [at_take ha, typeDef, bind_assoc, bind_of (want_cons ha), bind_assoc, bind_of run'',
      pure_bind, pure_bind]
    simp only [bind_of run', pure_apply]
    rfl

theorem ifStmt_complete : Complete (stmt (fuel + 1)) .ifStmt len := by
  intro ts ns rest derived short hr
  obtain ⟨_, h, rfl⟩ := rule_iff.1 derived
  obtain ⟨_, xs, ls, head, otherwise, rfl⟩ := seq_iff.1 h
  obtain ⟨_, ws, ms, head', elifs, rfl⟩ := seq_iff.1 head
  obtain ⟨_, vs, _, head'', lines, rfl⟩ := seq_iff.1 head'
  obtain ⟨_, us, _, word, test, rfl⟩ := seq_iff.1 head''
  obtain ⟨t, rfl, kind, rfl⟩ := token_iff.1 word
  have less := test.length_le
  have less' := lines.length_le
  rw [List.length_cons] at short
  have next : NextIn (follow .body) ws := (elifs.nextIn (otherwise.nextIn hr)).mono (by decide)
  obtain ⟨cond, rfl, run⟩ := (exprComplete fuel).expr (by omega) test (Nat.le_refl _)
    ((lines.nextIn next).mono (by decide))
  obtain ⟨body, rfl, run'⟩ := ih.body (by omega) lines (Nat.le_refl _) next
  refine ⟨.branch "IfStatement" (.leaf t :: cond :: body :: (ms ++ ls)), rfl, ?_⟩
  rw [stmt, at_skip (nextIn_cons kind) (by decide), at_take kind, bind_of leaf_cons, bind_of run,
    bind_of run', bind_of (ih.clauses elifs otherwise (by omega) hr), pure_apply]

theorem whileStmt_complete : Complete (stmt (fuel + 1)) .whileStmt len := by
  intro ts ns rest derived short hr
  obtain ⟨_, h, rfl⟩ := rule_iff.1 derived
  obtain ⟨_, vs, _, head, lines, rfl⟩ := seq_iff.1 h
  obtain ⟨_, us, _, word, test, rfl⟩ := seq_iff.1 head
  obtain ⟨t, rfl, kind, rfl⟩ := token_iff.1 word
  have less := test.length_le
  rw [List.length_cons] at short
  obtain ⟨cond, rfl, run⟩ := (exprComplete fuel).expr (by omega) test (Nat.le_refl _)
    ((lines.nextIn hr).mono (by decide))
  obtain ⟨body, rfl, run'⟩ := ih.body (by omega) lines (Nat.le_refl _) (hr.mono (by decide))
  refine ⟨.branch "WhileStatement" [.leaf t, cond, body], rfl, ?_⟩
  rw [stmt, at_skip (nextIn_cons kind) (by decide), at_skip (nextIn_cons kind) (by decide),
    at_take kind, bind_of leaf_cons, bind_of run, bind_of run', pure_apply]

theorem compoundStmt_complete : Complete (stmt (fuel + 1)) .compoundStmt len := by
  intro ts ns rest derived short hr
  obtain ⟨_, h, rfl⟩ := rule_iff.1 derived
  rcases alt_iff.1 h with h | loop
  · rcases alt_iff.1 h with func | branch
    · exact funcDef_complete ih enough func short hr
    · exact ifStmt_complete ih enough branch short hr
  · exact whileStmt_complete ih enough loop short hr

end

theorem stmt_complete (enough : 5 * len + 5 ≤ fuel + 1) : Complete (stmt (fuel + 1)) .stmt len := by
  intro ts ns rest derived short hr
  obtain ⟨_, h, rfl⟩ := rule_iff.1 derived
  rcases alt_iff.1 h with compound | line
  · exact compoundStmt_complete ih (by omega) compound short hr
  · have plenty : 5 * ts.length + 4 ≤ fuel := by omega
    obtain ⟨m, rfl, run⟩ := simpleLine_complete line plenty
    have next := line.starts rfl
    refine ⟨m, rfl, ?_⟩
    rw [stmt, at_skip next (by decide), at_skip next (by decide), at_skip next (by decide), run]

theorem clauses_complete
    (elifs : Reads (.many (.token (.keyword .elifWord) ++ .rule .expr ++ .rule .body)) ts ms us)
    (otherwise : Reads (.opt (.token (.keyword .elseWord) ++ .rule .body)) us ls rest)
    (enough : 5 * ts.length + 1 ≤ fuel + 1) (hr : NextIn afterStmt rest) :
    clauses (fuel + 1) ts = .ok (ms ++ ls, rest) := by
  rcases many_iff.1 elifs with ⟨rfl, rfl⟩ | ⟨_, vs, _, first, others, rfl⟩
  · rcases opt_iff.1 otherwise with ⟨rfl, rfl⟩ | there
    · rw [clauses, at_skip hr (by decide), at_skip hr (by decide), pure_apply]
      rfl
    · obtain ⟨_, us, _, word, lines, rfl⟩ := seq_iff.1 there
      obtain ⟨t, rfl, kind, rfl⟩ := token_iff.1 word
      rw [List.length_cons] at enough
      obtain ⟨body, rfl, run⟩ := ih.body (by omega) lines (Nat.le_refl _) (hr.mono (by decide))
      rw [clauses, at_skip (nextIn_cons kind) (by decide), at_take kind, bind_of leaf_cons,
        bind_of run, pure_apply]
      rfl
  · obtain ⟨_, ws, _, head, lines, rfl⟩ := seq_iff.1 first
    obtain ⟨_, xs, _, word, test, rfl⟩ := seq_iff.1 head
    obtain ⟨t, rfl, kind, rfl⟩ := token_iff.1 word
    have less := test.length_le
    have less' := lines.length_le
    rw [List.length_cons] at enough
    have next : NextIn (follow .body) vs := (others.nextIn (otherwise.nextIn hr)).mono (by decide)
    obtain ⟨cond, rfl, run⟩ := (exprComplete fuel).expr (by omega) test (Nat.le_refl _)
      ((lines.nextIn next).mono (by decide))
    obtain ⟨body, rfl, run'⟩ := ih.body (by omega) lines (Nat.le_refl _) next
    rw [clauses, at_take kind, bind_of leaf_cons, bind_of run, bind_of run',
      bind_of (ih.clauses others otherwise (by omega) hr), pure_apply]
    rfl

theorem body_complete (enough : 5 * len + 1 ≤ fuel + 1) : Complete (body (fuel + 1)) .body len := by
  intro ts ns rest derived short hr
  obtain ⟨_, h, rfl⟩ := rule_iff.1 derived
  obtain ⟨_, us, _, word, lines, rfl⟩ := seq_iff.1 h
  obtain ⟨t, rfl, kind, rfl⟩ := token_iff.1 word
  rw [List.length_cons] at short
  rw [body, bind_of (want_cons kind)]
  rcases alt_iff.1 lines with line | lines
  · have plenty : 5 * us.length + 4 ≤ fuel := by omega
    obtain ⟨m, rfl, run⟩ := simpleLine_complete line plenty
    refine ⟨.branch "Body" [.leaf t, m], rfl, ?_⟩
    rw [at_skip (line.starts rfl) (by decide), bind_of run, pure_apply]
  · obtain ⟨_, _, _, head, closing, rfl⟩ := seq_iff.1 lines
    obtain ⟨_, ws, ls, head', others, rfl⟩ := seq_iff.1 head
    obtain ⟨_, vs, ms, head'', first, rfl⟩ := seq_iff.1 head'
    obtain ⟨_, _, _, ending, opening, rfl⟩ := seq_iff.1 head''
    obtain ⟨l, rfl, hl, rfl⟩ := token_iff.1 ending
    obtain ⟨o, rfl, ho, rfl⟩ := token_iff.1 opening
    obtain ⟨c, rfl, hc, rfl⟩ := token_iff.1 closing
    simp only [List.length_cons] at short
    refine ⟨.branch "Body" (.leaf t :: (ms ++ ls)), by simp [Kind.isLayout, shape], ?_⟩
    rw [at_take hl, bind_of (drop_cons hl), bind_of (drop_cons ho),
      bind_of (ih.block first others hc (by omega)), pure_apply]

theorem block_complete (first : Reads (.rule .stmt) ts ms us)
    (others : Reads (.many (.rule .stmt)) us ls (t :: rest)) (kind : t.kind = .dedent)
    (enough : 5 * ts.length + 6 ≤ fuel + 1) : block (fuel + 1) ts = .ok (ms ++ ls, rest) := by
  have ending : NextIn afterStmt (t :: rest) := (nextIn_cons kind).mono (by decide)
  have less := first.length_lt
  obtain ⟨m, rfl, run⟩ := ih.stmt (by omega) first (Nat.le_refl _)
    ((others.nextIn ending).mono (by decide))
  rw [block, bind_of run]
  rcases many_iff.1 others with ⟨rfl, rfl⟩ | ⟨_, vs, _, second, others', rfl⟩
  · rw [at_take kind, bind_of (drop_cons kind), pure_apply]
    rfl
  · rw [at_skip (second.starts rfl) (by decide),
      bind_of (ih.block second others' kind (by omega)), pure_apply]
    rfl

end

theorem stmtComplete (fuel : Nat) : StmtComplete fuel := by
  induction fuel with
  | zero => constructor <;> intros <;> omega
  | succ fuel ih =>
    exact ⟨stmt_complete ih, clauses_complete ih, body_complete ih, block_complete ih⟩

theorem stmts_complete (h : Reads (.many (.rule .stmt)) ts ns (t :: rest)) (kind : t.kind = .eof)
    (enough : 5 * ts.length + 6 ≤ fuel) : stmts fuel ts = .ok (ns, t :: rest) := by
  induction fuel generalizing ts ns with
  | zero => omega
  | succ fuel ih =>
    have ending : NextIn afterStmt (t :: rest) := (nextIn_cons kind).mono (by decide)
    rcases many_iff.1 h with ⟨rfl, rfl⟩ | ⟨_, us, _, first, others, rfl⟩
    · rw [stmts, at_take kind, pure_apply]
    · have less := first.length_lt
      obtain ⟨m, rfl, run⟩ := (stmtComplete fuel).stmt (by omega) first (Nat.le_refl _)
        ((others.nextIn ending).mono (by decide))
      rw [stmts, at_skip (first.starts rfl) (by decide), bind_of run,
        bind_of (ih others (by omega)), pure_apply]
      rfl

theorem file_complete (h : Reads (.rule .file) ts ns rest) (enough : 5 * ts.length + 6 ≤ fuel) :
    ∃ n us, ns = [n] ∧ file fuel ts = .ok (n, us) := by
  obtain ⟨_, parts, rfl⟩ := rule_iff.1 h
  obtain ⟨ms, us, _, lines, ending, rfl⟩ := seq_iff.1 parts
  obtain ⟨t, rfl, kind, rfl⟩ := token_iff.1 ending
  refine ⟨.branch "Script" ms, t :: rest, by simp [Kind.isLayout, shape], ?_⟩
  rw [file, bind_of (stmts_complete lines kind enough), pure_apply]

end complete

end Parser

section sources

open Grammar

variable {source : Bytes} {d : Deriv}

theorem derived_ends (h : Derives productions (.rule .file) d) :
    ∃ us t, d.yield = us ++ [t] ∧ t.kind = .eof := by
  cases h with
  | rule h =>
    cases h with
    | @seq _ _ x o _ ho =>
      cases ho with
      | @token _ t kind => exact ⟨x.yield, t, rfl, kind⟩

theorem parse_of_derives (hs : (Scanner.ofBytes source).HandsOut d.yield)
    (hd : Derives productions (.rule .file) d) :
    ∃ n, d.nodes = [n] ∧ Tree.parse source = .ok ⟨n, source⟩ := by
  have enough : 5 * d.yield.length + 6 ≤ Parser.fuelFor d.yield := by
    unfold Parser.fuelFor
    omega
  have whole : Reads (.rule .file) d.yield d.nodes [] := ⟨d, hd, rfl, (List.append_nil _).symm⟩
  obtain ⟨n, us, hn, run⟩ := Parser.file_complete whole enough
  refine ⟨n, hn, ?_⟩
  simp only [Tree.parse, Scanner.scan_tokens hs, StateT.run, run]

theorem derives_of_parse (h : Tree.parse source = .ok tree) :
    ∃ d, (Scanner.ofBytes source).HandsOut d.yield ∧ Derives productions (.rule .file) d := by
  simp only [Tree.parse, StateT.run] at h
  split at h
  · rename_i root us run
    obtain ⟨_, rest, -, d, hd, -, split⟩ := Parser.file_sound run
    obtain ⟨before, t, hy, eof⟩ := derived_ends hd
    have here : (Scanner.scan source).tokens = before ++ t :: rest := by simp [split, hy]
    have all := Scanner.handsOut_of_eof (by rw [← Scanner.scan, here]; simp) eof
    have none := all.nothing_after here eof
    refine ⟨d, ?_, hd⟩
    rw [none, List.append_nil] at split
    rw [← split]
    exact all
  all_goals cases h

end sources

/-- A source is read if and only if its tokens reach the end of the text and are derived from the
grammar. The tree is the one that the derivation determines, and no tokens have two derivations. -/
theorem parse_follows_grammar (source : Bytes) :
    ((∃ tree, Tree.parse source = .ok tree) ↔
      ∃ d : Grammar.Deriv, (Scanner.ofBytes source).HandsOut d.yield ∧
        Grammar.Derives Grammar.productions (.rule .file) d) ∧
    (∀ tree d, Tree.parse source = .ok tree → (Scanner.ofBytes source).HandsOut d.yield →
      Grammar.Derives Grammar.productions (.rule .file) d →
      tree.source = source ∧ d.nodes = [tree.root]) ∧
    ∀ d d', Grammar.Derives Grammar.productions (.rule .file) d →
      Grammar.Derives Grammar.productions (.rule .file) d' → d.yield = d'.yield → d = d' := by
  refine ⟨⟨fun ⟨_, h⟩ => derives_of_parse h, fun ⟨d, hs, hd⟩ => ?_⟩, fun tree d h hs hd => ?_,
    fun d d' => Grammar.derivation_unique⟩
  · obtain ⟨n, -, run⟩ := parse_of_derives hs hd
    exact ⟨_, run⟩
  · obtain ⟨n, hn, run⟩ := parse_of_derives hs hd
    rw [h] at run
    cases run
    exact ⟨rfl, hn⟩

theorem parsed_of_toBool (h : (Tree.parse source).toBool = true) :
    ∃ tree, Tree.parse source = .ok tree := by
  cases read : Tree.parse source with
  | error e =>
    rw [read] at h
    cases h
  | ok tree => exact ⟨tree, rfl⟩

def branches : Bytes :=
  Utf8.encode ("def f(a: int,) -> int:\n  if a < 1: pass\n  elif not a: return -a ** 2\n" ++
    "  else:\n    f(a,)\n")

/-- Trailing commas, bodies on one line and on many, and every clause of an `if` are derived. -/
theorem branches_derived : ∃ d : Grammar.Deriv, (Scanner.ofBytes branches).HandsOut d.yield ∧
    Grammar.Derives Grammar.productions (.rule .file) d :=
  (parse_follows_grammar branches).1.1 (parsed_of_toBool (by decide +kernel))

namespace Grammar

theorem name_derived (kind : t.kind = .name) :
    ∃ d, Derives documented (.rule .expr) d ∧ d.yield = [t] := by
  have atom : Derives documented (.rule .atom) _ :=
    .rule (.left (.left (.left (.left (.left (.token kind))))))
  have factor : Derives documented (.rule .factor) _ :=
    .rule (.right (.rule (.seq (.rule (.seq atom .done)) .absent)))
  have sum : Derives documented (.rule .arithExpr) _ :=
    .rule (.seq (.rule (.seq factor .done)) .done)
  have single : Derives documented (.rule .notExpr) _ := .rule (.right (.rule (.seq sum .done)))
  exact ⟨_, .rule (.rule (.seq (.rule (.seq single .done)) .done)), rfl⟩

theorem arrow_derived (hx : x.kind = .name) (ha : arrow.kind = .arrow) (ht : type.kind = .name)
    (hl : line.kind = .newline) (he : eof.kind = .eof) :
    ∃ d, Derives documented (.rule .file) d ∧ d.yield = [x, arrow, type, line, eof] := by
  obtain ⟨a, ha', hya⟩ := name_derived hx
  obtain ⟨b, hb', hyb⟩ := name_derived ht
  have typed : Derives documented (.rule .typeDef) _ := .rule (.seq (.right (.token ha)) hb')
  have stmt : Derives documented (.rule .simpleStmt) _ :=
    .rule (.right (.rule (.seq (.seq ha' (.present typed)) .absent)))
  exact ⟨_, .rule (.seq (.more (.rule (.right (.seq stmt (.token hl)))) .done) (.token he)),
    by simp [Deriv.yield, hya, hyb]⟩

end Grammar

/-- The documented grammar lets an arrow lead the type of any name, but it is not read there. -/
theorem arrow_statement_not_read :
    (∃ d : Grammar.Deriv, (Scanner.ofBytes (Utf8.encode "x -> int\n")).HandsOut d.yield ∧
      Grammar.Derives Grammar.documented (.rule .file) d) ∧
    ¬ ∃ tree, Tree.parse (Utf8.encode "x -> int\n") = .ok tree := by
  have kinds : (Scanner.scan (Utf8.encode "x -> int\n")).tokens.map (·.kind) =
      [.name, .arrow, .name, .newline, .eof] := by decide +kernel
  have fails : (Tree.parse (Utf8.encode "x -> int\n")).toBool = false := by decide +kernel
  constructor
  · simp only [List.map_eq_cons_iff, List.map_eq_nil_iff] at kinds
    obtain ⟨x, _, split, hx, arrow, _, rfl, ha, type, _, rfl, ht, line, _, rfl, hl, eof, _, rfl, he,
      rfl⟩ := kinds
    obtain ⟨d, hd, hy⟩ := Grammar.arrow_derived hx ha ht hl he
    have all := Scanner.handsOut_of_eof (by rw [← Scanner.scan, split]; simp) he
    rw [← Scanner.scan, split, ← hy] at all
    exact ⟨d, all, hd⟩
  · rintro ⟨tree, read⟩
    rw [read] at fails
    cases fails

end WordScript
