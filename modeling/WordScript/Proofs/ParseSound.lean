import WordScript.Proofs.Grammar
import WordScript.Tree.Parser

/-! What the parser reads is derived.

Each function of the parser reads what a derivation from its production yields, and returns the
nodes that the derivation determines. -/
namespace WordScript
namespace Grammar

open Token (Kind)
open Deriv (leftGrouped callGrouped shape)

/-- The tokens start with what a derivation of `e` yields, and `ns` are its nodes. -/
def Reads (e : Ebnf) (ts : List Token) (ns : List Node) (rest : List Token) : Prop :=
  ∃ d, Derives productions e d ∧ d.nodes = ns ∧ ts = d.yield ++ rest

theorem Derives.reads (h : Derives productions e d) : Reads e (d.yield ++ rest) d.nodes rest :=
  ⟨d, h, rfl, rfl⟩

namespace Reads

variable {a b e : Ebnf} {k : Kind} {t : Token} {ts us rest : List Token}
  {ms ns : List Node}

theorem token (kind : t.kind = k) (text : k.isLayout = false) :
    Reads (.token k) (t :: rest) [.leaf t] rest :=
  ⟨.token t, .token kind, by simp [Deriv.nodes, kind, text], rfl⟩

theorem layout (kind : t.kind = k) (layout : k.isLayout = true) :
    Reads (.token k) (t :: rest) [] rest :=
  ⟨.token t, .token kind, by simp [Deriv.nodes, kind, layout], rfl⟩

theorem rule (s : Symbol) (h : Reads (productions s) ts ns rest) (same : shape s ns = ms) :
    Reads (.rule s) ts ms rest := by
  obtain ⟨d, hd, rfl, rfl⟩ := h
  exact ⟨.rule s d, .rule hd, same, rfl⟩

theorem seq (h : Reads a ts ms us) (h' : Reads b us ns rest) :
    Reads (a ++ b) ts (ms ++ ns) rest := by
  obtain ⟨x, hx, rfl, rfl⟩ := h
  obtain ⟨y, hy, rfl, rfl⟩ := h'
  exact ⟨.seq x y, .seq hx hy, rfl, by simp [Deriv.yield]⟩

theorem left (h : Reads a ts ns rest) : Reads (a ||| b) ts ns rest := by
  obtain ⟨x, hx, rfl, rfl⟩ := h
  exact ⟨.left x, .left hx, rfl, rfl⟩

theorem right (h : Reads b ts ns rest) : Reads (a ||| b) ts ns rest := by
  obtain ⟨y, hy, rfl, rfl⟩ := h
  exact ⟨.right y, .right hy, rfl, rfl⟩

theorem absent : Reads (.opt a) rest [] rest := ⟨.absent, .absent, rfl, rfl⟩

theorem present (h : Reads a ts ns rest) : Reads (.opt a) ts ns rest := by
  obtain ⟨x, hx, rfl, rfl⟩ := h
  exact ⟨.present x, .present hx, rfl, rfl⟩

theorem done : Reads (.many a) rest [] rest := ⟨.done, .done, rfl, rfl⟩

theorem more (h : Reads a ts ms us) (h' : Reads (.many a) us ns rest) :
    Reads (.many a) ts (ms ++ ns) rest := by
  obtain ⟨x, hx, rfl, rfl⟩ := h
  obtain ⟨y, hy, rfl, rfl⟩ := h'
  exact ⟨.more x y, .more hx hy, rfl, by simp [Deriv.yield]⟩

end Reads

def NextIn (after : List Kind) (ts : List Token) : Prop :=
  ∃ t rest, ts = t :: rest ∧ t.kind ∈ after

section next

variable {e : Ebnf} {d : Deriv} {rest : List Token} {after inner : List Kind}

theorem NextIn.mono (h : NextIn after ts) (sub : after ⊆ inner) : NextIn inner ts := by
  obtain ⟨t, rest, rfl, ht⟩ := h
  exact ⟨t, rest, rfl, sub ht⟩

theorem Derives.nextIn (h : Derives productions e d) (hr : NextIn after rest) :
    NextIn (e.first start ++ if e.nullable then after else []) (d.yield ++ rest) := by
  rcases h.starts productions_fit with ⟨t, ts, hy, ht⟩ | ⟨hy, hn⟩
  · exact ⟨t, ts ++ rest, by rw [hy]; rfl, List.mem_append_left _ ht⟩
  · rw [hy, hn]
    exact hr.mono (by simp)

end next

/-- A list of items in parentheses, after the opening one. -/
def ReadsClosed (e : Ebnf) (ts : List Token) (ns : List Node) (rest : List Token) : Prop :=
  ∃ ms close, Reads (.opt (.list e .comma)) ts ms (close :: rest) ∧ close.kind = .rparen ∧
    ns = ms ++ [.leaf close]

section closed

variable {e : Ebnf} {t : Token} {ts us rest : List Token} {ms ns : List Node}

theorem ReadsClosed.close (kind : t.kind = .rparen) : ReadsClosed e (t :: rest) [.leaf t] rest :=
  ⟨[], t, .absent, kind, rfl⟩

theorem ReadsClosed.last (h : Reads e ts ms (t :: rest)) (kind : t.kind = .rparen) :
    ReadsClosed e ts (ms ++ [.leaf t]) rest := by
  have items : Reads (.list e .comma) ts ((ms ++ []) ++ []) (t :: rest) :=
    (h.seq .done).seq .absent
  exact ⟨ms, t, by simpa using items.present, kind, rfl⟩

theorem ReadsClosed.item (h : Reads e ts ms (t :: us)) (kind : t.kind = .comma)
    (others : ReadsClosed e us ns rest) : ReadsClosed e ts (ms ++ .leaf t :: ns) rest := by
  obtain ⟨_, close, ⟨d, hd, rfl, rfl⟩, hclose, rfl⟩ := others
  have comma : ∀ {us}, Reads (.token .comma) (t :: us) [.leaf t] us := .token kind rfl
  cases hd with
  | absent =>
    have items : Reads (.list e .comma) ts ((ms ++ []) ++ [.leaf t]) (close :: rest) :=
      (h.seq .done).seq comma.present
    exact ⟨_, close, items.present, hclose, by simp [Deriv.nodes]⟩
  | present there =>
    cases there with
    | seq items ending =>
      cases items with
      | @seq _ _ x y first others =>
        simp only [Deriv.yield, List.append_assoc] at h
        have items : Reads (.list e .comma) ts _ (close :: rest) :=
          (h.seq ((comma.seq first.reads).more others.reads)).seq ending.reads
        exact ⟨_, close, items.present, hclose, by simp [Deriv.nodes]⟩

end closed

/-- `op` derives the tokens of some kinds, each one as a leaf. -/
structure Signs (op : Ebnf) (isOp : Kind → Bool) : Prop where
  reads : ∀ {t rest}, isOp t.kind = true → Reads op (t :: rest) [.leaf t] rest
  only : ∀ {o}, Derives productions op o →
    ∃ t, isOp t.kind = true ∧ o.yield = [t] ∧ o.nodes = [.leaf t]

namespace Signs

variable {a b : Ebnf} {p q : Kind → Bool}

theorem token (text : k.isLayout = false) : Signs (.token k) (· == k) where
  reads h := .token (by simpa using h) text
  only h := by
    cases h with
    | @token _ t kind => exact ⟨t, by simpa using kind, rfl, by simp [Deriv.nodes, kind, text]⟩

theorem alt (ha : Signs a p) (hb : Signs b q) : Signs (a ||| b) fun k => p k || q k where
  reads h := by
    rcases Bool.or_eq_true _ _ ▸ h with h | h
    · exact (ha.reads h).left
    · exact (hb.reads h).right
  only h := by
    cases h with
    | left h =>
      obtain ⟨t, ht, hy, hn⟩ := ha.only h
      exact ⟨t, by simp [ht], hy, hn⟩
    | right h =>
      obtain ⟨t, ht, hy, hn⟩ := hb.only h
      exact ⟨t, by simp [ht], hy, hn⟩

theorem congr (h : Signs a p) (same : ∀ k, p k = q k) : Signs a q := funext same ▸ h

end Signs

end Grammar

namespace Parser

open Token (Kind)
open Grammar
open Grammar.Deriv (leftGrouped callGrouped shape)

section steps

variable {α β : Type} {ts us : List Token}

theorem bind_ok {f : α → Parser β} :
    (p >>= f) ts = .ok r ↔ ∃ a us, p ts = .ok (a, us) ∧ f a us = .ok r := by
  simp only [bind, StateT.bind, Except.bind]
  cases p ts with
  | error e => simp
  | ok q =>
    obtain ⟨a, us⟩ := q
    simp

theorem pure_ok : (pure a : Parser α) ts = .ok (b, us) ↔ a = b ∧ ts = us := by
  change Except.ok (a, ts) = Except.ok (b, us) ↔ _
  simp

theorem ite_ok [Decidable c] {p : Parser α} :
    (if c then p else q) ts = .ok r ↔ c ∧ p ts = .ok r ∨ ¬ c ∧ q ts = .ok r := by
  by_cases h : c <;> simp [h]

theorem reject_ok : ¬ (reject : Parser α) ts = .ok r := by
  cases ts <;> nofun

theorem leaf_ok : leaf ts = .ok (n, us) ↔ ∃ t, ts = t :: us ∧ n = .leaf t := by
  cases ts with
  | nil => simp [leaf]
  | cons t rest => simp [leaf, eq_comm, and_comm]

theorem peek_ok : peek ts = .ok (t, us) ↔ ts = us ∧ ∃ rest, us = t :: rest := by
  cases ts with
  | nil =>
    simp only [peek, reduceCtorEq, false_iff]
    rintro ⟨rfl, rest, ⟨⟩⟩
  | cons t' rest =>
    simp only [peek, Except.ok.injEq, Prod.mk.injEq]
    constructor
    · rintro ⟨rfl, rfl⟩
      exact ⟨rfl, rest, rfl⟩
    · rintro ⟨rfl, _, ⟨⟩⟩
      exact ⟨rfl, rfl⟩

theorem at_ok :
    at? k ts = .ok (b, us) ↔ ts = us ∧ ∃ t rest, us = t :: rest ∧ decide (t.kind = k) = b := by
  simp only [at?, bind_ok, peek_ok, pure_ok]
  constructor
  · rintro ⟨t, _, ⟨rfl, rest, h⟩, ht, rfl⟩
    exact ⟨rfl, t, rest, h, ht⟩
  · rintro ⟨rfl, t, rest, h, ht⟩
    exact ⟨t, ts, ⟨rfl, rest, h⟩, ht, rfl⟩

theorem want_ok : want k ts = .ok (n, us) ↔ ∃ t, ts = t :: us ∧ t.kind = k ∧ n = .leaf t := by
  simp only [want, bind_ok, at_ok, ite_ok, leaf_ok, reject_ok]
  constructor
  · rintro ⟨b, _, ⟨rfl, t, rest, h, hb⟩, ⟨rfl, t', h', rfl⟩ | ⟨_, ⟨⟩⟩⟩
    obtain ⟨rfl, rfl⟩ := List.cons.inj (h.symm.trans h')
    exact ⟨t, h, of_decide_eq_true hb, rfl⟩
  · rintro ⟨t, rfl, kind, rfl⟩
    exact ⟨true, _, ⟨rfl, t, us, rfl, decide_eq_true kind⟩, .inl ⟨rfl, t, rfl, rfl⟩⟩

theorem drop_ok : drop k ts = .ok (u, us) ↔ ∃ t, ts = t :: us ∧ t.kind = k := by
  simp only [drop, bind_ok, want_ok, pure_ok]
  constructor
  · rintro ⟨_, _, ⟨t, rfl, kind, -⟩, -, rfl⟩
    exact ⟨t, rfl, kind⟩
  · rintro ⟨t, rfl, kind⟩
    exact ⟨.leaf t, us, ⟨t, rfl, kind, rfl⟩, trivial, rfl⟩

end steps

theorem signs_or : Signs (.token (.keyword .or)) isOr := .token rfl

theorem signs_and : Signs (.token (.keyword .and)) isAnd := .token rfl

theorem signs_sum : Signs (.token (.arith .plus) ||| .token (.arith .minus)) isSum :=
  .alt (.token rfl) (.token rfl)

theorem signs_product : Signs (.token (.arith .star) ||| .token (.arith .slash)
    ||| .token (.arith .floorDiv) ||| .token (.arith .mod)) isProduct :=
  .alt (.alt (.alt (.token rfl) (.token rfl)) (.token rfl)) (.token rfl)

theorem signs_comparison : Signs (.rule .compOp) isComparison := by
  have words : Signs (productions .compOp) isComparison := by
    refine (Signs.alt (.alt (.alt (.alt (.alt (.alt (.token rfl) (.token rfl)) (.token rfl))
      (.token rfl)) (.token rfl)) (.token rfl)) (.token rfl)).congr ?_
    intro k
    rcases k with word | _ | sign
    · cases word <;> rfl
    · rfl
    · cases sign <;> rfl
    all_goals rfl
  constructor
  · intro t rest ht
    exact Reads.rule .compOp (words.reads ht) rfl
  · intro o ho
    cases ho with
    | rule h =>
      obtain ⟨t, ht, hy, hn⟩ := words.only h
      exact ⟨t, ht, hy, by rw [Deriv.nodes, hn]; rfl⟩

theorem signs_atom : Signs (.token .name ||| .token .number ||| .token .string ||| .token .boolean
    ||| .token .noneWord) isAtom := by
  refine (Signs.alt (.alt (.alt (.alt (.token rfl) (.token rfl)) (.token rfl)) (.token rfl))
    (.token rfl)).congr ?_
  intro k
  cases k <;> rfl

section sound

variable {fuel : Nat} {ts us : List Token} {n : Node} {ns : List Node}

section levels

variable {operand : Parser Node} {isOp : Kind → Bool} {op e : Ebnf} {lhs : Node}

theorem binaryRest_sound
    (sign : ∀ {t us}, isOp t.kind = true → Reads op (t :: us) [.leaf t] us)
    (side : ∀ {ts n us}, operand ts = .ok (n, us) → Reads e ts [n] us)
    (h : binaryRest operand isOp fuel lhs ts = .ok (n, us)) :
    ∃ ns, Reads (.many (op ++ e)) ts ns us ∧ n = leftGrouped lhs ns := by
  induction fuel generalizing lhs ts with
  | zero => cases h
  | succ fuel ih =>
    simp only [binaryRest, bind_ok, peek_ok, ite_ok, ] at h
    obtain ⟨t, _, ⟨rfl, rest, rfl⟩, ⟨ho, _, _, ⟨_, ⟨⟩, rfl⟩, rhs, vs, hr, h⟩ | ⟨-, rfl, rfl⟩⟩ := h
    · obtain ⟨ns, others, rfl⟩ := ih h
      exact ⟨_, ((sign ho).seq (side hr)).more others, rfl⟩
    · exact ⟨[], .done, rfl⟩

theorem binary_sound (level : productions s = e ++ .many (op ++ e))
    (grouped : ∀ m ns, shape s (m :: ns) = [leftGrouped m ns])
    (sign : ∀ {t us}, isOp t.kind = true → Reads op (t :: us) [.leaf t] us)
    (side : ∀ {ts n us}, operand ts = .ok (n, us) → Reads e ts [n] us)
    (h : binary operand isOp fuel ts = .ok (n, us)) : Reads (.rule s) ts [n] us := by
  simp only [binary, bind_ok] at h
  obtain ⟨lhs, vs, hl, h⟩ := h
  obtain ⟨ns, others, rfl⟩ := binaryRest_sound sign side h
  have parts := (side hl).seq others
  rw [← level] at parts
  exact Reads.rule s parts (grouped lhs ns)

end levels

/-- What the functions that read expressions read. -/
structure ExprSound (fuel : Nat) : Prop where
  expr : ∀ {ts n us}, expr fuel ts = .ok (n, us) → Reads (.rule .expr) ts [n] us
  notExpr : ∀ {ts n us}, notExpr fuel ts = .ok (n, us) → Reads (.rule .notExpr) ts [n] us
  factor : ∀ {ts n us}, factor fuel ts = .ok (n, us) → Reads (.rule .factor) ts [n] us
  primary : ∀ {ts n us}, primary fuel ts = .ok (n, us) → Reads (.rule .primary) ts [n] us
  calls : ∀ {callee ts n us}, calls fuel callee ts = .ok (n, us) →
    ∃ ms, Reads (.many (.rule .argList)) ts ms us ∧ n = callGrouped callee ms
  args : ∀ {ts ns us}, args fuel ts = .ok (ns, us) → ReadsClosed (.rule .expr) ts ns us

section

variable (ih : ExprSound fuel)
include ih

theorem expr_sound (h : expr (fuel + 1) ts = .ok (n, us)) : Reads (.rule .expr) ts [n] us := by
  have level : Reads (.rule .orExpr) ts [n] us :=
    binary_sound rfl (fun _ _ => rfl) signs_or.reads
      (binary_sound rfl (fun _ _ => rfl) signs_and.reads ih.notExpr) h
  exact Reads.rule .expr level rfl

theorem notExpr_sound (h : notExpr (fuel + 1) ts = .ok (n, us)) :
    Reads (.rule .notExpr) ts [n] us := by
  simp only [notExpr, bind_ok, at_ok, ite_ok, ] at h
  obtain ⟨b, _, ⟨rfl, t, rest, rfl, hb⟩, ⟨rfl, _, _, ⟨_, ⟨⟩, rfl⟩, e, vs, he, rfl, rfl⟩ |
    ⟨-, h⟩⟩ := h
  · have parts := (Reads.token (of_decide_eq_true hb) rfl).seq (ih.notExpr he)
    exact Reads.rule .notExpr parts.left rfl
  · have level : Reads (.rule .comparison) (t :: rest) [n] us :=
      binary_sound rfl (fun _ _ => rfl) signs_comparison.reads
        (binary_sound rfl (fun _ _ => rfl) signs_sum.reads
          (binary_sound rfl (fun _ _ => rfl) signs_product.reads ih.factor)) h
    exact Reads.rule .notExpr level.right rfl

theorem factor_sound (h : factor (fuel + 1) ts = .ok (n, us)) :
    Reads (.rule .factor) ts [n] us := by
  simp only [factor, bind_ok, peek_ok, at_ok, ite_ok, ] at h
  obtain ⟨t, _, ⟨rfl, rest, rfl⟩, ⟨ht, _, _, ⟨_, ⟨⟩, rfl⟩, e, vs, he, rfl, rfl⟩ |
    ⟨-, base, vs, hbase, h⟩⟩ := h
  · have parts := (signs_sum.reads ht).seq (ih.factor he)
    exact Reads.rule .factor parts.left rfl
  · have first := ih.primary hbase
    obtain ⟨b, _, ⟨rfl, t', rest', rfl, hb⟩, ⟨rfl, _, _, ⟨_, ⟨⟩, rfl⟩, e, ws, he, rfl, rfl⟩ |
      ⟨-, rfl, rfl⟩⟩ := h
    · have power := first.seq ((Reads.token (of_decide_eq_true hb) rfl).seq (ih.factor he)).present
      exact Reads.rule .factor (Reads.rule .power power rfl).right rfl
    · exact Reads.rule .factor (Reads.rule .power (first.seq .absent) rfl).right rfl

theorem primary_sound (h : primary (fuel + 1) ts = .ok (n, us)) :
    Reads (.rule .primary) ts [n] us := by
  simp only [primary, bind_ok, peek_ok, at_ok, want_ok, ite_ok, ] at h
  obtain ⟨t, _, ⟨rfl, rest, rfl⟩, ⟨ht, _, _, ⟨_, ⟨⟩, rfl⟩, h⟩ | ⟨-, b, _, ⟨rfl, _, _, ⟨⟩, hb⟩,
    ⟨rfl, _, _, ⟨_, ⟨⟩, rfl⟩, inner, vs, hi, _, _, ⟨close, rfl, hc, rfl⟩, h⟩ | ⟨-, ⟨⟩⟩⟩⟩ := h
  · obtain ⟨ms, others, rfl⟩ := ih.calls h
    have atom : Reads (.rule .atom) (t :: rest) [.leaf t] rest :=
      Reads.rule .atom (signs_atom.reads ht).left rfl
    exact Reads.rule .primary (atom.seq others) rfl
  · obtain ⟨ms, others, rfl⟩ := ih.calls h
    have parts := ((Reads.token (of_decide_eq_true hb) rfl).seq (ih.expr hi)).seq (.token hc rfl)
    have atom := Reads.rule .atom parts.right rfl
    exact Reads.rule .primary (atom.seq others) rfl

theorem calls_sound (h : calls (fuel + 1) callee ts = .ok (n, us)) :
    ∃ ms, Reads (.many (.rule .argList)) ts ms us ∧ n = callGrouped callee ms := by
  simp only [calls, bind_ok, at_ok, ite_ok, ] at h
  obtain ⟨b, _, ⟨rfl, t, rest, rfl, hb⟩, ⟨rfl, _, _, ⟨_, ⟨⟩, rfl⟩, ns, vs, hargs, h⟩ |
    ⟨-, rfl, rfl⟩⟩ := h
  · obtain ⟨ms, close, items, hc, rfl⟩ := ih.args hargs
    obtain ⟨ls, others, rfl⟩ := ih.calls h
    have parts := ((Reads.token (of_decide_eq_true hb) rfl).seq items).seq (.token hc rfl)
    exact ⟨_, (Reads.rule .argList parts rfl).more others, by simp [callGrouped, shape]⟩
  · exact ⟨[], .done, rfl⟩

theorem args_sound (h : args (fuel + 1) ts = .ok (ns, us)) :
    ReadsClosed (.rule .expr) ts ns us := by
  simp only [args, bind_ok, at_ok, want_ok, ite_ok, ] at h
  obtain ⟨b, _, ⟨rfl, t, rest, rfl, hb⟩, ⟨rfl, _, _, ⟨_, ⟨⟩, rfl⟩, rfl, rfl⟩ |
    ⟨-, e, vs, he, h⟩⟩ := h
  · exact .close (of_decide_eq_true hb)
  · obtain ⟨b, _, ⟨rfl, t', rest', rfl, hb⟩, ⟨rfl, _, _, ⟨_, ⟨⟩, rfl⟩, ms, ws, hargs, rfl, rfl⟩ |
      ⟨-, _, _, ⟨close, ⟨⟩, hc, rfl⟩, rfl, rfl⟩⟩ := h
    · exact .item (ih.expr he) (of_decide_eq_true hb) (ih.args hargs)
    · exact .last (ih.expr he) hc

end

theorem exprSound (fuel : Nat) : ExprSound fuel := by
  induction fuel with
  | zero => constructor <;> nofun
  | succ fuel ih =>
    exact ⟨expr_sound ih, notExpr_sound ih, factor_sound ih, primary_sound ih, calls_sound ih,
      args_sound ih⟩

theorem typeDef_sound (h : typeDef lead fuel ts = .ok (n, us)) :
    ∃ t e vs, ts = t :: vs ∧ t.kind = lead ∧ Reads (.rule .expr) vs [e] us ∧
      n = .branch "TypeDef" [.leaf t, e] := by
  simp only [typeDef, bind_ok, want_ok] at h
  obtain ⟨_, vs, ⟨t, rfl, kind, rfl⟩, e, _, he, rfl, rfl⟩ := h
  exact ⟨t, e, vs, rfl, kind, (exprSound fuel).expr he, rfl⟩

theorem colonType_sound (h : typeDef .colon fuel ts = .ok (n, us)) :
    Reads (.rule .typeDef) ts [n] us := by
  obtain ⟨t, e, vs, rfl, kind, he, rfl⟩ := typeDef_sound h
  exact Reads.rule .typeDef ((Reads.token kind rfl).seq he) rfl

theorem exprOrAssign_sound (h : exprOrAssign fuel ts = .ok (n, us)) :
    Reads (.rule .exprOrAssignStmt) ts [n] us := by
  simp only [exprOrAssign, bind_ok, at_ok, ite_ok, leaf_ok] at h
  obtain ⟨target, us₁, ht, typed, _, ⟨rfl, t, rest, rfl, hb⟩, h⟩ := h
  have target := (exprSound fuel).expr ht
  rcases h with ⟨rfl, type, us₂, htype, _, _, ⟨rfl, rfl⟩, sign, _, ⟨rfl, t', rest', rfl, hb'⟩, h⟩ |
    ⟨hn, _, _, ⟨rfl, rfl⟩, sign, _, ⟨rfl, t', rest', h', hb'⟩, h⟩
  · have head := target.seq (colonType_sound htype).present
    rcases h with ⟨rfl, _, _, ⟨_, ⟨⟩, rfl⟩, e, vs, he, rfl, rfl⟩ | ⟨-, ⟨-, rfl, rfl⟩ | ⟨hn, -⟩⟩
    · have value := (Reads.token (of_decide_eq_true hb') rfl).seq ((exprSound fuel).expr he)
      exact Reads.rule .exprOrAssignStmt (head.seq value.present) rfl
    · exact Reads.rule .exprOrAssignStmt (head.seq .absent) rfl
    · exact absurd rfl hn
  · have head := target.seq (Reads.absent (a := .rule .typeDef))
    rcases h with ⟨rfl, _, _, ⟨_, h, rfl⟩, e, vs, he, rfl, rfl⟩ | ⟨-, ⟨rfl, -⟩ | ⟨-, rfl, rfl⟩⟩
    · cases h'
      cases h
      have value := (Reads.token (of_decide_eq_true hb') rfl).seq ((exprSound fuel).expr he)
      exact Reads.rule .exprOrAssignStmt (head.seq value.present) rfl
    · exact absurd rfl hn
    · exact Reads.rule .exprOrAssignStmt (head.seq .absent) rfl

theorem shape_simpleStmt (ns : List Node) :
    shape .simpleStmt (shape .exprOrAssignStmt ns) = shape .exprOrAssignStmt ns := by
  cases ns with
  | nil => rfl
  | cons n ns => cases ns <;> rfl

theorem simpleStmt_sound (h : simpleStmt fuel ts = .ok (n, us)) :
    Reads (.rule .simpleStmt) ts [n] us := by
  simp only [simpleStmt, bind_ok, at_ok, ite_ok, ] at h
  obtain ⟨b, _, ⟨rfl, t, rest, rfl, hb⟩, ⟨rfl, _, _, ⟨_, ⟨⟩, rfl⟩, rfl, rfl⟩ | ⟨-, h⟩⟩ := h
  · have kind := of_decide_eq_true hb
    exact .rule .simpleStmt (Reads.token kind rfl).left.left (by simp [shape, kind])
  obtain ⟨b, _, ⟨rfl, _, _, ⟨⟩, hb⟩, ⟨rfl, _, _, ⟨_, ⟨⟩, rfl⟩, h⟩ | ⟨-, h⟩⟩ := h
  · have kind := of_decide_eq_true hb
    obtain ⟨b, _, ⟨rfl, t', rest', rfl, hb'⟩, ⟨rfl, rfl, rfl⟩ | ⟨-, e, vs, he, rfl, rfl⟩⟩ := h
    · exact .rule .simpleStmt ((Reads.token kind rfl).seq .absent).right.left
        (by simp [shape, kind])
    · have parts := (Reads.token kind rfl).seq ((exprSound fuel).expr he).present
      exact .rule .simpleStmt parts.right.left (by simp [shape, kind])
  · obtain ⟨d, hd, hn, hts⟩ := exprOrAssign_sound h
    refine .rule .simpleStmt (Reads.right ⟨d, hd, hn, hts⟩) ?_
    cases hd with
    | rule hd => rw [← hn, Deriv.nodes, shape_simpleStmt]

theorem simpleLine_sound (h : simpleLine fuel ts = .ok (n, us)) :
    Reads (.rule .simpleStmt ++ .token .newline) ts [n] us := by
  simp only [simpleLine, bind_ok, drop_ok] at h
  obtain ⟨m, vs, hm, _, _, ⟨t, rfl, kind⟩, rfl, rfl⟩ := h
  exact (simpleStmt_sound hm).seq (.layout kind rfl)

theorem paramRest_sound
    (ih : ∀ {ts ns}, params fuel ts = .ok (ns, us) → ReadsClosed (.rule .param) ts ns us)
    (item : Reads (.rule .param) ts ms vs)
    (h : (do if ← at? .comma then let comma ← leaf return ms ++ comma :: (← params fuel) else return ms ++ [← want .rparen] : Parser (List Node)) vs = .ok (ns, us)) :
    ReadsClosed (.rule .param) ts ns us := by
  simp only [bind_ok, at_ok, want_ok, ite_ok, ] at h
  obtain ⟨b, _, ⟨rfl, t, rest, rfl, hb⟩, ⟨rfl, _, _, ⟨_, ⟨⟩, rfl⟩, ns, ws, hns, rfl, rfl⟩ | h⟩ := h
  · exact .item item (of_decide_eq_true hb) (ih hns)
  · obtain ⟨-, _, _, ⟨close, ⟨⟩, hclose, rfl⟩, rfl, rfl⟩ := h
    exact .last item hclose

theorem params_sound (h : params fuel ts = .ok (ns, us)) : ReadsClosed (.rule .param) ts ns us := by
  induction fuel generalizing ts ns with
  | zero => cases h
  | succ fuel ih =>
    rw [params, bind_ok] at h
    obtain ⟨b, _, hat, h⟩ := h
    obtain ⟨rfl, t, rest, rfl, hb⟩ := at_ok.1 hat
    rw [ite_ok] at h
    rcases h with ⟨rfl, h⟩ | ⟨-, h⟩
    · obtain ⟨_, _, ⟨_, ⟨⟩, rfl⟩, rfl, rfl⟩ := h
      exact .close (of_decide_eq_true hb)
    · rw [bind_ok] at h
      obtain ⟨_, _, hname, h⟩ := h
      obtain ⟨name, ⟨⟩, kind, rfl⟩ := want_ok.1 hname
      rw [bind_ok] at h
      obtain ⟨b, _, hat, h⟩ := h
      obtain ⟨rfl, t', rest', rfl, hb⟩ := at_ok.1 hat
      rw [ite_ok] at h
      rcases h with ⟨-, h⟩ | ⟨-, h⟩
      · rw [bind_ok] at h
        obtain ⟨type, vs, htype, h⟩ := h
        have parts := (Reads.token kind rfl).seq (colonType_sound htype).present
        exact paramRest_sound ih (.rule .param parts rfl) h
      · exact paramRest_sound ih (.rule .param ((Reads.token kind rfl).seq .absent) rfl) h

theorem paramList_sound (h : paramList fuel ts = .ok (n, us)) :
    Reads (.rule .paramList) ts [n] us := by
  simp only [paramList, bind_ok, want_ok] at h
  obtain ⟨_, vs, ⟨t, rfl, kind, rfl⟩, ns, _, hns, rfl, rfl⟩ := h
  obtain ⟨ms, close, items, hclose, rfl⟩ := params_sound hns
  exact .rule .paramList (((Reads.token kind rfl).seq items).seq (.token hclose rfl)) rfl

/-- What the functions that read statements read. -/
structure StmtSound (fuel : Nat) : Prop where
  stmt : ∀ {ts n us}, stmt fuel ts = .ok (n, us) → Reads (.rule .stmt) ts [n] us
  clauses : ∀ {ts ns us}, clauses fuel ts = .ok (ns, us) → ∃ ms ls vs,
    Reads (.many (.token (.keyword .elifWord) ++ .rule .expr ++ .rule .body)) ts ms vs ∧
    Reads (.opt (.token (.keyword .elseWord) ++ .rule .body)) vs ls us ∧ ns = ms ++ ls
  body : ∀ {ts n us}, body fuel ts = .ok (n, us) → Reads (.rule .body) ts [n] us
  block : ∀ {ts ns us}, block fuel ts = .ok (ns, us) →
    ∃ m ms vs close, Reads (.rule .stmt) ts [m] vs ∧
      Reads (.many (.rule .stmt)) vs ms (close :: us) ∧ close.kind = .dedent ∧ ns = m :: ms

theorem funcDef_sound (ih : StmtSound fuel) {t : Token} {rest : List Token}
    (kind : t.kind = .keyword .define)
    (h : (do
      let word ← leaf
      let name ← want .name
      let params ← paramList fuel
      let returns ← if ← at? .arrow then pure [← typeDef .arrow fuel] else pure []
      return .branch "FunctionDefinition" ([word, name, params] ++ returns ++ [← body fuel])
      : Parser Node) (t :: rest) = .ok (n, us)) :
    Reads (.rule .funcDef) (t :: rest) [n] us := by
  simp only [bind_ok, at_ok, want_ok, ite_ok, ] at h
  obtain ⟨_, _, ⟨_, ⟨⟩, rfl⟩, _, us₁, ⟨name, rfl, hname, rfl⟩, params, us₂, hp, h⟩ := h
  have head := ((Reads.token kind rfl).seq (.token hname rfl)).seq (paramList_sound hp)
  obtain ⟨b, _, ⟨rfl, t', rest', rfl, hb⟩,
    ⟨rfl, type, us₃, ht, _, _, ⟨rfl, rfl⟩, block, _, hbody, rfl, rfl⟩ |
    ⟨-, _, _, ⟨rfl, rfl⟩, block, _, hbody, rfl, rfl⟩⟩ := h
  · obtain ⟨arrow, e, vs, ⟨⟩, ha, he, rfl⟩ := typeDef_sound ht
    have returns := ((Reads.token ha rfl).seq he).present
    exact .rule .funcDef ((head.seq returns).seq (ih.body hbody)) rfl
  · exact .rule .funcDef ((head.seq .absent).seq (ih.body hbody)) rfl

theorem stmt_sound (ih : StmtSound fuel) (h : stmt (fuel + 1) ts = .ok (n, us)) :
    Reads (.rule .stmt) ts [n] us := by
  rw [stmt, bind_ok] at h
  obtain ⟨b, _, hat, h⟩ := h
  obtain ⟨rfl, t, rest, rfl, hb⟩ := at_ok.1 hat
  rw [ite_ok] at h
  rcases h with ⟨rfl, h⟩ | ⟨-, h⟩
  · have compound := funcDef_sound ih (of_decide_eq_true hb) h
    exact .rule .stmt (Reads.rule .compoundStmt compound.left.left rfl).left rfl
  simp only [bind_ok, at_ok, ite_ok, ] at h
  obtain ⟨b, _, ⟨rfl, _, _, ⟨⟩, hb⟩, ⟨rfl, _, _, ⟨_, ⟨⟩, rfl⟩, c, us₁, hc, block, us₂, hblock, ns,
    _, hns, rfl, rfl⟩ | ⟨-, h⟩⟩ := h
  · obtain ⟨ms, ls, vs, elifs, last, rfl⟩ := ih.clauses hns
    have head := ((Reads.token (of_decide_eq_true hb) rfl).seq ((exprSound fuel).expr hc)).seq
      (ih.body hblock)
    have compound := Reads.rule .ifStmt ((head.seq elifs).seq last) rfl
    exact .rule .stmt (Reads.rule .compoundStmt compound.right.left rfl).left (by simp [shape])
  obtain ⟨b, _, ⟨rfl, _, _, ⟨⟩, hb⟩, ⟨rfl, _, _, ⟨_, ⟨⟩, rfl⟩, c, us₁, hc, block, _, hblock, rfl,
    rfl⟩ | ⟨-, h⟩⟩ := h
  · have compound := Reads.rule .whileStmt (((Reads.token (of_decide_eq_true hb) rfl).seq
      ((exprSound fuel).expr hc)).seq (ih.body hblock)) rfl
    exact .rule .stmt (Reads.rule .compoundStmt compound.right rfl).left rfl
  · exact .rule .stmt (simpleLine_sound h).right rfl

theorem clauses_sound (ih : StmtSound fuel) (h : clauses (fuel + 1) ts = .ok (ns, us)) :
    ∃ ms ls vs,
      Reads (.many (.token (.keyword .elifWord) ++ .rule .expr ++ .rule .body)) ts ms vs ∧
      Reads (.opt (.token (.keyword .elseWord) ++ .rule .body)) vs ls us ∧ ns = ms ++ ls := by
  simp only [clauses, bind_ok, at_ok, ite_ok, ] at h
  obtain ⟨b, _, ⟨rfl, t, rest, rfl, hb⟩, ⟨rfl, _, _, ⟨_, ⟨⟩, rfl⟩, c, us₁, hc, block, us₂, hblock,
    ns, _, hns, rfl, rfl⟩ | ⟨-, h⟩⟩ := h
  · obtain ⟨ms, ls, vs, elifs, last, rfl⟩ := ih.clauses hns
    have clause := ((Reads.token (of_decide_eq_true hb) rfl).seq ((exprSound fuel).expr hc)).seq
      (ih.body hblock)
    exact ⟨_, ls, vs, clause.more elifs, last, rfl⟩
  obtain ⟨b, _, ⟨rfl, _, _, ⟨⟩, hb⟩, ⟨rfl, _, _, ⟨_, ⟨⟩, rfl⟩, block, _, hblock, rfl, rfl⟩ |
    ⟨-, rfl, rfl⟩⟩ := h
  · have clause := (Reads.token (of_decide_eq_true hb) rfl).seq (ih.body hblock)
    exact ⟨[], _, _, .done, clause.present, rfl⟩
  · exact ⟨[], [], _, .done, .absent, rfl⟩

theorem body_sound (ih : StmtSound fuel) (h : body (fuel + 1) ts = .ok (n, us)) :
    Reads (.rule .body) ts [n] us := by
  simp only [body, bind_ok, at_ok, want_ok, drop_ok, ite_ok] at h
  obtain ⟨_, us₁, ⟨t, rfl, kind, rfl⟩, b, _, ⟨rfl, t', rest', rfl, hb⟩, h⟩ := h
  have colon : Reads (.token .colon) (t :: t' :: rest') [.leaf t] (t' :: rest') := .token kind rfl
  rcases h with ⟨rfl, _, _, ⟨line, ⟨⟩, hline⟩, _, _, ⟨opening, rfl, hopen⟩, ns, _, hns, rfl, rfl⟩ |
    ⟨-, m, _, hm, rfl, rfl⟩
  · obtain ⟨m, ms, vs, close, first, others, hclose, rfl⟩ := ih.block hns
    have lines := ((((Reads.layout hline rfl).seq (.layout hopen rfl)).seq first).seq others).seq
      (.layout hclose rfl)
    exact .rule .body (colon.seq lines.right) (by simp [shape])
  · exact .rule .body (colon.seq (simpleLine_sound hm).left) rfl

theorem block_sound (ih : StmtSound fuel) (h : block (fuel + 1) ts = .ok (ns, us)) :
    ∃ m ms vs close, Reads (.rule .stmt) ts [m] vs ∧
      Reads (.many (.rule .stmt)) vs ms (close :: us) ∧ close.kind = .dedent ∧ ns = m :: ms := by
  simp only [block, bind_ok, at_ok, drop_ok, ite_ok] at h
  obtain ⟨m, us₁, hm, b, _, ⟨rfl, t, rest, rfl, hb⟩, ⟨rfl, _, _, ⟨_, ⟨⟩, kind⟩, rfl, rfl⟩ |
    ⟨-, ns, _, hns, rfl, rfl⟩⟩ := h
  · exact ⟨m, [], _, t, ih.stmt hm, .done, kind, rfl⟩
  · obtain ⟨m', ms, vs, close, first, others, hclose, rfl⟩ := ih.block hns
    exact ⟨m, _, _, close, ih.stmt hm, first.more others, hclose, rfl⟩

theorem stmtSound (fuel : Nat) : StmtSound fuel := by
  induction fuel with
  | zero => constructor <;> nofun
  | succ fuel ih => exact ⟨stmt_sound ih, clauses_sound ih, body_sound ih, block_sound ih⟩

theorem stmts_sound (h : stmts fuel ts = .ok (ns, us)) :
    ∃ t rest, us = t :: rest ∧ t.kind = .eof ∧ Reads (.many (.rule .stmt)) ts ns us := by
  induction fuel generalizing ts ns with
  | zero => cases h
  | succ fuel ih =>
    simp only [stmts, bind_ok, at_ok, ite_ok] at h
    obtain ⟨b, _, ⟨rfl, t, rest, rfl, hb⟩, ⟨rfl, rfl, rfl⟩ |
      ⟨-, m, vs, hm, ns, _, hns, rfl, rfl⟩⟩ := h
    · exact ⟨t, rest, rfl, of_decide_eq_true hb, .done⟩
    · obtain ⟨t', rest', rfl, kind, others⟩ := ih hns
      exact ⟨t', rest', rfl, kind, ((stmtSound fuel).stmt hm).more others⟩

theorem file_sound (h : file fuel ts = .ok (n, us)) :
    ∃ t rest, us = t :: rest ∧ Reads (.rule .file) ts [n] rest := by
  simp only [file, bind_ok] at h
  obtain ⟨ns, _, hns, rfl, rfl⟩ := h
  obtain ⟨t, rest, rfl, kind, stmts⟩ := stmts_sound hns
  exact ⟨t, rest, rfl, .rule .file (stmts.seq (.layout kind rfl)) (by simp [shape])⟩

end sound

end Parser
end WordScript
