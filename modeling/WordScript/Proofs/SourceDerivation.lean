import WordScript.Proofs.ParseSound
import WordScript.Proofs.SourceTokens

/-! Words that are derived.

It is stated of words, not of tokens, that they are derived from an expression of the grammar, with
a condition on the nodes of the derivation. A place for operands is a level of the grammar: what
binds as tightly as the place or tighter is read at that level. -/
namespace WordScript
namespace Grammar

open Token (Kind)
open Deriv (leftGrouped callGrouped shape)
open Scanner (Shows)

variable {b a : Ebnf} {ts us rest : List Token} {ms ns : List Node} {source : Bytes}

/-- Tokens that show the words are derived from `e`, and `P` holds of the nodes. -/
def ReadsAs (source : Bytes) (e : Ebnf) (ws : List (Kind × String)) (P : List Node → Prop) : Prop :=
  ∀ ⦃ts⦄, List.Forall₂ (Shows source) ts ws → ∃ ns, P ns ∧ ∀ rest, Reads e (ts ++ rest) ns rest

def One (P : Node → Prop) (ns : List Node) : Prop := ∃ n, ns = [n] ∧ P n

def Joined (P Q : List Node → Prop) (ns : List Node) : Prop :=
  ∃ ms ms', ns = ms ++ ms' ∧ P ms ∧ Q ms'

def IsLeaf (source : Bytes) (kind : Kind) (x : String) (n : Node) : Prop :=
  ∃ t, n = .leaf t ∧ Shows source t (kind, x)

theorem Reads.append (h : Reads (.many b) ts ms us) (h' : Reads (.many b) us ns rest) :
    Reads (.many b) ts (ms ++ ns) rest := by
  obtain ⟨d, hd, rfl, rfl⟩ := h
  generalize he : Ebnf.many b = e at hd
  induction hd with
  | done =>
    obtain rfl := Ebnf.many.inj he
    simpa [Deriv.yield, Deriv.nodes] using h'
  | more first _ _ ih =>
    obtain rfl := Ebnf.many.inj he
    have all := first.reads.more (ih rfl)
    simpa [Deriv.yield, Deriv.nodes] using all
  | _ => cases he

theorem Reads.assoc (h : Reads (a ++ (b ++ c)) ts ns rest) : Reads (a ++ b ++ c) ts ns rest := by
  obtain ⟨d, hd, rfl, rfl⟩ := h
  cases hd with
  | seq hx hd =>
    cases hd with
    | seq hy hz =>
      have last : Reads _ _ _ rest := hz.reads
      have all := (hx.reads.seq hy.reads).seq last
      simpa [Deriv.yield, Deriv.nodes] using all

theorem Reads.snoc (h : Reads (a ++ .many b) ts ms us) (h' : Reads b us ns rest) :
    Reads (a ++ .many b) ts (ms ++ ns) rest := by
  obtain ⟨d, hd, rfl, rfl⟩ := h
  cases hd with
  | seq hx hy =>
    have all := hx.reads.seq (hy.reads.append (h'.more .done))
    simpa [Deriv.yield, Deriv.nodes] using all

theorem Reads.some (h : Reads (.many a) ts ns rest) (ne : ns ≠ []) :
    Reads (a ++ .many a) ts ns rest := by
  obtain ⟨d, hd, rfl, rfl⟩ := h
  cases hd with
  | done => exact absurd rfl ne
  | more first others =>
    have last : Reads _ _ _ rest := others.reads
    have all := first.reads.seq last
    simpa [Deriv.yield, Deriv.nodes] using all

namespace ReadsAs

variable {source : Bytes} {a b e : Ebnf} {k : Kind} {x : String} {vs ws : List (Kind × String)}
  {P Q R : List Node → Prop}

theorem mono (h : ReadsAs source e ws P) (imp : ∀ ns, P ns → Q ns) : ReadsAs source e ws Q := by
  intro ts shows
  obtain ⟨ns, hp, reads⟩ := h shows
  exact ⟨ns, imp ns hp, reads⟩

theorem token (text : k.isLayout = false) :
    ReadsAs source (.token k) [(k, x)] (One (IsLeaf source k x)) := by
  intro ts shows
  cases shows with
  | @cons t _ _ _ first others =>
    cases others
    exact ⟨[.leaf t], ⟨_, rfl, t, rfl, first⟩, fun rest => .token first.1 text⟩

theorem layout (layout : k.isLayout = true) : ReadsAs source (.token k) [(k, x)] (· = []) := by
  intro ts shows
  cases shows with
  | cons first others =>
    cases others
    exact ⟨[], rfl, fun rest => .layout first.1 layout⟩

theorem split (shows : List.Forall₂ (Shows source) ts (vs ++ ws)) :
    ∃ us us', ts = us ++ us' ∧ List.Forall₂ (Shows source) us vs ∧
      List.Forall₂ (Shows source) us' ws :=
  ⟨ts.take vs.length, ts.drop vs.length, (List.take_append_drop _ _).symm,
    List.forall₂_take_append _ _ _ shows, List.forall₂_drop_append _ _ _ shows⟩

theorem join (h : ReadsAs source a vs P) (h' : ReadsAs source b ws Q)
    (both : ∀ {ts ms us ns rest}, Reads a ts ms us → Reads b us ns rest →
      Reads e ts (ms ++ ns) rest) : ReadsAs source e (vs ++ ws) (Joined P Q) := by
  intro ts shows
  obtain ⟨us, us', rfl, first, second⟩ := split shows
  obtain ⟨ms, hp, reads⟩ := h first
  obtain ⟨ns, hq, reads'⟩ := h' second
  refine ⟨ms ++ ns, ⟨ms, ns, rfl, hp, hq⟩, fun rest => ?_⟩
  rw [List.append_assoc]
  exact both (reads _) (reads' rest)

theorem seq (h : ReadsAs source a vs P) (h' : ReadsAs source b ws Q) :
    ReadsAs source (a ++ b) (vs ++ ws) (Joined P Q) := h.join h' .seq

theorem more (h : ReadsAs source a vs P) (h' : ReadsAs source (.many a) ws Q) :
    ReadsAs source (.many a) (vs ++ ws) (Joined P Q) := h.join h' .more

theorem snoc (h : ReadsAs source (a ++ .many b) vs P) (h' : ReadsAs source b ws Q) :
    ReadsAs source (a ++ .many b) (vs ++ ws) (Joined P Q) := h.join h' .snoc

theorem empty (h : ∀ rest, Reads e rest [] rest) : ReadsAs source e [] (· = []) := by
  intro ts shows
  cases shows
  exact ⟨[], rfl, h⟩

theorem rule (s : Symbol) (h : ReadsAs source (productions s) ws P)
    (shaped : ∀ ns, P ns → Q (shape s ns)) : ReadsAs source (.rule s) ws Q := by
  intro ts shows
  obtain ⟨ns, hp, reads⟩ := h shows
  exact ⟨shape s ns, shaped ns hp, fun rest => .rule s (reads rest) rfl⟩

theorem lift (h : ReadsAs source a ws P)
    (derives : ∀ {ts ns rest}, Reads a ts ns rest → Reads b ts ns rest) :
    ReadsAs source b ws P := by
  intro ts shows
  obtain ⟨ns, hp, reads⟩ := h shows
  exact ⟨ns, hp, fun rest => derives (reads rest)⟩

end ReadsAs

/-- What is grouped to the left, if `P` holds of the group. -/
def Grouped (P : Node → Prop) (ns : List Node) : Prop :=
  ∃ m ms, ns = m :: ms ∧ 2 ∣ ms.length ∧ P (leftGrouped m ms)

theorem leftGrouped_append : {ns : List Node} → 2 ∣ ns.length →
    leftGrouped m (ns ++ [o, r]) = .branch "BinaryExpression" [leftGrouped m ns, o, r]
  | [], _ => rfl
  | [_], h => by simp at h
  | a :: b :: ns, h => @leftGrouped_append _ o r ns (by simpa using h)

/-- What is read where operands bind at a level or tighter. -/
def ReadsAt (source : Bytes) (ws : List (Kind × String)) (P : Node → Prop) : (level : Nat) → Prop
  | 0 => ReadsAs source (.rule .notExpr) ws (One P)
  | 1 => ReadsAs source (productions .comparison) ws (Grouped P)
  | 2 => ReadsAs source (productions .arithExpr) ws (Grouped P)
  | 3 => ReadsAs source (productions .term) ws (Grouped P)
  | 4 => ReadsAs source (.rule .factor) ws (One P)
  | _ => ReadsAs source (.rule .primary) ws (One P)

section levels

variable {source : Bytes} {ws vs : List (Kind × String)} {P Q : Node → Prop} {s i : Symbol}
  {op : Ebnf}
variable {x : String}

theorem ReadsAs.grouped (grouped : ∀ m ns, shape s (m :: ns) = [leftGrouped m ns])
    (h : ReadsAs source (productions s) ws (Grouped P)) : ReadsAs source (.rule s) ws (One P) := by
  refine h.rule s ?_
  rintro _ ⟨m, ms, rfl, -, hp⟩
  exact ⟨_, grouped m ms, hp⟩

theorem ReadsAs.alone (h : ReadsAs source a ws (One P)) :
    ReadsAs source (a ++ .many b) ws (Grouped P) := by
  have all := h.seq (ReadsAs.empty (e := .many b) fun _ => .done)
  rw [List.append_nil] at all
  refine all.mono ?_
  rintro _ ⟨_, _, rfl, ⟨n, rfl, hp⟩, rfl⟩
  exact ⟨n, [], rfl, ⟨0, rfl⟩, hp⟩

theorem ReadsAt.lower : {level : Nat} → ReadsAt source ws P (level + 1) → ReadsAt source ws P level
  | 0, h => by
    refine ReadsAs.rule .notExpr (P := One P)
      ((ReadsAs.grouped (s := .comparison) (fun _ _ => rfl) h).lift .right) ?_
    rintro _ ⟨n, rfl, hp⟩
    exact ⟨n, rfl, hp⟩
  | 1, h => (ReadsAs.grouped (s := .arithExpr) (fun _ _ => rfl) h).alone
  | 2, h => (ReadsAs.grouped (s := .term) (fun _ _ => rfl) h).alone
  | 3, h => ReadsAs.alone h
  | 4, h => by
    have opt : ReadsAs source (.rule .primary ++ .opt (.token (.arith .power) ++ .rule .factor)) ws
        (Joined (One P) (· = [])) := by
      simpa using ReadsAs.seq h (ReadsAs.empty fun _ => .absent)
    have power : ReadsAs source (.rule .power) ws (One P) := by
      refine opt.rule .power ?_
      rintro _ ⟨_, _, rfl, ⟨n, rfl, hp⟩, rfl⟩
      exact ⟨n, rfl, hp⟩
    refine (power.lift .right).rule .factor ?_
    rintro _ ⟨n, rfl, hp⟩
    exact ⟨n, rfl, hp⟩
  | _ + 5, h => h

theorem ReadsAt.le (h : ReadsAt source ws P level) (le : place ≤ level) :
    ReadsAt source ws P place := by
  induction le with
  | refl => exact h
  | step _ ih => exact ih h.lower

theorem ReadsAt.tight (h : ReadsAt source ws P 5) : (place : Nat) → ReadsAt source ws P place
  | 0 | 1 | 2 | 3 | 4 => h.le (by omega)
  | _ + 5 => h

theorem ReadsAt.mono (h : ∀ n, P n → Q n) : {level : Nat} → ReadsAt source ws P level →
    ReadsAt source ws Q level
  | 0, reads | 4, reads | _ + 5, reads =>
    ReadsAs.mono reads fun _ ⟨n, hn, hp⟩ => ⟨n, hn, h n hp⟩
  | 1, reads | 2, reads | 3, reads =>
    ReadsAs.mono reads fun _ ⟨m, ms, hn, even, hp⟩ => ⟨m, ms, hn, even, h _ hp⟩

theorem ReadsAt.expr (h : ReadsAt source ws P 0) : ReadsAs source (.rule .expr) ws (One P) := by
  have conj : ReadsAs source (.rule .andExpr) ws (One P) :=
    ReadsAs.grouped (s := .andExpr) (fun _ _ => rfl) (ReadsAs.alone h)
  have disj : ReadsAs source (.rule .orExpr) ws (One P) :=
    ReadsAs.grouped (s := .orExpr) (fun _ _ => rfl) conj.alone
  exact disj.rule .expr fun _ hp => hp

theorem ReadsAs.sign (signs : Signs op isOp) (h : isOp k = true) :
    ReadsAs source op [(k, x)] (One (IsLeaf source k x)) := by
  intro ts shows
  cases shows with
  | @cons t _ _ _ first others =>
    cases others
    have kind : isOp t.kind = true := by
      rw [first.1]
      exact h
    exact ⟨[.leaf t], ⟨_, rfl, t, rfl, first⟩, fun rest => signs.reads kind⟩

def Operation (source : Bytes) (op : BinaryOp) (P Q : Node → Prop) (n : Node) : Prop :=
  ∃ l o r, n = .branch "BinaryExpression" [l, o, r] ∧ P l ∧
    IsLeaf source op.kind (op.text?.getD "") o ∧ Q r

theorem ReadsAs.operation (h : ReadsAs source (a ++ .many (op ++ b)) ws (Grouped P))
    (sign : ReadsAs source op [(o.kind, o.text?.getD "")] (One (IsLeaf source o.kind (o.text?.getD ""))))
    (h' : ReadsAs source b vs (One Q)) :
    ReadsAs source (a ++ .many (op ++ b)) (ws ++ (o.kind, o.text?.getD "") :: vs)
      (Grouped (Operation source o P Q)) := by
  refine (h.snoc (sign.seq h')).mono ?_
  rintro _ ⟨_, _, rfl, ⟨m, ms, rfl, even, hp⟩, _, _, rfl, ⟨n, rfl, hn⟩, r, rfl, hr⟩
  refine ⟨m, ms ++ [n, r], rfl, ?_, ?_⟩
  · simpa using even
  · rw [leftGrouped_append even]
    exact ⟨_, n, r, rfl, hp, hn, hr⟩

theorem ReadsAt.operation (known : o.Known) (h : ReadsAt source ws P o.level)
    (h' : ReadsAt source vs Q (o.level + 1)) :
    ReadsAt source (ws ++ (o.kind, o.text?.getD "") :: vs) (Operation source o P Q) o.level := by
  cases o with
  | add | sub =>
    have right := ReadsAs.grouped (s := .term) (fun _ _ => rfl) h'
    exact ReadsAs.operation h (.sign Parser.signs_sum rfl) right
  | mul | floorDiv | mod =>
    exact ReadsAs.operation h (.sign Parser.signs_product rfl) h'
  | gt | ge | lt | le | eq | ne | is =>
    have right := ReadsAs.grouped (s := .arithExpr) (fun _ _ => rfl) h'
    exact ReadsAs.operation h (.sign Parser.signs_comparison rfl) right
  | other => exact known.elim

def Signed (source : Bytes) (kind : Kind) (x : String) (P : Node → Prop) (n : Node) : Prop :=
  ∃ o m, n = .branch "UnaryExpression" [o, m] ∧ IsLeaf source kind x o ∧ P m

theorem ReadsAt.minus (h : ReadsAt source ws P 4) :
    ReadsAt source ((.arith .minus, "-") :: ws) (Signed source (.arith .minus) "-" P) 4 := by
  have sign : ReadsAs source (.token (.arith .plus) ||| .token (.arith .minus))
      [(.arith .minus, "-")] (One (IsLeaf source (.arith .minus) "-")) :=
    .sign Parser.signs_sum rfl
  refine ((sign.seq h).lift .left).rule .factor ?_
  rintro _ ⟨_, _, rfl, ⟨o, rfl, ho⟩, m, rfl, hm⟩
  exact ⟨_, rfl, o, m, rfl, ho, hm⟩

theorem ReadsAt.not (h : ReadsAt source ws P 0) :
    ReadsAt source ((.keyword .not, "not") :: ws) (Signed source (.keyword .not) "not" P) 0 := by
  have sign : ReadsAs source (.token (.keyword .not)) [(.keyword .not, "not")]
      (One (IsLeaf source (.keyword .not) "not")) := .token rfl
  refine ((sign.seq h).lift .left).rule .notExpr ?_
  rintro _ ⟨_, _, rfl, ⟨o, rfl, ho⟩, m, rfl, hm⟩
  exact ⟨_, rfl, o, m, rfl, ho, hm⟩

theorem ReadsAs.primary (h : ReadsAs source (.rule .atom) ws (One P)) : ReadsAt source ws P 5 := by
  have all := h.seq (ReadsAs.empty (e := .many (.rule .argList)) fun _ => .done)
  rw [List.append_nil] at all
  refine all.rule .primary ?_
  rintro _ ⟨_, _, rfl, ⟨n, rfl, hp⟩, rfl⟩
  exact ⟨n, rfl, hp⟩

theorem ReadsAs.leaf (h : Parser.isAtom k = true) :
    ReadsAs source (.rule .atom) [(k, x)] (One (IsLeaf source k x)) := by
  refine ((ReadsAs.sign Parser.signs_atom h).lift .left).rule .atom ?_
  rintro _ ⟨n, rfl, hn⟩
  exact ⟨n, rfl, hn⟩

theorem ReadsAt.leaf (h : Parser.isAtom k = true) :
    ReadsAt source [(k, x)] (IsLeaf source k x) 5 := (ReadsAs.leaf h).primary

def InParens (source : Bytes) (P : List Node → Prop) (ns : List Node) : Prop :=
  ∃ l ms r, ns = l :: ms ++ [r] ∧ IsLeaf source .lparen "(" l ∧ P ms ∧ IsLeaf source .rparen ")" r

theorem ReadsAs.parens {P : List Node → Prop} (h : ReadsAs source e ws P) :
    ReadsAs source (.token .lparen ++ e ++ .token .rparen)
      ((.lparen, "(") :: ws ++ [(.rparen, ")")]) (InParens source P) := by
  have left : ReadsAs source (.token .lparen) [(.lparen, "(")] _ := .token rfl
  have right : ReadsAs source (.token .rparen) [(.rparen, ")")] _ := .token rfl
  refine ((left.seq h).seq right).mono ?_
  rintro _ ⟨_, _, rfl, ⟨_, ms, rfl, ⟨l, rfl, hl⟩, hm⟩, r, rfl, hr⟩
  exact ⟨l, ms, r, rfl, hl, hm, hr⟩

def Enclosed (source : Bytes) (P : Node → Prop) (n : Node) : Prop :=
  ∃ ns, n = .branch "ParenthesizedExpression" ns ∧ InParens source (One P) ns

theorem ReadsAt.parens (h : ReadsAt source ws P 0) :
    ReadsAt source ((.lparen, "(") :: ws ++ [(.rparen, ")")]) (Enclosed source P) 5 := by
  refine ReadsAs.primary ((h.expr.parens.lift .right).rule .atom ?_)
  rintro _ ⟨l, _, r, rfl, hl, ⟨m, rfl, hm⟩, hr⟩
  exact ⟨_, rfl, _, rfl, l, [m], r, rfl, hl, ⟨m, rfl, hm⟩, hr⟩

def Called (source : Bytes) (f : String) (A : List Node → Prop) (n : Node) : Prop :=
  ∃ g ns, n = .branch "CallExpression" [g, .branch "ArgList" ns] ∧ IsLeaf source .name f g ∧
    InParens source A ns

theorem ReadsAt.call (h : ReadsAs source (.opt (.list (.rule .expr) .comma)) ws A) :
    ReadsAt source ((.name, f) :: (.lparen, "(") :: ws ++ [(.rparen, ")")])
      (Called source f A) 5 := by
  have callee : ReadsAs source (.rule .atom) [(.name, f)] _ := .leaf rfl
  have args := h.parens.rule .argList (Q := One fun n => ∃ ns, n = .branch "ArgList" ns ∧
    InParens source A ns) fun ns hn => ⟨_, rfl, ns, rfl, hn⟩
  have none : ReadsAs source (.many (.rule .argList)) [] (· = []) := .empty fun _ => .done
  have all := callee.seq (args.more none)
  rw [List.append_nil] at all
  refine all.rule .primary ?_
  rintro _ ⟨_, _, rfl, ⟨g, rfl, hg⟩, _, _, rfl, ⟨_, rfl, ns, rfl, hns⟩, rfl⟩
  exact ⟨_, rfl, g, ns, rfl, hg, hns⟩

end levels

def separated : List (List (Kind × String)) → List (Kind × String)
  | [] => []
  | [ws] => ws
  | ws :: rest => ws ++ (.comma, ",") :: separated rest

/-- The nodes of items with commas between them. -/
def Separated {α : Type} (source : Bytes) (P : α → List Node → Prop) : List α → List Node → Prop
  | [], ns => ns = []
  | [x], ns => P x ns
  | x :: rest, ns =>
    ∃ ms comma ns', ns = ms ++ comma :: ns' ∧ P x ms ∧ IsLeaf source .comma "," comma ∧
      Separated source P rest ns'

theorem Reads.item (h : Reads (a ++ .token sep) ts ms us)
    (others : Reads (a ++ .many (.token sep ++ a)) us ns rest) :
    Reads (a ++ .many (.token sep ++ a)) ts (ms ++ ns) rest := by
  obtain ⟨_, hd, rfl, rfl⟩ := h
  obtain ⟨_, hd', rfl, rfl⟩ := others
  cases hd with
  | seq hx hsep =>
    cases hd' with
    | seq hy hz =>
      have last : Reads _ _ _ rest := hz.reads
      have all := hx.reads.seq ((hsep.reads.seq hy.reads).more last)
      simpa [Deriv.yield, Deriv.nodes] using all

theorem ReadsAs.items {α : Type} {w : α → List (Kind × String)} {P : α → List Node → Prop}
    {xs : List α} (h : ∀ x ∈ xs, ReadsAs source a (w x) (P x)) (some : xs ≠ []) :
    ReadsAs source (a ++ .many (.token .comma ++ a)) (separated (xs.map w))
      (Separated source P xs) := by
  induction xs with
  | nil => exact absurd rfl some
  | cons x xs ih =>
    have first := h x List.mem_cons_self
    cases xs with
    | nil =>
      have all := first.seq (ReadsAs.empty (e := .many (.token .comma ++ a)) fun _ => .done)
      rw [List.append_nil] at all
      refine all.mono ?_
      rintro _ ⟨ms, _, rfl, hp, rfl⟩
      simpa [Separated] using hp
    | cons y xs =>
      have others := ih (fun z hz => h z (List.mem_cons_of_mem _ hz)) (by simp)
      have comma : ReadsAs source (.token .comma) [(.comma, ",")] _ := .token rfl
      have all := (first.seq comma).join others .item
      rw [List.append_assoc] at all
      refine all.mono ?_
      rintro _ ⟨_, ns, rfl, ⟨ms, _, rfl, hm, comma, rfl, hc⟩, hns⟩
      exact ⟨ms, comma, ns, by simp, hm, hc, hns⟩

theorem ReadsAs.list {α : Type} {w : α → List (Kind × String)} {P : α → List Node → Prop}
    {xs : List α} (h : ∀ x ∈ xs, ReadsAs source a (w x) (P x)) :
    ReadsAs source (.opt (.list a .comma)) (separated (xs.map w)) (Separated source P xs) := by
  by_cases none : xs = []
  · subst none
    exact .empty fun _ => .absent
  · have ending : ReadsAs source (.opt (.token .comma)) [] (· = []) := .empty fun _ => .absent
    have all := (ReadsAs.items h none).seq ending
    rw [List.append_nil] at all
    refine (all.lift .present).mono ?_
    rintro _ ⟨ns, _, rfl, hn, rfl⟩
    rwa [List.append_nil]

theorem ReadsAs.each {α : Type} {w : α → List (Kind × String)} {P : α → Node → Prop} {xs : List α}
    (h : ∀ x ∈ xs, ReadsAs source a (w x) (One (P x))) :
    ReadsAs source (.many a) (xs.flatMap w) (List.Forall₂ P xs) := by
  induction xs with
  | nil => exact (ReadsAs.empty fun _ => .done).mono fun _ hn => hn ▸ .nil
  | cons x xs ih =>
    refine ((h x List.mem_cons_self).more
      (ih fun y hy => h y (List.mem_cons_of_mem _ hy))).mono ?_
    rintro _ ⟨_, ns, rfl, ⟨n, rfl, hn⟩, hns⟩
    exact .cons hn hns

section statements

variable {source : Bytes} {vs ws us : List (Kind × String)} {P Q R : Node → Prop}
variable {A : List Node → Prop}

/-- A branch of the given name, with a condition on its parts. -/
def Branch (name : String) (A : List Node → Prop) (n : Node) : Prop :=
  ∃ ns, n = .branch name ns ∧ A ns

theorem ReadsAs.word (source : Bytes) (k : Kind) (x : String) (text : k.isLayout = false) :
    ReadsAs source (.token k) [(k, x)] (One (IsLeaf source k x)) := .token text

theorem ReadsAs.absent (h : ReadsAs source e ws (One P)) (a : Ebnf) :
    ReadsAs source (e ++ .opt a) ws (One P) := by
  have all := h.seq (ReadsAs.empty (e := .opt a) fun _ => .absent)
  rw [List.append_nil] at all
  refine all.mono ?_
  rintro _ ⟨_, _, rfl, ⟨n, rfl, hp⟩, rfl⟩
  exact ⟨n, rfl, hp⟩

theorem ReadsAs.simple (h : ReadsAs source (.rule .simpleStmt) ws (One P)) :
    ReadsAs source (.rule .stmt) (ws ++ [(.newline, "")]) (One P) := by
  have line : ReadsAs source (.token .newline) [(.newline, "")] (· = []) := .layout rfl
  refine ((h.seq line).lift .right).rule .stmt ?_
  rintro _ ⟨_, _, rfl, ⟨n, rfl, hp⟩, rfl⟩
  exact ⟨n, rfl, hp⟩

theorem ReadsAs.pass : ReadsAs source (.rule .simpleStmt) [(.keyword .pass, "pass")]
    (One (Branch "PassStatement" (One (IsLeaf source (.keyword .pass) "pass")))) := by
  refine (((ReadsAs.word source _ "pass" rfl).lift .left).lift .left).rule .simpleStmt ?_
  rintro _ ⟨n, rfl, t, rfl, shows⟩
  have kind : t.kind = .keyword .pass := shows.1
  exact ⟨_, by simp [shape, kind], _, rfl, _, rfl, t, rfl, shows⟩

theorem ReadsAs.ret (h : ReadsAs source (.rule .expr) ws (One P)) :
    ReadsAs source (.rule .simpleStmt) ((.keyword .ret, "return") :: ws)
      (One (Branch "ReturnStatement"
        (Joined (One (IsLeaf source (.keyword .ret) "return")) (One P)))) := by
  have all := (ReadsAs.word source (.keyword .ret) "return" rfl).seq (h.lift .present)
  refine ((all.lift .right).lift .left).rule .simpleStmt ?_
  rintro _ ⟨_, _, rfl, ⟨_, rfl, t, rfl, shows⟩, n, rfl, hp⟩
  have kind : t.kind = .keyword .ret := shows.1
  exact ⟨_, by simp [shape, kind], _, rfl, _, _, rfl, ⟨_, rfl, t, rfl, shows⟩, n, rfl, hp⟩

theorem ReadsAs.exprOrAssign (h : ReadsAs source (productions .exprOrAssignStmt) ws A)
    (shaped : ∀ ns, A ns → shape .exprOrAssignStmt ns = [.branch name ns]) :
    ReadsAs source (.rule .simpleStmt) ws (One (Branch name A)) := by
  have all := h.rule .exprOrAssignStmt (Q := One (Branch name A)) fun ns hn =>
    ⟨_, shaped ns hn, ns, rfl, hn⟩
  refine (all.lift .right).rule .simpleStmt ?_
  rintro _ ⟨_, rfl, ns, rfl, hn⟩
  exact ⟨_, rfl, ns, rfl, hn⟩

theorem ReadsAs.exprStmt (h : ReadsAs source (.rule .expr) ws (One P)) :
    ReadsAs source (.rule .simpleStmt) ws (One (Branch "ExpressionStatement" (One P))) := by
  refine ReadsAs.exprOrAssign ((h.absent _).absent _) ?_
  rintro _ ⟨n, rfl, -⟩
  rfl

theorem ReadsAs.assign (target : ReadsAs source (.rule .expr) vs (One P))
    (value : ReadsAs source (.rule .expr) ws (One Q)) :
    ReadsAs source (.rule .simpleStmt) (vs ++ (.assign, "=") :: ws)
      (One (Branch "AssignStatement" fun ns => ∃ x o v, ns = [x, o, v] ∧ P x ∧
        IsLeaf source .assign "=" o ∧ Q v)) := by
  have sign := (ReadsAs.word source .assign "=" rfl).seq value
  refine ReadsAs.exprOrAssign (((target.absent _).seq (sign.lift .present)).mono ?_) ?_
  · rintro _ ⟨_, _, rfl, ⟨x, rfl, hx⟩, _, _, rfl, ⟨o, rfl, ho⟩, v, rfl, hv⟩
    exact ⟨x, o, v, rfl, hx, ho, hv⟩
  · rintro _ ⟨x, o, v, rfl, -⟩
    rfl

theorem ReadsAs.declare (target : ReadsAs source (.rule .expr) vs (One P))
    (type : ReadsAs source (.rule .typeDef) us (One R))
    (value : ReadsAs source (.rule .expr) ws (One Q)) :
    ReadsAs source (.rule .simpleStmt) (vs ++ us ++ (.assign, "=") :: ws)
      (One (Branch "AssignStatement" fun ns => ∃ x t o v, ns = [x, t, o, v] ∧ P x ∧ R t ∧
        IsLeaf source .assign "=" o ∧ Q v)) := by
  have sign := (ReadsAs.word source .assign "=" rfl).seq value
  refine ReadsAs.exprOrAssign
    (((target.seq (type.lift .present)).seq (sign.lift .present)).mono ?_) ?_
  · rintro _ ⟨_, _, rfl, ⟨_, _, rfl, ⟨x, rfl, hx⟩, t, rfl, ht⟩, _, _, rfl, ⟨o, rfl, ho⟩, v, rfl, hv⟩
    exact ⟨x, t, o, v, rfl, hx, ht, ho, hv⟩
  · rintro _ ⟨x, t, o, v, rfl, -⟩
    rfl

theorem ReadsAs.typeDef (h : ReadsAs source (.rule .expr) ws (One P)) :
    ReadsAs source (.rule .typeDef) ((.colon, ":") :: ws)
      (One (Branch "TypeDef" fun ns => ∃ c t, ns = [c, t] ∧ IsLeaf source .colon ":" c ∧ P t)) := by
  refine ((ReadsAs.word source .colon ":" rfl).seq h).rule .typeDef ?_
  rintro _ ⟨_, _, rfl, ⟨c, rfl, hc⟩, t, rfl, ht⟩
  exact ⟨_, rfl, _, rfl, c, t, rfl, hc, ht⟩

def Block (source : Bytes) (A : List Node → Prop) : Node → Prop :=
  Branch "Body" fun ns => ∃ c ms, ns = c :: ms ∧ IsLeaf source .colon ":" c ∧ A ms

theorem ReadsAs.body (h : ReadsAs source (.many (.rule .stmt)) ws A) (some : ∀ ns, A ns → ns ≠ []) :
    ReadsAs source (.rule .body)
      ((.colon, ":") :: (.newline, "") :: (.indent, "") :: ws ++ [(.dedent, "")])
      (One (Block source A)) := by
  have line : ReadsAs source (.token .newline) [(.newline, "")] (· = []) := .layout rfl
  have opens : ReadsAs source (.token .indent) [(.indent, "")] (· = []) := .layout rfl
  have closes : ReadsAs source (.token .dedent) [(.dedent, "")] (· = []) := .layout rfl
  have inside : ReadsAs source (.rule .stmt ++ .many (.rule .stmt)) ws A := by
    intro ts shows
    obtain ⟨ns, hn, reads⟩ := h shows
    exact ⟨ns, hn, fun rest => (reads rest).some (some ns hn)⟩
  have nested := (((line.seq opens).seq inside).lift .assoc).seq closes
  refine ((ReadsAs.word source .colon ":" rfl).seq (nested.lift .right)).rule .body ?_
  rintro _ ⟨_, _, rfl, ⟨c, rfl, hc⟩, _, _, rfl, ⟨_, ms, rfl, ⟨_, _, rfl, rfl, rfl⟩, hm⟩, rfl⟩
  exact ⟨.branch "Body" (c :: ms), by simp [shape], c :: ms, rfl, c, ms, rfl, hc, hm⟩

def Guarded (source : Bytes) (k : Token.Keyword) (P Q : Node → Prop) (ns : List Node) : Prop :=
  ∃ w c b, ns = [w, c, b] ∧ IsLeaf source (.keyword k) k.text w ∧ P c ∧ Q b

theorem ReadsAs.guarded (k : Token.Keyword) (cond : ReadsAs source (.rule .expr) vs (One P))
    (body : ReadsAs source (.rule .body) ws (One Q)) :
    ReadsAs source (.token (.keyword k) ++ .rule .expr ++ .rule .body)
      ((.keyword k, k.text) :: vs ++ ws) (Guarded source k P Q) := by
  refine (((ReadsAs.word source (.keyword k) k.text rfl).seq cond).seq body).mono ?_
  rintro _ ⟨_, _, rfl, ⟨_, _, rfl, ⟨w, rfl, hw⟩, c, rfl, hc⟩, b, rfl, hb⟩
  exact ⟨w, c, b, rfl, hw, hc, hb⟩

theorem ReadsAs.whileStmt (cond : ReadsAs source (.rule .expr) vs (One P))
    (body : ReadsAs source (.rule .body) ws (One Q)) :
    ReadsAs source (.rule .stmt) ((.keyword .whileWord, "while") :: vs ++ ws)
      (One (Branch "WhileStatement" (Guarded source .whileWord P Q))) := by
  have all := (ReadsAs.guarded .whileWord cond body).rule .whileStmt
    (Q := One (Branch "WhileStatement" (Guarded source .whileWord P Q))) fun ns hn =>
      ⟨_, rfl, ns, rfl, hn⟩
  exact (((all.lift .right).rule .compoundStmt fun _ h => h).lift .left).rule .stmt fun _ h => h

theorem ReadsAs.ifStmt (cond : ReadsAs source (.rule .expr) vs (One P))
    (body : ReadsAs source (.rule .body) ws (One Q))
    (elifs : ReadsAs source (.many (.token (.keyword .elifWord) ++ .rule .expr ++ .rule .body)) us A)
    (otherwise : ReadsAs source (.opt (.token (.keyword .elseWord) ++ .rule .body)) os B) :
    ReadsAs source (.rule .stmt) ((.keyword .ifWord, "if") :: vs ++ ws ++ us ++ os)
      (One (Branch "IfStatement" (Joined (Joined (Guarded source .ifWord P Q) A) B))) := by
  have all := (((ReadsAs.guarded .ifWord cond body).seq elifs).seq otherwise).rule .ifStmt
    (Q := One (Branch "IfStatement" (Joined (Joined (Guarded source .ifWord P Q) A) B)))
    fun ns hn => ⟨_, rfl, ns, rfl, hn⟩
  have compound := ((all.lift .right).lift .left).rule .compoundStmt fun _ h => h
  exact (compound.lift .left).rule .stmt fun _ h => h

theorem ReadsAs.elseBody (body : ReadsAs source (.rule .body) ws (One Q)) :
    ReadsAs source (.opt (.token (.keyword .elseWord) ++ .rule .body))
      ((.keyword .elseWord, "else") :: ws)
      (fun ns => ∃ w b, ns = [w, b] ∧ IsLeaf source (.keyword .elseWord) "else" w ∧ Q b) := by
  refine (((ReadsAs.word source (.keyword .elseWord) "else" rfl).seq body).lift .present).mono ?_
  rintro _ ⟨_, _, rfl, ⟨w, rfl, hw⟩, b, rfl, hb⟩
  exact ⟨w, b, rfl, hw, hb⟩

def Defined (source : Bytes) (f : String) (A : List Node → Prop) (R Q : Node → Prop)
    (ns : List Node) : Prop :=
  ∃ w x ps a t b, ns = [w, x, .branch "ParamList" ps, .branch "TypeDef" [a, t], b] ∧
    IsLeaf source (.keyword .define) "def" w ∧ IsLeaf source .name f x ∧ InParens source A ps ∧
    IsLeaf source .arrow "->" a ∧ R t ∧ Q b

theorem ReadsAs.funcDef (params : ReadsAs source (.opt (.list (.rule .param) .comma)) vs A)
    (returns : ReadsAs source (.rule .expr) us (One R))
    (body : ReadsAs source (.rule .body) ws (One Q)) :
    ReadsAs source (.rule .stmt) ((.keyword .define, "def") :: (.name, f) ::
        ((.lparen, "(") :: vs ++ [(.rparen, ")")]) ++ (.arrow, "->") :: us ++ ws)
      (One (Branch "FunctionDefinition" (Defined source f A R Q))) := by
  have list := params.parens.rule .paramList (Q := One (Branch "ParamList" (InParens source A)))
    fun ns hn => ⟨_, rfl, ns, rfl, hn⟩
  have arrow := (ReadsAs.word source .arrow "->" rfl).seq returns
  have parts := (((((ReadsAs.word source (.keyword .define) "def" rfl).seq
    (ReadsAs.word source .name f rfl)).seq list).seq (arrow.lift .present)).seq body)
  have all := parts.rule .funcDef
    (Q := One (Branch "FunctionDefinition" (Defined source f A R Q))) (by
      rintro _ ⟨_, _, rfl, ⟨_, _, rfl, ⟨_, _, rfl, ⟨_, _, rfl, ⟨w, rfl, hw⟩, x, rfl, hx⟩,
        _, rfl, ps, rfl, hps⟩, _, _, rfl, ⟨a, rfl, ha⟩, t, rfl, ht⟩, b, rfl, hb⟩
      exact ⟨_, rfl, _, rfl, w, x, ps, a, t, b, rfl, hw, hx, hps, ha, ht, hb⟩)
  have compound := ((all.lift .left).lift .left).rule .compoundStmt fun _ h => h
  simpa using (compound.lift .left).rule .stmt fun _ h => h

end statements

end Grammar
end WordScript
