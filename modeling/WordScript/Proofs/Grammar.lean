import Mathlib.Tactic.Common
import WordScript.Tree

/-! The grammar of sources.

Productions are written in extended Backus-Naur form over token kinds. A derivation records every
choice that is made in it, yields its tokens from left to right, and determines a tree. -/
namespace WordScript
namespace Grammar

open Token (Kind)

/-- The names of the productions. -/
inductive Symbol
  | file | stmt | compoundStmt | simpleStmt | exprOrAssignStmt | typeDef
  | funcDef | paramList | param | body | ifStmt | whileStmt
  | expr | orExpr | andExpr | notExpr | comparison | compOp | arithExpr | term
  | factor | power | primary | argList | atom
deriving DecidableEq, Repr

/-- What a production may stand for: `opt a` is written `[a]` and `many a` is written `{a}`. -/
inductive Ebnf
  | token (kind : Kind)
  | rule (name : Symbol)
  | seq (a b : Ebnf)
  | alt (a b : Ebnf)
  | opt (a : Ebnf)
  | many (a : Ebnf)
deriving DecidableEq, Repr

instance : Append Ebnf := ⟨.seq⟩

instance : OrOp Ebnf := ⟨.alt⟩

def Ebnf.list (a : Ebnf) (sep : Kind) : Ebnf :=
  .seq (.seq a (.many (.seq (.token sep) a))) (.opt (.token sep))

def documented : Symbol → Ebnf
  | .file => .many (.rule .stmt) ++ .token .eof
  | .stmt => .rule .compoundStmt ||| .rule .simpleStmt ++ .token .newline
  | .compoundStmt => .rule .funcDef ||| .rule .ifStmt ||| .rule .whileStmt
  | .simpleStmt =>
    .token (.keyword .pass) ||| .token (.keyword .ret) ++ .opt (.rule .expr)
      ||| .rule .exprOrAssignStmt
  | .exprOrAssignStmt =>
    .rule .expr ++ .opt (.rule .typeDef) ++ .opt (.token .assign ++ .rule .expr)
  | .typeDef => (.token .colon ||| .token .arrow) ++ .rule .expr
  | .funcDef =>
    .token (.keyword .define) ++ .token .name ++ .rule .paramList
      ++ .opt (.token .arrow ++ .rule .expr) ++ .rule .body
  | .paramList => .token .lparen ++ .opt (.list (.rule .param) .comma) ++ .token .rparen
  | .param => .token .name ++ .opt (.rule .typeDef)
  | .body =>
    .token .colon ++ (.rule .simpleStmt ++ .token .newline ||| .token .newline ++ .token .indent
      ++ .rule .stmt ++ .many (.rule .stmt) ++ .token .dedent)
  | .ifStmt =>
    .token (.keyword .ifWord) ++ .rule .expr ++ .rule .body
      ++ .many (.token (.keyword .elifWord) ++ .rule .expr ++ .rule .body)
      ++ .opt (.token (.keyword .elseWord) ++ .rule .body)
  | .whileStmt => .token (.keyword .whileWord) ++ .rule .expr ++ .rule .body
  | .expr => .rule .orExpr
  | .orExpr => .rule .andExpr ++ .many (.token (.keyword .or) ++ .rule .andExpr)
  | .andExpr => .rule .notExpr ++ .many (.token (.keyword .and) ++ .rule .notExpr)
  | .notExpr => .token (.keyword .not) ++ .rule .notExpr ||| .rule .comparison
  | .comparison => .rule .arithExpr ++ .many (.rule .compOp ++ .rule .arithExpr)
  | .compOp =>
    .token (.compare .lt) ||| .token (.compare .gt) ||| .token (.compare .eq)
      ||| .token (.compare .ge) ||| .token (.compare .le) ||| .token (.compare .ne)
      ||| .token (.keyword .is)
  | .arithExpr =>
    .rule .term ++ .many ((.token (.arith .plus) ||| .token (.arith .minus)) ++ .rule .term)
  | .term =>
    .rule .factor ++ .many ((.token (.arith .star) ||| .token (.arith .slash)
      ||| .token (.arith .floorDiv) ||| .token (.arith .mod)) ++ .rule .factor)
  | .factor =>
    (.token (.arith .plus) ||| .token (.arith .minus)) ++ .rule .factor ||| .rule .power
  | .power => .rule .primary ++ .opt (.token (.arith .power) ++ .rule .factor)
  | .primary => .rule .atom ++ .many (.rule .argList)
  | .argList => .token .lparen ++ .opt (.list (.rule .expr) .comma) ++ .token .rparen
  | .atom =>
    .token .name ||| .token .number ||| .token .string ||| .token .boolean ||| .token .noneWord
      ||| .token .lparen ++ .rule .expr ++ .token .rparen

/-- The productions as they are read: an arrow leads the type of a result and no other. -/
def productions : Symbol → Ebnf
  | .typeDef => .token .colon ++ .rule .expr
  | s => documented s

/-- A derivation. It records which alternative is taken, whether an optional part is there, and how
often a part is repeated. -/
inductive Deriv
  | token (t : Token)
  | rule (name : Symbol) (d : Deriv)
  | seq (a b : Deriv)
  | left (d : Deriv)
  | right (d : Deriv)
  | absent
  | present (d : Deriv)
  | done
  | more (first others : Deriv)
deriving Repr

/-- The derivations of an expression over the productions `g`. -/
inductive Derives (g : Symbol → Ebnf) : Ebnf → Deriv → Prop
  | token {k : Kind} {t : Token} (kind : t.kind = k) : Derives g (.token k) (.token t)
  | rule {s : Symbol} {d : Deriv} (by_ : Derives g (g s) d) : Derives g (.rule s) (.rule s d)
  | seq {a b : Ebnf} {x y : Deriv} (first : Derives g a x) (second : Derives g b y) :
      Derives g (.seq a b) (.seq x y)
  | left {a b : Ebnf} {x : Deriv} (chosen : Derives g a x) : Derives g (.alt a b) (.left x)
  | right {a b : Ebnf} {y : Deriv} (chosen : Derives g b y) : Derives g (.alt a b) (.right y)
  | absent {a : Ebnf} : Derives g (.opt a) .absent
  | present {a : Ebnf} {x : Deriv} (there : Derives g a x) : Derives g (.opt a) (.present x)
  | done {a : Ebnf} : Derives g (.many a) .done
  | more {a : Ebnf} {x y : Deriv} (first : Derives g a x) (others : Derives g (.many a) y) :
      Derives g (.many a) (.more x y)

namespace Deriv

def yield : Deriv → List Token
  | .token t => [t]
  | .rule _ d | .left d | .right d | .present d => d.yield
  | .seq a b | .more a b => a.yield ++ b.yield
  | .absent | .done => []

def leftGrouped : Node → List Node → Node
  | lhs, op :: rhs :: rest => leftGrouped (.branch "BinaryExpression" [lhs, op, rhs]) rest
  | lhs, _ => lhs

def callGrouped (callee : Node) (argLists : List Node) : Node :=
  argLists.foldl (fun f args => .branch "CallExpression" [f, args]) callee

/-- What a production makes of the nodes of its parts: a branch of its own name, a group of them, or
nothing new. -/
def shape : Symbol → List Node → List Node
  | .file, ns => [.branch "Script" ns]
  | .simpleStmt, .leaf t :: ns =>
    [.branch (if t.kind = .keyword .pass then "PassStatement" else "ReturnStatement")
      (.leaf t :: ns)]
  | .exprOrAssignStmt, [e] => [.branch "ExpressionStatement" [e]]
  | .exprOrAssignStmt, ns => [.branch "AssignStatement" ns]
  | .typeDef, ns => [.branch "TypeDef" ns]
  | .funcDef, [word, name, params, arrow, type, body] =>
    [.branch "FunctionDefinition" [word, name, params, .branch "TypeDef" [arrow, type], body]]
  | .funcDef, ns => [.branch "FunctionDefinition" ns]
  | .paramList, ns => [.branch "ParamList" ns]
  | .body, ns => [.branch "Body" ns]
  | .ifStmt, ns => [.branch "IfStatement" ns]
  | .whileStmt, ns => [.branch "WhileStatement" ns]
  | .orExpr, n :: ns | .andExpr, n :: ns | .comparison, n :: ns | .arithExpr, n :: ns
  | .term, n :: ns | .power, n :: ns => [leftGrouped n ns]
  | .notExpr, [op, e] | .factor, [op, e] => [.branch "UnaryExpression" [op, e]]
  | .primary, n :: ns => [callGrouped n ns]
  | .argList, ns => [.branch "ArgList" ns]
  | .atom, [open_, e, close] => [.branch "ParenthesizedExpression" [open_, e, close]]
  | _, ns => ns

/-- The nodes that a derivation determines. Layout tokens are dropped. -/
def nodes : Deriv → List Node
  | .token t => if t.kind.isLayout then [] else [.leaf t]
  | .rule s d => shape s d.nodes
  | .left d | .right d | .present d => d.nodes
  | .seq a b | .more a b => a.nodes ++ b.nodes
  | .absent | .done => []

end Deriv

namespace Ebnf

/-- Whether nothing can be derived. No production derives nothing. -/
def nullable : Ebnf → Bool
  | .token _ | .rule _ => false
  | .seq a b => a.nullable && b.nullable
  | .alt a b => a.nullable || b.nullable
  | .opt _ | .many _ => true

/-- The kinds that what is derived can start with, if those of the productions are `start`. -/
def first (start : Symbol → List Kind) : Ebnf → List Kind
  | .token k => [k]
  | .rule s => start s
  | .seq a b => a.first start ++ if a.nullable then b.first start else []
  | .alt a b => a.first start ++ b.first start
  | .opt a | .many a => a.first start

end Ebnf

abbrev Apart (xs ys : List Kind) : Prop := ∀ k ∈ xs, k ∉ ys

section predictive

variable (start follow : Symbol → List Kind)

/-- Expressions in which the next token decides every choice, given that what is derived is followed
by a token of a kind in `after`. After a separator it takes the token behind it to tell whether the
list goes on. -/
inductive Predictive : (after : List Kind) → Ebnf → Prop
  | token {after : List Kind} {k : Kind} : Predictive after (.token k)
  | rule {after : List Kind} {s : Symbol} (known : after ⊆ follow s) : Predictive after (.rule s)
  | seq {after : List Kind} {a b : Ebnf}
      (first : Predictive (b.first start ++ if b.nullable then after else []) a)
      (second : Predictive after b) : Predictive after (.seq a b)
  | alt {after : List Kind} {a b : Ebnf} (some : a.nullable = false ∧ b.nullable = false)
      (apart : Apart (a.first start) (b.first start)) (left : Predictive after a)
      (right : Predictive after b) : Predictive after (.alt a b)
  | opt {after : List Kind} {a : Ebnf} (some : a.nullable = false)
      (apart : Apart (a.first start) after) (inside : Predictive after a) :
      Predictive after (.opt a)
  | many {after : List Kind} {a : Ebnf} (some : a.nullable = false)
      (apart : Apart (a.first start) after) (inside : Predictive (a.first start ++ after) a) :
      Predictive after (.many a)
  | list {after : List Kind} {a : Ebnf} {sep : Kind} (some : a.nullable = false)
      (apart : sep ∉ after) (items : Apart (a.first start) after)
      (inside : Predictive (sep :: after) a) : Predictive after (.list a sep)

/-- Tables that fit productions: what a production derives is not empty and starts with a kind of
`start`, and its choices are decided if a kind of `follow` follows. -/
structure Fits (g : Symbol → Ebnf) : Prop where
  some : ∀ s, (g s).nullable = false
  starts : ∀ s, (g s).first start ⊆ start s
  choices : ∀ s, Predictive start follow (follow s) (g s)

/-- The tokens end, or go on with a kind of the list. -/
def GoesOn (after : List Kind) (ts : List Token) : Prop := ∀ t ∈ ts.head?, t.kind ∈ after

variable {start follow} {g : Symbol → Ebnf} {e : Ebnf} {d : Deriv}
variable {after : List Kind}

attribute [local simp] Deriv.yield Ebnf.nullable Ebnf.first

theorem GoesOn.mono (h : GoesOn after ts) (sub : after ⊆ after') :
    GoesOn after' ts := fun t ht => sub (h t ht)

section

variable (hg : Fits start follow g) (h : Derives g e d)
include hg h

/-- What is derived starts with a kind that it can start with, unless it is empty. -/
theorem Derives.starts :
    (∃ t rest, d.yield = t :: rest ∧ t.kind ∈ e.first start) ∨
      d.yield = [] ∧ e.nullable = true := by
  induction h with
  | token kind => exact .inl ⟨_, [], rfl, by simp [Ebnf.first, kind]⟩
  | @rule s d _ ih =>
    rcases ih with ⟨t, rest, hy, ht⟩ | ⟨-, hn⟩
    · exact .inl ⟨t, rest, hy, hg.starts s ht⟩
    · rw [hg.some s] at hn
      cases hn
  | @seq a b x y _ _ iha ihb =>
    rcases iha with ⟨t, rest, hy, ht⟩ | ⟨hx, ha⟩
    · exact .inl ⟨t, rest ++ y.yield, by simp [Deriv.yield, hy], by simp [Ebnf.first, ht]⟩
    · rcases ihb with ⟨t, rest, hy, ht⟩ | ⟨hy, hb⟩
      · exact .inl ⟨t, rest, by simp [Deriv.yield, hx, hy], by simp [Ebnf.first, ha, ht]⟩
      · exact .inr ⟨by simp [Deriv.yield, hx, hy], by simp [Ebnf.nullable, ha, hb]⟩
  | left _ ih =>
    rcases ih with ⟨t, rest, hy, ht⟩ | ⟨hx, ha⟩
    · exact .inl ⟨t, rest, hy, by simp [Ebnf.first, ht]⟩
    · exact .inr ⟨hx, by simp [Ebnf.nullable, ha]⟩
  | right _ ih =>
    rcases ih with ⟨t, rest, hy, ht⟩ | ⟨hx, hb⟩
    · exact .inl ⟨t, rest, hy, by simp [Ebnf.first, ht]⟩
    · exact .inr ⟨hx, by simp [Ebnf.nullable, hb]⟩
  | absent => exact .inr ⟨rfl, rfl⟩
  | present _ ih =>
    rcases ih with ⟨t, rest, hy, ht⟩ | ⟨hx, -⟩
    · exact .inl ⟨t, rest, hy, ht⟩
    · exact .inr ⟨hx, rfl⟩
  | done => exact .inr ⟨rfl, rfl⟩
  | @more a x y _ _ iha ihb =>
    rcases iha with ⟨t, rest, hy, ht⟩ | ⟨hx, ha⟩
    · exact .inl ⟨t, rest ++ y.yield, by simp [Deriv.yield, hy], ht⟩
    · rcases ihb with ⟨t, rest, hy, ht⟩ | ⟨hy, -⟩
      · exact .inl ⟨t, rest, by simp [Deriv.yield, hx, hy], ht⟩
      · exact .inr ⟨by simp [Deriv.yield, hx, hy], rfl⟩

theorem Derives.starts_some (hn : e.nullable = false) :
    ∃ t rest, d.yield = t :: rest ∧ t.kind ∈ e.first start := by
  rcases h.starts hg with h | ⟨-, he⟩
  · exact h
  · rw [hn] at he
    cases he

theorem Derives.goesOn (hr : GoesOn after r) :
    GoesOn (e.first start ++ if e.nullable then after else []) (d.yield ++ r) := by
  rcases h.starts hg with ⟨t, rest, hy, ht⟩ | ⟨hy, hn⟩
  · intro t' ht'
    rw [hy] at ht'
    cases ht'
    exact List.mem_append_left _ ht
  · rw [hy, hn]
    exact hr.mono (by simp)

end

theorem not_goesOn (apart : Apart kinds after) (ht : t.kind ∈ kinds) : ¬ GoesOn after (t :: rest) :=
  fun h => apart _ ht (h t rfl)

/-- A derivation is the only one of its expression, and so are the tokens that it takes from those
before it. -/
def Only (g : Symbol → Ebnf) (start follow : Symbol → List Kind) (e : Ebnf) (d : Deriv) : Prop :=
  ∀ ⦃after d' r r'⦄, Predictive start follow after e → Derives g e d' →
    d.yield ++ r = d'.yield ++ r' → GoesOn after r → GoesOn after r' → d = d' ∧ r = r'

section items

variable {a : Ebnf} {sep : Kind} {after : List Kind}
variable {o o' : Deriv} {r r' : List Token}

theorem separator_goesOn (ho : Derives g (.opt (.token sep)) o) (hr : GoesOn after r) :
    GoesOn (sep :: after) (o.yield ++ r) := by
  cases ho with
  | absent => exact hr.mono (by simp)
  | present there =>
    cases there with
    | token kind =>
      rintro t ⟨⟩
      simp [kind]

theorem items_goesOn (hd : Derives g (.many (.seq (.token sep) a)) d)
    (ho : Derives g (.opt (.token sep)) o) (hr : GoesOn after r) :
    GoesOn (sep :: after) (d.yield ++ (o.yield ++ r)) := by
  cases hd with
  | done => simpa [Deriv.yield] using separator_goesOn ho hr
  | more first others =>
    cases first with
    | seq word item =>
      cases word with
      | token kind =>
        rintro t ⟨⟩
        simp [kind]

theorem only_separator (apart : sep ∉ after) (ho : Derives g (.opt (.token sep)) o)
    (ho' : Derives g (.opt (.token sep)) o') (same : o.yield ++ r = o'.yield ++ r')
    (hr : GoesOn after r) (hr' : GoesOn after r') : o = o' ∧ r = r' := by
  have none : ∀ {t : Token} {ts : List Token}, t.kind = sep → ¬ GoesOn after (t :: ts) :=
    fun kind h => apart (kind ▸ h _ rfl)
  cases ho with
  | absent =>
    cases ho' with
    | absent => exact ⟨rfl, same⟩
    | present there' =>
      cases there' with
      | token kind =>
        simp only [Deriv.yield, List.nil_append] at same
        exact absurd (same ▸ hr) (none kind)
  | present there =>
    cases there with
    | token kind =>
      cases ho' with
      | absent =>
        simp only [Deriv.yield, List.nil_append] at same
        exact absurd (same ▸ hr') (none kind)
      | present there' =>
        cases there' with
        | token kind' =>
          obtain ⟨rfl, rfl⟩ := same
          exact ⟨rfl, rfl⟩

variable (hg : Fits start follow g) (hn : a.nullable = false) (apart : sep ∉ after)
  (items : Apart (a.first start) after)
include hg hn apart items

theorem item_ne_end (hx : Derives g (.seq (.token sep) a) x)
    (ho' : Derives g (.opt (.token sep)) o') (hr' : GoesOn after r') :
    x.yield ++ r ≠ o'.yield ++ r' := by
  intro same
  cases hx with
  | seq word item =>
    cases word with
    | @token _ t kind =>
      obtain ⟨t', rest, hy, ht'⟩ := item.starts_some hg hn
      cases ho' with
      | absent =>
        simp only [Deriv.yield, List.nil_append] at same
        rw [← same] at hr'
        exact apart (kind ▸ hr' t rfl)
      | present there =>
        cases there with
        | token kind' =>
          simp only [Deriv.yield, hy, List.cons_append, List.nil_append, List.cons.injEq] at same
          rw [← same.2] at hr'
          exact not_goesOn items ht' hr'

theorem only_items (inside : Predictive start follow (sep :: after) a)
    (only : ∀ x, Derives g (.seq (.token sep) a) x → sizeOf x < sizeOf d → Only g start follow (.seq (.token sep) a) x)
    (hd : Derives g (.many (.seq (.token sep) a)) d)
    (hd' : Derives g (.many (.seq (.token sep) a)) d') (ho : Derives g (.opt (.token sep)) o)
    (ho' : Derives g (.opt (.token sep)) o')
    (same : d.yield ++ (o.yield ++ r) = d'.yield ++ (o'.yield ++ r')) (hr : GoesOn after r)
    (hr' : GoesOn after r') : d = d' ∧ o = o' ∧ r = r' := by
  induction d generalizing d' with
  | done =>
    cases hd' with
    | done => exact ⟨rfl, only_separator apart ho ho' same hr hr'⟩
    | more first others =>
      have shared := same.symm
      simp only [Deriv.yield, List.append_assoc] at shared
      exact absurd shared (item_ne_end hg hn apart items first ho hr)
  | more x y _ ih =>
    cases hd with
    | more first others =>
      cases hd' with
      | done =>
        simp only [Deriv.yield, List.append_assoc] at same
        exact absurd same (item_ne_end hg hn apart items first ho' hr')
      | more first' others' =>
        simp only [Deriv.yield, List.append_assoc] at same
        obtain ⟨rfl, tail⟩ := only x first (by simp; omega) (.seq .token inside) first' same
          (items_goesOn others ho hr) (items_goesOn others' ho' hr')
        have smaller : ∀ z, Derives g (.seq (.token sep) a) z → sizeOf z < sizeOf y →
            Only g start follow (.seq (.token sep) a) z :=
          fun z hz lt => only z hz (by simp; omega)
        obtain ⟨rfl, rest⟩ := ih smaller others others' tail
        exact ⟨rfl, rest⟩
  | _ => cases hd

end items

section steps

variable {a b : Ebnf} {x y : Deriv}

theorem only_token : Only g start follow (.token k) (.token t) := by
  intro after d' r r' _ h' same _ _
  cases h' with
  | token kind' =>
    simp only [Deriv.yield, List.cons_append, List.cons.injEq] at same
    exact ⟨by rw [same.1], same.2⟩

variable (hg : Fits start follow g)
include hg

theorem only_rule (only : Only g start follow (g s) x) :
    Only g start follow (.rule s) (.rule s x) := by
  intro after d' r r' hp h' same hr hr'
  cases hp with
  | rule known =>
    cases h' with
    | rule h' =>
      obtain ⟨rfl, rest⟩ := only (hg.choices s) h' same (hr.mono known) (hr'.mono known)
      exact ⟨rfl, rest⟩

theorem only_seq (hx : Derives g a x) (hy : Derives g b y)
    (smaller : ∀ {e z}, sizeOf z < sizeOf (Deriv.seq x y) → Derives g e z → Only g start follow e z) :
    Only g start follow (.seq a b) (.seq x y) := by
  intro after d' r r' hp h' same hr hr'
  cases h' with
  | seq hx' hy' =>
    simp only [Deriv.yield, List.append_assoc] at same
    cases hp with
    | seq first second =>
      obtain ⟨rfl, tail⟩ := smaller (by rw [Deriv.seq.sizeOf_spec]; omega) hx first hx' same
        (hy.goesOn hg hr) (hy'.goesOn hg hr')
      obtain ⟨rfl, rest⟩ := smaller (by rw [Deriv.seq.sizeOf_spec]; omega) hy second hy' tail hr hr'
      exact ⟨rfl, rest⟩
    | list hn apart items inside =>
      cases hx with
      | seq hi ho =>
        cases hx' with
        | seq hi' ho' =>
          simp only [Deriv.yield, List.append_assoc] at same
          obtain ⟨rfl, tail⟩ := smaller (by simp; omega) hi inside hi' same (items_goesOn ho hy hr)
            (items_goesOn ho' hy' hr')
          obtain ⟨rfl, rfl, rest⟩ := only_items hg hn apart items inside
            (fun z hz lt => smaller (by simp; omega) hz) ho ho' hy hy' tail hr hr'
          exact ⟨rfl, rest⟩

theorem only_left (hx : Derives g a x) (only : Only g start follow a x) :
    Only g start follow (.alt a b) (.left x) := by
  intro after d' r r' hp h' same hr hr'
  cases hp with
  | alt some apart left right =>
    cases h' with
    | left hx' =>
      obtain ⟨rfl, rest⟩ := only left hx' same hr hr'
      exact ⟨rfl, rest⟩
    | right hy' =>
      obtain ⟨t, ts, hx, ht⟩ := hx.starts_some hg some.1
      obtain ⟨t', ts', hy', ht'⟩ := hy'.starts_some hg some.2
      simp only [Deriv.yield, hx, hy', List.cons_append, List.cons.injEq] at same
      exact absurd (same.1 ▸ ht') (apart _ ht)

theorem only_right (hy : Derives g b y) (only : Only g start follow b y) :
    Only g start follow (.alt a b) (.right y) := by
  intro after d' r r' hp h' same hr hr'
  cases hp with
  | alt some apart left right =>
    cases h' with
    | left hx' =>
      obtain ⟨t, ts, hy, ht⟩ := hy.starts_some hg some.2
      obtain ⟨t', ts', hx', ht'⟩ := hx'.starts_some hg some.1
      simp only [Deriv.yield, hy, hx', List.cons_append, List.cons.injEq] at same
      exact absurd ht (apart _ (same.1 ▸ ht'))
    | right hy' =>
      obtain ⟨rfl, rest⟩ := only right hy' same hr hr'
      exact ⟨rfl, rest⟩

/-- What is derived from an expression that is not there in the other derivation would have to be
what follows it. -/
theorem not_following (hn : a.nullable = false) (apart : Apart (a.first start) after)
    (hx : Derives g a x) {r ts : List Token} (hr : GoesOn after r) : x.yield ++ ts ≠ r := by
  rintro rfl
  obtain ⟨t, rest, hy, ht⟩ := hx.starts_some hg hn
  rw [hy] at hr
  exact not_goesOn apart ht hr

theorem only_absent : Only g start follow (.opt a) .absent := by
  intro after d' r r' hp h' same hr hr'
  cases hp with
  | opt some apart inside =>
    cases h' with
    | absent => exact ⟨rfl, same⟩
    | present hx' => exact absurd same.symm (not_following hg some apart hx' hr)

theorem only_present (hx : Derives g a x) (only : Only g start follow a x) :
    Only g start follow (.opt a) (.present x) := by
  intro after d' r r' hp h' same hr hr'
  cases hp with
  | opt some apart inside =>
    cases h' with
    | absent => exact absurd same (not_following hg some apart hx hr')
    | present hx' =>
      obtain ⟨rfl, rest⟩ := only inside hx' same hr hr'
      exact ⟨rfl, rest⟩

theorem only_done : Only g start follow (.many a) .done := by
  intro after d' r r' hp h' same hr hr'
  cases hp with
  | many some apart inside =>
    cases h' with
    | done => exact ⟨rfl, same⟩
    | more hx' _ =>
      simp only [Deriv.yield, List.append_assoc] at same
      exact absurd same.symm (not_following hg some apart hx' hr)

theorem only_more (hx : Derives g a x) (hy : Derives g (.many a) y)
    (first : Only g start follow a x) (others : Only g start follow (.many a) y) :
    Only g start follow (.many a) (.more x y) := by
  intro after d' r r' hp h' same hr hr'
  have again := hp
  cases hp with
  | many some apart inside =>
    cases h' with
    | done =>
      simp only [Deriv.yield, List.append_assoc] at same
      exact absurd same (not_following hg some apart hx hr')
    | more hx' hy' =>
      simp only [Deriv.yield, List.append_assoc] at same
      obtain ⟨rfl, tail⟩ := first inside hx' same (hy.goesOn hg hr) (hy'.goesOn hg hr')
      obtain ⟨rfl, rest⟩ := others again hy' tail hr hr'
      exact ⟨rfl, rest⟩

end steps

theorem Derives.only (hg : Fits start follow g) (h : Derives g e d) :
    Only g start follow e d := by
  -- The items of a list stand two levels below it, so the induction is on the size.
  induction hn : sizeOf d using Nat.strongRecOn generalizing e d with
  | ind n ih =>
    subst hn
    have smaller : ∀ {e' z}, sizeOf z < sizeOf d → Derives g e' z → Only g start follow e' z :=
      fun lt hz => ih _ lt hz rfl
    cases h with
    | token _ => exact only_token
    | rule h => exact only_rule hg (smaller (by rw [Deriv.rule.sizeOf_spec]; omega) h)
    | seq hx hy => exact only_seq hg hx hy smaller
    | left hx => exact only_left hg hx (smaller (by simp) hx)
    | right hy => exact only_right hg hy (smaller (by simp) hy)
    | absent => exact only_absent hg
    | present hx => exact only_present hg hx (smaller (by simp) hx)
    | done => exact only_done hg
    | more hx hy =>
      exact only_more hg hx hy (smaller (by rw [Deriv.more.sizeOf_spec]; omega) hx)
        (smaller (by rw [Deriv.more.sizeOf_spec]; omega) hy)

end predictive

def atomStart : List Kind := [.name, .number, .string, .boolean, .noneWord, .lparen]

def factorStart : List Kind := [.arith .plus, .arith .minus] ++ atomStart

def exprStart : List Kind := .keyword .not :: factorStart

def compoundStart : List Kind := [.keyword .define, .keyword .ifWord, .keyword .whileWord]

def simpleStart : List Kind := [.keyword .pass, .keyword .ret] ++ exprStart

def comparisons : List Kind :=
  [.compare .lt, .compare .gt, .compare .eq, .compare .ge, .compare .le, .compare .ne, .keyword .is]

def start : Symbol → List Kind
  | .file => .eof :: (compoundStart ++ simpleStart)
  | .stmt => compoundStart ++ simpleStart
  | .compoundStmt => compoundStart
  | .simpleStmt => simpleStart
  | .exprOrAssignStmt | .expr | .orExpr | .andExpr | .notExpr => exprStart
  | .typeDef | .body => [.colon]
  | .funcDef => [.keyword .define]
  | .paramList | .argList => [.lparen]
  | .param => [.name]
  | .ifStmt => [.keyword .ifWord]
  | .whileStmt => [.keyword .whileWord]
  | .compOp => comparisons
  | .comparison | .arithExpr | .term | .factor => factorStart
  | .power | .primary | .atom => atomStart

def afterStmt : List Kind := [.eof, .dedent] ++ compoundStart ++ simpleStart

def afterExpr : List Kind := [.rparen, .comma, .colon, .assign, .newline]

def afterNot : List Kind := [.keyword .or, .keyword .and] ++ afterExpr

def afterSum : List Kind := comparisons ++ afterNot

def afterTerm : List Kind := [.arith .plus, .arith .minus] ++ afterSum

def afterFactor : List Kind :=
  [.arith .star, .arith .slash, .arith .floorDiv, .arith .mod] ++ afterTerm

def afterPrimary : List Kind := .arith .power :: afterFactor

def follow : Symbol → List Kind
  | .file => []
  | .stmt | .compoundStmt | .funcDef | .ifStmt | .whileStmt => afterStmt
  | .body => [.keyword .elifWord, .keyword .elseWord] ++ afterStmt
  | .simpleStmt | .exprOrAssignStmt => [.newline]
  | .typeDef => [.assign, .newline, .comma, .rparen]
  | .paramList => [.arrow, .colon]
  | .param => [.comma, .rparen]
  | .expr | .orExpr => afterExpr
  | .andExpr => .keyword .or :: afterExpr
  | .notExpr | .comparison => afterNot
  | .compOp => factorStart
  | .arithExpr => afterSum
  | .term => afterTerm
  | .factor | .power => afterFactor
  | .primary => afterPrimary
  | .argList | .atom => .lparen :: afterPrimary

theorem productions_fit : Fits start follow productions where
  some s := by cases s <;> rfl
  starts s := by cases s <;> decide
  choices s := by
    cases s <;> repeat' first | apply Predictive.list | constructor
    all_goals decide

theorem derivation_unique (h : Derives productions (.rule .file) d)
    (h' : Derives productions (.rule .file) d') (same : d.yield = d'.yield) : d = d' := by
  have ends : GoesOn (follow .file) [] := nofun
  have same' : d.yield ++ [] = d'.yield ++ [] := by rw [same]
  have only := h.only productions_fit (.rule (List.Subset.refl _)) h' same' ends ends
  exact only.1

end Grammar
end WordScript
