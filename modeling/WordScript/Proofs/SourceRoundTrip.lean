import WordScript.Proofs.ParseComplete
import WordScript.Proofs.SourceDerivation
import WordScript.Proofs.SourceLines

/-! Reading back what is written.

The words of a program are derived from the grammar, and the tree that the derivation determines is
built into the program again. -/
namespace WordScript
open Node (lastSpan? span?)
open Builder (arguments expr funcBody isDeclaration isVarDecl literal plainStmts program spanOf
  stmt textOf typeDef)
open Builtin (arity?)
open Piece (key lparen rparen)

open Token (Kind)
open Scanner (Shows words words_append)
open Grammar

def Placed (n : Node) : Prop := n.span?.isSome

theorem lastSpan?_append (ns : List Node) (n : Node) : lastSpan? (ns ++ [n]) = n.span? := by
  induction ns with
  | nil => rfl
  | cons m ns ih =>
    cases ns with
    | nil => rfl
    | cons k ns => exact ih

theorem Placed.branch {name : String} {ns : List Node} {l r : Node} (first : Placed l)
    (last : Placed r) : Placed (.branch name (l :: ns ++ [r])) := by
  obtain ⟨a, ha⟩ := Option.isSome_iff_exists.1 first
  obtain ⟨b, hb⟩ := Option.isSome_iff_exists.1 last
  have front : Node.firstSpan? (l :: ns ++ [r]) = some a := ha
  have back : lastSpan? (l :: ns ++ [r]) = some b := (lastSpan?_append _ _).trans hb
  simp only [Placed, span?, front, back, Option.isSome_some]

theorem Placed.single (h : Placed n) : Placed (.branch name [n]) := by
  obtain ⟨a, ha⟩ := Option.isSome_iff_exists.1 h
  simp [Placed, span?, Node.firstSpan?, lastSpan?, ha]

theorem Placed.all (h : ∀ m ∈ n :: ns, Placed m) : Placed (.branch name (n :: ns)) := by
  rcases List.eq_nil_or_concat ns with rfl | ⟨ns, last, rfl⟩
  · exact .single (h n List.mem_cons_self)
  · rw [List.concat_eq_append] at h ⊢
    exact .branch (h n List.mem_cons_self) (h last (by simp))

/-- A node that an expression is built from. -/
structure Means (source : Bytes) (e : Expr) (n : Node) : Prop where
  placed : Placed n
  item : n.name ≠ ","
  built : ∃ e', Builder.expr source n = .ok e' ∧ e'.bare = e.bare

section leaves

variable {source : Bytes} {kind : Kind} {x : String} {n : Node}

theorem placed_of_isLeaf (h : IsLeaf source kind x n) : Placed n := by
  obtain ⟨t, rfl, -⟩ := h
  rfl

theorem text_of_isLeaf (h : IsLeaf source kind x n) (text : kind.isLayout = false) :
    textOf source n = .ok x := by
  obtain ⟨t, rfl, shows⟩ := h
  rw [textOf, (shows.2 text).2]
  rfl

theorem name_of_isLeaf (h : IsLeaf source .name x n) : n.name = "VariableName" := by
  obtain ⟨t, rfl, shows⟩ := h
  have kind : t.kind = .name := shows.1
  simp [Node.name, Token.label, kind]

end leaves

section built

variable {source : Bytes} {x : String} {n : Node}
variable {l : Literal} {span : Span}

def MeansLiteral (source : Bytes) (l : Literal) (n : Node) : Prop :=
  ∃ l', Builder.literal source n = .ok l' ∧ l'.bare = l.bare

theorem number_built (hv : 0 ≤ v ∧ v ≤ 2147483647) (h : IsLeaf source .number (toString v) n) :
    ∃ span, literal source n = .ok ⟨span, none, .int, v⟩ := by
  have text := text_of_isLeaf h rfl
  obtain ⟨t, rfl, shows⟩ := h
  have kind : t.kind = .number := shows.1
  have point : (toString v).toList.contains '.' = false := by
    by_contra dot
    rw [Bool.not_eq_false, List.contains_iff_mem] at dot
    rcases Numeral.sign_or_isDigit_of_mem dot with h | h <;> revert h <;> decide
  have value : Numeral.int64? (toString v).toList = some v := by
    rw [Numeral.int64?, Numeral.int?_toString]
    simp only []
    rw [if_pos (by omega)]
  have small : v < 2147483648 := by omega
  have same : v.bmod 4294967296 = v := by
    rw [Int.bmod_eq_of_le_mul_two] <;> omega
  refine ⟨t.span, ?_⟩
  simp only [literal, text, Node.name, Token.label, kind, point, value, small, same,
    spanOf, span?, orCrash, bind, Except.bind, pure, Except.pure, if_true,
    Bool.false_eq_true, if_false]

theorem boolean_built (h : IsLeaf source .boolean x n) : ∃ span, literal source n =
    .ok ⟨span, none, if x = "True" then .isTrue else .isFalse, 0⟩ := by
  have text := text_of_isLeaf h rfl
  obtain ⟨t, rfl, shows⟩ := h
  have kind : t.kind = .boolean := shows.1
  refine ⟨t.span, ?_⟩
  simp only [literal, text, Node.name, Token.label, kind, spanOf, span?,
    orCrash, bind, Except.bind, pure, Except.pure]

theorem none_built (h : IsLeaf source .noneWord x n) :
    ∃ span, literal source n = .ok ⟨span, none, .unit, 0⟩ := by
  have text := text_of_isLeaf h rfl
  obtain ⟨t, rfl, shows⟩ := h
  have kind : t.kind = .noneWord := shows.1
  refine ⟨t.span, ?_⟩
  simp only [literal, text, Node.name, Token.label, kind, spanOf, span?,
    orCrash, bind, Except.bind, pure, Except.pure]

def Literal.IsLeaf (source : Bytes) (l : Literal) (n : Node) : Prop :=
  ∃ kind text, l.piece = .word kind text ∧ Grammar.IsLeaf source kind text n

section

variable (plain : l.Plain) (h : l.IsLeaf source n)
include plain h

theorem literal_built : MeansLiteral source l n := by
  obtain ⟨span, type, kind, value⟩ := l
  obtain ⟨rfl, plain⟩ : type = none ∧ _ := plain
  obtain ⟨_, _, piece, h⟩ := h
  cases kind with
  | int =>
    cases piece
    obtain ⟨_, built⟩ := number_built plain h
    exact ⟨_, built, rfl⟩
  | isTrue | isFalse =>
    cases piece
    obtain ⟨_, built⟩ := boolean_built h
    obtain rfl : value = 0 := plain
    exact ⟨_, built, rfl⟩
  | unit =>
    cases piece
    obtain ⟨_, built⟩ := none_built h
    obtain rfl : value = 0 := plain
    exact ⟨_, built, rfl⟩
  | other k => exact plain.elim

theorem literal_label :
    ∃ t, n = .leaf t ∧ (t.label = "Number" ∨ t.label = "Boolean" ∨ t.label = "None") := by
  obtain ⟨kind, x, piece, t, rfl, shows⟩ := h
  have same : t.kind = kind := shows.1
  obtain ⟨span, type, kind', value⟩ := l
  cases kind' with
  | _ =>
    cases piece
    simp [Token.label, same]

theorem means_literal : Means source (.literal l) n := by
  obtain ⟨l', built, same⟩ := literal_built plain h
  obtain ⟨t, rfl, label⟩ := literal_label plain h
  refine ⟨rfl, ?_, .literal l', ?_, ?_⟩
  · rcases label with label | label | label <;> simp [Node.name, label]
  · rcases label with label | label | label <;>
      simp only [expr, label, built, bind, Except.bind, pure, Except.pure]
  · simp only [Expr.bare, same]

end

theorem means_name (h : IsLeaf source .name x n) :
    Means source (.name span none x .unresolved) n := by
  have text := text_of_isLeaf h rfl
  have name := name_of_isLeaf h
  obtain ⟨t, rfl, shows⟩ := h
  have label : t.label = "VariableName" := name
  refine ⟨rfl, by simp [name], .name t.span none x .unresolved, ?_, rfl⟩
  simp only [expr, label, text, bind, Except.bind, pure, Except.pure]

theorem means_enclosed (h : Enclosed source (Means source e) n) : Means source e n := by
  obtain ⟨_, rfl, l, _, r, rfl, hl, ⟨m, rfl, hm⟩, hr⟩ := h
  obtain ⟨e', built, same⟩ := hm.built
  refine ⟨.branch (placed_of_isLeaf hl) (placed_of_isLeaf hr), by simp [Node.name], e', ?_, same⟩
  simpa [expr] using built

theorem spanOf_placed (h : Placed n) : ∃ span, spanOf n = .ok span := by
  obtain ⟨span, h⟩ := Option.isSome_iff_exists.1 h
  exact ⟨span, by rw [spanOf, h]; rfl⟩

theorem means_operation (known : op.Known)
    (h : Operation source op (Means source lhs) (Means source rhs) n) :
    Means source (.binary span none op lhs rhs) n := by
  obtain ⟨l, o, r, rfl, hl, ho, hr⟩ := h
  have placed : Placed (.branch "BinaryExpression" [l, o, r]) :=
    @Placed.branch _ [o] _ _ hl.placed hr.placed
  have layout : op.kind.isLayout = false := by cases op <;> rfl
  have text := text_of_isLeaf ho layout
  have found : BinaryOp.ofText? (op.text?.getD "") = some op := by
    cases op with
    | other k => exact known.elim
    | _ => rfl
  obtain ⟨span', place⟩ := spanOf_placed placed
  obtain ⟨lhs', left, same⟩ := hl.built
  obtain ⟨rhs', right, same'⟩ := hr.built
  refine ⟨placed, by simp [Node.name], .binary span' none op lhs' rhs', ?_, ?_⟩
  · simp only [expr, text, found, place, left, right, bind, Except.bind, pure, Except.pure]
  · simp only [Expr.bare, same, same']

theorem means_signed (sign : UnaryOp.ofText? x = some op) (layout : kind.isLayout = false)
    (h : Signed source kind x (Means source e) n) : Means source (.unary span none op e) n := by
  obtain ⟨o, m, rfl, ho, hm⟩ := h
  have placed : Placed (.branch "UnaryExpression" [o, m]) :=
    @Placed.branch _ [] _ _ (placed_of_isLeaf ho) hm.placed
  have text := text_of_isLeaf ho layout
  obtain ⟨span', place⟩ := spanOf_placed placed
  obtain ⟨e', built, same⟩ := hm.built
  refine ⟨placed, by simp [Node.name], .unary span' none op e', ?_, ?_⟩
  · simp only [expr, text, sign, place, built, bind, Except.bind, pure, Except.pure]
  · simp only [Expr.bare, same]

/-- The nodes of arguments, with commas between them. -/
abbrev MeansArgs (source : Bytes) : List Expr → List Node → Prop :=
  Separated source fun e => One (Means source e)

theorem comma_name (h : IsLeaf source .comma "," n) : n.name = "," := by
  obtain ⟨t, rfl, shows⟩ := h
  have kind : t.kind = .comma := shows.1
  simp [Node.name, Token.label, kind, (shows.2 rfl).1]

theorem arguments_comma (h : n.name = ",") (some : ms ≠ []) :
    arguments source (n :: ms) = arguments source ms := by
  cases ms with
  | nil => exact absurd rfl some
  | cons m ms => simp [arguments, h]

theorem arguments_built (h : MeansArgs source es ns) (r : Node) :
    ∃ es', arguments source (ns ++ [r]) = .ok es' ∧ Expr.bareAll es' = Expr.bareAll es := by
  induction es generalizing ns with
  | nil =>
    obtain rfl : ns = [] := h
    exact ⟨[], rfl, rfl⟩
  | cons e es ih =>
    cases es with
    | nil =>
      obtain ⟨m, rfl, hm⟩ : One (Means source e) ns := h
      obtain ⟨e', built, same⟩ := hm.built
      refine ⟨[e'], ?_, by simp [Expr.bareAll, same]⟩
      simp [arguments, hm.item, built, bind, Except.bind, pure, Except.pure]
    | cons f es =>
      obtain ⟨_, comma, ns', rfl, ⟨m, rfl, hm⟩, hc, others⟩ := h
      obtain ⟨e', built, same⟩ := hm.built
      obtain ⟨es', rest, same'⟩ := ih others
      refine ⟨e' :: es', ?_, by simp [Expr.bareAll, same, same']⟩
      have skip : arguments source (comma :: (ns' ++ [r])) = .ok es' :=
        (arguments_comma (comma_name hc) (by simp)).trans rest
      simp [arguments, hm.item, built,
        skip, bind, Except.bind, pure, Except.pure]

theorem means_called (arity : ∀ k ∈ arity? f, args.length = k)
    (h : Called source f (MeansArgs source args) n) : Means source (.call span none f args) n := by
  obtain ⟨g, _, rfl, hg, l, ns, r, rfl, hl, hargs, hr⟩ := h
  have list : Placed (.branch "ArgList" (l :: ns ++ [r])) :=
    .branch (placed_of_isLeaf hl) (placed_of_isLeaf hr)
  have placed : Placed (.branch "CallExpression" [g, .branch "ArgList" (l :: ns ++ [r])]) :=
    @Placed.branch _ [] _ _ (placed_of_isLeaf hg) list
  have text := text_of_isLeaf hg rfl
  have name := name_of_isLeaf hg
  obtain ⟨span', place⟩ := spanOf_placed placed
  rw [List.cons_append] at place
  obtain ⟨args', built, same⟩ := arguments_built hargs r
  have length : args'.length = args.length := by
    rw [← length_bareAll, same, length_bareAll]
  refine ⟨placed, by simp [Node.name], .call span' none f args', ?_, ?_⟩
  · cases known : arity? f with
    | none =>
      simp [expr, name, text, built, place, known, bind, Except.bind, pure,
        Except.pure]
    | some k =>
      have fits : args'.length = k := length.trans (arity k known)
      simp only [expr, name, text, built, place, known, fits, bind, Except.bind, pure,
        Except.pure, List.cons_append, ne_eq, not_true_eq_false, if_false]
  · simp only [Expr.bare, same]

theorem reads_enclosed (h : ReadsAt source (words ps) (Means source e) level) (place : Nat) :
    ReadsAt source (words (enclosed place level ps)) (Means source e) place := by
  unfold enclosed
  split
  · have inner := (h.le (Nat.zero_le _)).parens.mono fun _ => means_enclosed
    have same : words (lparen :: ps ++ [rparen]) =
        (.lparen, "(") :: words ps ++ [(.rparen, ")")] := by
      simp [words, lparen, rparen]
    rw [same]
    exact inner.tight place
  · rename_i bound
    exact h.le (Nat.le_of_not_lt bound)

theorem literal_reads (source : Bytes) (plain : l.Plain) :
    ReadsAt source (words [l.piece]) (l.IsLeaf source) 5 := by
  obtain ⟨kind, text, piece, atom⟩ : ∃ kind text, l.piece = .word kind text ∧
      Parser.isAtom kind = true := by
    obtain ⟨span, type, kind, value⟩ := l
    cases kind with
    | _ => exact ⟨_, _, rfl, rfl⟩
  rw [piece]
  exact (ReadsAt.leaf atom).mono fun n hn => ⟨kind, text, piece, hn⟩

theorem words_argPieces (es : List Expr) :
    words (Expr.argPieces es) = separated (es.map fun e => words (e.pieces 0)) := by
  induction es with
  | nil => rfl
  | cons e es ih =>
    cases es with
    | nil => rfl
    | cons f es =>
      rw [Expr.argPieces, words_append, ih]
      · simp [separated, words, Piece.comma]
      · simp

mutual

theorem Expr.reads (source : Bytes) : (e : Expr) → e.All Expr.Plain → (place : Nat) →
    ReadsAt source (words (e.pieces place)) (Means source e) place
  | .literal l, h, place => (literal_reads source h).mono (fun _ => means_literal h) |>.tight place
  | .name _ _ _ _, h, place => by
    obtain ⟨rfl, rfl, -⟩ := h
    exact ((ReadsAt.leaf rfl).mono fun _ => means_name).tight place
  | .call span _ f args, h, place => by
    obtain ⟨⟨rfl, -, arity⟩, all⟩ := h
    have list : ReadsAs source (.opt (.list (.rule .expr) .comma)) (words (Expr.argPieces args))
        (MeansArgs source args) := by
      rw [words_argPieces]
      exact .list fun e he => (Expr.readsAll source args all e he).expr
    have same : words (Expr.pieces place (.call span none f args)) =
        (.name, f) :: (.lparen, "(") :: words (Expr.argPieces args) ++ [(.rparen, ")")] := by
      simp [Expr.pieces, words, lparen, rparen]
    rw [same]
    exact ((ReadsAt.call list).mono fun _ => means_called arity).tight place
  | .binary _ _ op lhs rhs, h, place => by
    obtain ⟨⟨rfl, known⟩, left, right⟩ := h
    refine reads_enclosed ?_ place
    have both := ReadsAt.operation known (lhs.reads source left _) (rhs.reads source right _)
    have same : words (lhs.pieces op.level ++ [.blank, op.piece, .blank] ++
        rhs.pieces (op.level + 1)) = words (lhs.pieces op.level) ++
          (op.kind, op.text?.getD "") :: words (rhs.pieces (op.level + 1)) := by
      simp [words, BinaryOp.piece]
    rw [same]
    exact both.mono fun _ => means_operation known
  | .unary _ _ .neg e, h, place => by
    obtain ⟨⟨rfl, -⟩, inner⟩ := h
    refine reads_enclosed ?_ place
    exact (ReadsAt.minus (e.reads source inner 4)).mono fun _ => means_signed rfl rfl
  | .unary _ _ .not e, h, place => by
    obtain ⟨⟨rfl, -⟩, inner⟩ := h
    refine reads_enclosed ?_ place
    exact (ReadsAt.not (e.reads source inner 0)).mono fun _ => means_signed rfl rfl
  | .unary _ _ (.other _) _, h, _ => h.1.2.elim

theorem Expr.readsAll (source : Bytes) : (es : List Expr) → Expr.AllIn Expr.Plain es →
    ∀ e ∈ es, ReadsAt source (words (e.pieces 0)) (Means source e) 0
  | [], _ => nofun
  | e :: rest, h => List.forall_mem_cons.2
    ⟨e.reads source h.1 0, Expr.readsAll source rest h.2⟩

end

end built

/-- A node that a statement is built from. -/
structure MeansStmt (source : Bytes) (s : Stmt) (n : Node) : Prop where
  placed : Placed n
  plain : Builder.isDeclaration n = false
  built : ∃ s', Builder.stmt source n = .ok s' ∧ s'.bare = s.bare

section statements

variable {source : Bytes} {n : Node} {ns : List Node} {e : Expr} {span : Span}
variable {ss body : List Stmt}

/-- Nodes that statements are built from, one by one. -/
abbrev MeansStmts (source : Bytes) : List Stmt → List Node → Prop :=
  List.Forall₂ (MeansStmt source)

theorem stmts_built (h : MeansStmts source ss ns) :
    ∃ ss', Builder.stmts source ns = .ok ss' ∧ Stmt.bareAll ss' = Stmt.bareAll ss := by
  induction h with
  | nil => exact ⟨[], rfl, rfl⟩
  | cons first _ ih =>
    obtain ⟨s', built, same⟩ := first.built
    obtain ⟨ss', others, same'⟩ := ih
    refine ⟨s' :: ss', ?_, by simp [Stmt.bareAll, same, same']⟩
    simp only [Builder.stmts, built, others, bind, Except.bind, pure, Except.pure]

theorem plainStmts_built (h : MeansStmts source ss ns)
    (less : ∀ n, isDeclaration n = false → isDecl n = false) :
    ∃ ss', plainStmts source isDecl ns = .ok ss' ∧ Stmt.bareAll ss' = Stmt.bareAll ss := by
  induction h with
  | nil => exact ⟨[], rfl, rfl⟩
  | cons first _ ih =>
    obtain ⟨s', built, same⟩ := first.built
    obtain ⟨ss', others, same'⟩ := ih
    refine ⟨s' :: ss', ?_, by simp [Stmt.bareAll, same, same']⟩
    simp [plainStmts, less _ first.plain, built, others,
      bind, Except.bind, pure, Except.pure]

theorem means_pass (h : Branch "PassStatement" (One (IsLeaf source (.keyword .pass) "pass")) n) :
    MeansStmt source (.pass span) n := by
  obtain ⟨_, rfl, _, rfl, t, rfl, -⟩ := h
  exact ⟨rfl, rfl, .pass _, rfl, rfl⟩

theorem means_ret (h : Branch "ReturnStatement"
      (Joined (One (IsLeaf source (.keyword .ret) "return")) (One (Means source e))) n) :
    MeansStmt source (.ret span e) n := by
  obtain ⟨_, rfl, _, _, rfl, ⟨w, rfl, hw⟩, m, rfl, hm⟩ := h
  have placed : Placed (.branch "ReturnStatement" [w, m]) :=
    @Placed.branch _ [] _ _ (placed_of_isLeaf hw) hm.placed
  obtain ⟨span', place⟩ := spanOf_placed placed
  obtain ⟨e', built, same⟩ := hm.built
  refine ⟨placed, rfl, .ret span' e', ?_, by simp [Stmt.bare, same]⟩
  simp [stmt, built, place, bind, Except.bind, pure,
    Except.pure]

theorem means_exprStmt (h : Branch "ExpressionStatement" (One (Means source e)) n) :
    MeansStmt source (.expr span e) n := by
  obtain ⟨_, rfl, m, rfl, hm⟩ := h
  have placed : Placed (.branch "ExpressionStatement" [m]) := .single hm.placed
  obtain ⟨span', place⟩ := spanOf_placed placed
  obtain ⟨e', built, same⟩ := hm.built
  refine ⟨placed, rfl, .expr span' e', ?_, by simp [Stmt.bare, same]⟩
  simp only [stmt, built, place, bind, Except.bind, pure, Except.pure]

theorem assign_name (h : IsLeaf source .assign "=" n) : n.name = "=" := by
  obtain ⟨t, rfl, shows⟩ := h
  have kind : t.kind = .assign := shows.1
  simp [Node.name, Token.label, kind, (shows.2 rfl).1]

theorem means_assign
    (h : Branch "AssignStatement" (fun ns => ∃ m o v, ns = [m, o, v] ∧ IsLeaf source .name x m ∧ IsLeaf source .assign "=" o ∧ Means source e v) n) :
    MeansStmt source (.assign span x .unresolved e) n := by
  obtain ⟨_, rfl, m, o, v, rfl, hm, ho, hv⟩ := h
  have placed : Placed (.branch "AssignStatement" [m, o, v]) :=
    @Placed.branch _ [o] _ _ (placed_of_isLeaf hm) hv.placed
  have plain : isVarDecl (.branch "AssignStatement" [m, o, v]) = false := by
    simp [isVarDecl, assign_name ho]
  have text := text_of_isLeaf hm rfl
  have name := name_of_isLeaf hm
  obtain ⟨span', place⟩ := spanOf_placed placed
  obtain ⟨e', built, same⟩ := hv.built
  refine ⟨placed, ?_, .assign span' x .unresolved e', ?_, by simp [Stmt.bare, same]⟩
  · rw [isDeclaration, plain]
    rfl
  · simp [stmt, plain, name, text, built, place, bind, Except.bind, pure, Except.pure,
      ]

abbrev MeansBlock (source : Bytes) (ss : List Stmt) : Node → Prop :=
  Block source (MeansStmts source ss)

theorem placed_of_block (h : Block source A n) (inside : ∀ ms, A ms → ∀ m ∈ ms, Placed m) :
    Placed n := by
  obtain ⟨_, rfl, c, ms, rfl, hc, hm⟩ := h
  exact .all (List.forall_mem_cons.2 ⟨placed_of_isLeaf hc, inside ms hm⟩)

theorem placed_of_meansStmts (h : MeansStmts source ss ns) : ∀ m ∈ ns, Placed m := by
  induction h with
  | nil => nofun
  | cons first _ ih => exact List.forall_mem_cons.2 ⟨first.placed, ih⟩

theorem placed_of_meansBlock (h : MeansBlock source ss n) : Placed n :=
  placed_of_block h fun _ => placed_of_meansStmts

theorem means_while (h : Branch "WhileStatement"
      (Guarded source .whileWord (Means source e) (MeansBlock source body)) n) :
    MeansStmt source (.while span e body) n := by
  obtain ⟨_, rfl, w, c, b, rfl, hw, hc, hb⟩ := h
  have placed : Placed (.branch "WhileStatement" [w, c, b]) :=
    @Placed.branch _ [c] _ _ (placed_of_isLeaf hw) (placed_of_meansBlock hb)
  obtain ⟨span', place⟩ := spanOf_placed placed
  obtain ⟨e', cond, same⟩ := hc.built
  obtain ⟨_, rfl, _, ms, rfl, -, hm⟩ := hb
  obtain ⟨body', block, same'⟩ := stmts_built hm
  refine ⟨placed, rfl, .while span' e' body', ?_, by simp [Stmt.bare, same, same']⟩
  simp only [stmt, place, cond, block, bind, Except.bind, pure, Except.pure]

def MeansElifs (source : Bytes) : List Elif → List Node → Prop
  | [], ns => ns = []
  | .mk _ c body :: rest, ns =>
    Joined (Guarded source .elifWord (Means source c) (MeansBlock source body))
      (MeansElifs source rest) ns

/-- The nodes of an `else` clause, if there is one. -/
def MeansElse (source : Bytes) (ss : List Stmt) (ns : List Node) : Prop :=
  if ss.isEmpty then ns = []
  else ∃ w b, ns = [w, b] ∧ IsLeaf source (.keyword .elseWord) "else" w ∧ MeansBlock source ss b

theorem keyword_name (h : IsLeaf source (.keyword k) k.text n) : n.name = k.text := by
  obtain ⟨t, rfl, shows⟩ := h
  have kind : t.kind = .keyword k := shows.1
  simp [Node.name, Token.label, kind, (shows.2 rfl).1]

theorem else_built (h : MeansElse source ss ns) :
    ∃ o, Builder.clauses source ns = .ok ([], o) ∧ Stmt.bareAll (o.getD []) = Stmt.bareAll ss := by
  unfold MeansElse at h
  split at h
  · subst h
    refine ⟨none, rfl, ?_⟩
    have none : ss = [] := by simpa using ‹ss.isEmpty = true›
    rw [none]
    rfl
  · obtain ⟨w, b, rfl, hw, _, rfl, c, ms, rfl, -, hm⟩ := h
    obtain ⟨ss', built, same⟩ := stmts_built hm
    have name : w.name = "else" := keyword_name hw
    refine ⟨some ss', ?_, same⟩
    simp [Builder.clauses, name, built, bind, Except.bind, pure, Except.pure]

theorem clauses_built (h : MeansElifs source es ns) (h' : MeansElse source ss ms) :
    ∃ es' o, Builder.clauses source (ns ++ ms) = .ok (es', o) ∧
      Stmt.bareElifs es' = Stmt.bareElifs es ∧ Stmt.bareAll (o.getD []) = Stmt.bareAll ss := by
  induction es generalizing ns with
  | nil =>
    obtain rfl : ns = [] := h
    obtain ⟨o, built, same⟩ := else_built h'
    exact ⟨[], o, built, rfl, same⟩
  | cons clause es ih =>
    obtain ⟨span, c, body⟩ := clause
    obtain ⟨_, ns, rfl, ⟨w, m, b, rfl, hw, hm, hb⟩, others⟩ := h
    obtain ⟨es', o, rest, same, same'⟩ := ih others
    have name : w.name = "elif" := keyword_name hw
    obtain ⟨first, place⟩ := spanOf_placed (placed_of_isLeaf hw)
    obtain ⟨last, place'⟩ := spanOf_placed (placed_of_meansBlock hb)
    obtain ⟨c', cond, sameCond⟩ := hm.built
    obtain ⟨_, rfl, colon, ms', rfl, -, hms⟩ := hb
    obtain ⟨body', block, sameBody⟩ := stmts_built hms
    refine ⟨.mk (first.over last) c' body' :: es', o, ?_, ?_, same'⟩
    · simp [Builder.clauses, name, place, place', cond,
        block, rest, bind, Except.bind, pure, Except.pure]
    · simp only [Stmt.bareElifs, sameCond, sameBody, same]

theorem placed_of_guarded (h : Guarded source k (Means source e) (MeansBlock source ss) ns) :
    ∀ m ∈ ns, Placed m := by
  obtain ⟨w, c, b, rfl, hw, hc, hb⟩ := h
  simp [placed_of_isLeaf hw, hc.placed, placed_of_meansBlock hb]

theorem placed_of_meansElifs (h : MeansElifs source es ns) : ∀ m ∈ ns, Placed m := by
  induction es generalizing ns with
  | nil =>
    obtain rfl : ns = [] := h
    nofun
  | cons clause es ih =>
    obtain ⟨span, c, body⟩ := clause
    obtain ⟨_, ns, rfl, first, others⟩ := h
    exact List.forall_mem_append.2 ⟨placed_of_guarded first, ih others⟩

theorem placed_of_meansElse (h : MeansElse source ss ns) : ∀ m ∈ ns, Placed m := by
  unfold MeansElse at h
  split at h
  · subst h
    nofun
  · obtain ⟨w, b, rfl, hw, hb⟩ := h
    simp [placed_of_isLeaf hw, placed_of_meansBlock hb]

theorem means_cond
    (h : Branch "IfStatement" (Joined (Joined (Guarded source .ifWord (Means source e) (MeansBlock source body)) (MeansElifs source elifs)) (MeansElse source otherwise)) n) :
    MeansStmt source (.cond span e body elifs otherwise) n := by
  obtain ⟨_, rfl, _, ms, rfl, ⟨_, ns, rfl, first, clauses⟩, last⟩ := h
  have nodes := List.forall_mem_append.2 ⟨List.forall_mem_append.2
    ⟨placed_of_guarded first, placed_of_meansElifs clauses⟩, placed_of_meansElse last⟩
  obtain ⟨w, c, b, rfl, hw, hc, hb⟩ := first
  simp only [List.cons_append, List.nil_append] at nodes ⊢
  have placed : Placed (.branch "IfStatement" (w :: c :: b :: (ns ++ ms))) := .all nodes
  obtain ⟨span', place⟩ := spanOf_placed placed
  obtain ⟨e', cond, same⟩ := hc.built
  obtain ⟨es, o, rest, sameElifs, sameElse⟩ := clauses_built clauses last
  obtain ⟨_, rfl, _, ms, rfl, -, hm⟩ := hb
  obtain ⟨body', block, same'⟩ := stmts_built hm
  refine ⟨placed, rfl, .cond span' e' body' es (o.getD []), ?_, ?_⟩
  · simp only [stmt, place, cond, block, rest, bind, Except.bind, pure, Except.pure]
  · simp only [Stmt.bare, same, same', sameElifs, sameElse]

end statements

theorem reads_block (some : ss ≠ [])
    (h : ReadsAs source (.many (.rule .stmt)) (Stmt.wordsOf ss) (MeansStmts source ss)) :
    ReadsAs source (.rule .body) ((.colon, ":") :: block (Stmt.wordsOf ss))
      (One (MeansBlock source ss)) := by
  refine ReadsAs.body h ?_
  rintro _ built rfl
  cases built
  exact some rfl

theorem words_header (k : Token.Keyword) (c : Expr) (ws : List (Kind × String)) :
    words ([key k, .blank] ++ c.pieces 0 ++ [Piece.colon]) ++ ws =
      (.keyword k, k.text) :: words (c.pieces 0) ++ (.colon, ":") :: ws := by
  simp [words, key, Piece.colon]

mutual

theorem Stmt.reads (source : Bytes) : (s : Stmt) → s.All Expr.Plain Stmt.Plain →
    ReadsAs source (.rule .stmt) s.words (One (MeansStmt source s))
  | .pass _, _ => (ReadsAs.simple .pass).mono fun _ ⟨n, hn, h⟩ => ⟨n, hn, means_pass h⟩
  | .assign _ x _ e, h => by
    obtain ⟨⟨rfl, -⟩, value⟩ := h
    have target : ReadsAs source (.rule .expr) [(.name, x)] (One (IsLeaf source .name x)) :=
      ((ReadsAt.leaf rfl).tight 0).expr
    exact (ReadsAs.assign target (e.reads source value 0).expr).simple.mono
      fun _ ⟨n, hn, h⟩ => ⟨n, hn, means_assign h⟩
  | .expr _ e, h =>
    (ReadsAs.simple (.exprStmt (e.reads source h.2 0).expr)).mono
      fun _ ⟨n, hn, h⟩ => ⟨n, hn, means_exprStmt h⟩
  | .ret _ e, h =>
    (ReadsAs.simple (.ret (e.reads source h.2 0).expr)).mono
      fun _ ⟨n, hn, h⟩ => ⟨n, hn, means_ret h⟩
  | .while _ c body, h => by
    obtain ⟨written, cond, inside⟩ := h
    rw [Stmt.words, words_header]
    exact (ReadsAs.whileStmt (c.reads source cond 0).expr
      (reads_block written (Stmt.readsAll source body inside))).mono
      fun _ ⟨n, hn, h⟩ => ⟨n, hn, means_while h⟩
  | .cond _ c body elifs otherwise, h => by
    obtain ⟨⟨written, clauses⟩, cond, inside, insideElifs, insideElse⟩ := h
    have others := Stmt.readsAll source otherwise insideElse
    have last : ReadsAs source (.opt (.token (.keyword .elseWord) ++ .rule .body))
        (if otherwise.isEmpty then []
          else Scanner.words [key .elseWord, Piece.colon] ++ block (Stmt.wordsOf otherwise))
        (MeansElse source otherwise) := by
      by_cases none : otherwise = []
      · subst none
        exact .empty fun _ => .absent
      · have some : ¬ otherwise.isEmpty = true := by simpa using none
        rw [if_neg some]
        exact (ReadsAs.elseBody (reads_block none others)).mono fun ns hn => by
          rwa [MeansElse, if_neg some]
    rw [Stmt.words, words_header]
    exact (ReadsAs.ifStmt (c.reads source cond 0).expr
      (reads_block written (Stmt.readsAll source body inside))
      (Stmt.readsElifs source elifs insideElifs clauses) last).mono
      fun _ ⟨n, hn, h⟩ => ⟨n, hn, means_cond h⟩

theorem Stmt.readsAll (source : Bytes) : (ss : List Stmt) → Stmt.AllIn Expr.Plain Stmt.Plain ss →
    ReadsAs source (.many (.rule .stmt)) (Stmt.wordsOf ss) (MeansStmts source ss)
  | [], _ => (ReadsAs.empty fun _ => .done).mono fun ns hn => hn ▸ .nil
  | s :: rest, h => by
    have all := (s.reads source h.1).more (Stmt.readsAll source rest h.2)
    refine all.mono ?_
    rintro _ ⟨_, ns, rfl, ⟨n, rfl, hn⟩, hns⟩
    exact .cons hn hns

theorem Stmt.readsElifs (source : Bytes) : (es : List Elif) →
    Stmt.AllInElifs Expr.Plain Stmt.Plain es → (∀ c ∈ es, c.body ≠ []) →
    ReadsAs source (.many (.token (.keyword .elifWord) ++ .rule .expr ++ .rule .body))
      (Stmt.elifWords es) (MeansElifs source es)
  | [], _, _ => ReadsAs.empty fun _ => .done
  | .mk _ c body :: rest, h, written => by
    obtain ⟨cond, inside, others⟩ := h
    have first := ReadsAs.guarded .elifWord (c.reads source cond 0).expr
      (reads_block (written _ List.mem_cons_self) (Stmt.readsAll source body inside))
    rw [Stmt.elifWords, words_header]
    exact first.more (Stmt.readsElifs source rest others
      fun c hc => written c (List.mem_cons_of_mem _ hc))

end

section declarations

variable {source : Bytes} {n : Node} {ns : List Node} {t : Option Ty} {span : Span}
variable {vs : List VarDecl} {ss : List Stmt}

def TypeLeaf (source : Bytes) (t : Option Ty) (n : Node) : Prop :=
  ∃ ty kind x, t = some ty ∧ ty.piece = .word kind x ∧ IsLeaf source kind x n

theorem type_reads (source : Bytes) (h : t.isSome) :
    ReadsAs source (.rule .expr) (words (typePieces t)) (One (TypeLeaf source t)) := by
  obtain ⟨ty, rfl⟩ := Option.isSome_iff_exists.1 h
  have leaf : ∀ {kind x}, ty.piece = .word kind x → Parser.isAtom kind = true →
      ReadsAs source (.rule .expr) [(kind, x)] (One (TypeLeaf source (some ty))) :=
    fun piece atom =>
      (((ReadsAt.leaf atom).mono fun n hn => ⟨ty, _, _, rfl, piece, hn⟩).tight 0).expr
  cases ty with
  | int | bool | unit => exact leaf rfl rfl

/-- A branch for a type, behind the word that leads it. -/
def MeansType (source : Bytes) (t : Option Ty) (n : Node) : Prop :=
  ∃ lead label, n = .branch "TypeDef" [lead, label] ∧ Placed lead ∧ TypeLeaf source t label

theorem none_name (h : IsLeaf source .noneWord x n) :
    n.name = "None" := by
  obtain ⟨t, rfl, shows⟩ := h
  have kind : t.kind = .noneWord := shows.1
  simp [Node.name, Token.label, kind]

theorem typeDef_built (h : MeansType source t n) :
    ∃ ty, t = some ty ∧ typeDef source n = .ok ty := by
  obtain ⟨lead, label, rfl, -, ty, kind, x, rfl, piece, leaf⟩ := h
  refine ⟨ty, rfl, ?_⟩
  cases ty with
  | int | bool =>
    cases piece
    simp [typeDef, text_of_isLeaf leaf rfl, name_of_isLeaf leaf, if_true,
      Ty.ofName?, bind, Except.bind, pure, Except.pure]
  | unit =>
    cases piece
    simp only [typeDef, text_of_isLeaf leaf rfl, none_name leaf, or_true, if_true,
      Ty.ofName?, bind, Except.bind, pure, Except.pure]

theorem placed_of_meansType (h : MeansType source t n) : Placed n := by
  obtain ⟨lead, label, rfl, placed, ty, kind, x, rfl, piece, leaf⟩ := h
  exact @Placed.branch _ [] _ _ placed (placed_of_isLeaf leaf)

/-- A node that a variable is built from. -/
structure MeansVar (source : Bytes) (v : VarDecl) (n : Node) : Prop where
  placed : Placed n
  declares : Builder.isVarDecl n = true
  built : ∃ v', Builder.varDecl source n = .ok v' ∧ v'.bare = v.bare

theorem typeDef_reads (source : Bytes) (h : t.isSome) :
    ReadsAs source (.rule .typeDef) ((.colon, ":") :: words (typePieces t))
      (One (MeansType source t)) := by
  refine (type_reads source h).typeDef.mono ?_
  rintro _ ⟨_, rfl, _, rfl, c, label, rfl, hc, hl⟩
  exact ⟨_, rfl, c, label, rfl, placed_of_isLeaf hc, hl⟩

theorem means_declared (plain : v.init.Plain)
    (h : Branch "AssignStatement" (fun ns => ∃ x t o i, ns = [x, t, o, i] ∧ IsLeaf source .name v.name x ∧ MeansType source v.type t ∧ IsLeaf source .assign "=" o ∧ v.init.IsLeaf source i) n) :
    MeansVar source v n := by
  obtain ⟨_, rfl, x, t, o, i, rfl, hx, ht, ho, hi⟩ := h
  have placed : Placed (.branch "AssignStatement" [x, t, o, i]) :=
    @Placed.branch _ [t, o] _ _ (placed_of_isLeaf hx) (means_literal plain hi).placed
  have declares : isVarDecl (.branch "AssignStatement" [x, t, o, i]) = true := by
    obtain ⟨lead, label, rfl, -⟩ := ht
    rfl
  obtain ⟨span, place⟩ := spanOf_placed placed
  obtain ⟨ty, hty, type⟩ := typeDef_built ht
  obtain ⟨l, init, same⟩ := literal_built plain hi
  refine ⟨placed, declares, ⟨span, v.name, some ty, l⟩, ?_, ?_⟩
  · simp [Builder.varDecl, name_of_isLeaf hx, text_of_isLeaf hx rfl, type, init, place, bind,
      Except.bind, pure, Except.pure]
  · simp only [VarDecl.bare, hty, same]

theorem VarDecl.reads (source : Bytes) (h : v.Plain) :
    ReadsAs source (.rule .stmt) v.words (One (MeansVar source v)) := by
  have target : ReadsAs source (.rule .expr) [(.name, v.name)] (One (IsLeaf source .name v.name)) :=
    ((ReadsAt.leaf rfl).tight 0).expr
  have all := (ReadsAs.declare target (typeDef_reads source h.type)
    ((literal_reads source h.init).tight 0).expr).simple
  have same : v.words = [(.name, v.name)] ++ (.colon, ":") :: Scanner.words (typePieces v.type) ++
      (.assign, "=") :: Scanner.words [v.init.piece] ++ [(.newline, "")] := by
    simp [VarDecl.words, VarDecl.line, Scanner.words, Piece.colon, Piece.assign]
  rw [same]
  exact all.mono fun _ ⟨n, hn, h'⟩ => ⟨n, hn, means_declared h.init h'⟩

def MeansParam (source : Bytes) (a : Param) (ns : List Node) : Prop :=
  ∃ x t, ns = [x, t] ∧ IsLeaf source .name a.name x ∧ MeansType source a.type t

theorem words_listPieces (params : List Param) :
    words (Param.listPieces params) = separated (params.map fun a => words a.pieces) := by
  induction params with
  | nil => rfl
  | cons a params ih =>
    cases params with
    | nil => rfl
    | cons b params =>
      rw [Param.listPieces, words_append, ih]
      · simp [separated, words, Piece.comma]
      · simp

theorem params_reads (source : Bytes) (h : ∀ a ∈ params, IsPlainName a.name ∧ a.type.isSome) :
    ReadsAs source (.opt (.list (.rule .param) .comma)) (words (Param.listPieces params))
      (Separated source (MeansParam source) params) := by
  rw [words_listPieces]
  refine .list fun a ha => ?_
  have parts := (ReadsAs.word source .name a.name rfl).seq
    ((typeDef_reads source (h a ha).2).lift .present)
  refine parts.rule .param ?_
  rintro _ ⟨_, _, rfl, ⟨x, rfl, hx⟩, t, rfl, ht⟩
  exact ⟨x, t, rfl, hx, ht⟩

theorem param_built (h : MeansParam source a ns) (ms : List Node)
    (others : Builder.params source ms = .ok as) :
    ∃ a', Builder.params source (ns ++ ms) = .ok (a' :: as) ∧ a'.bare = a.bare := by
  obtain ⟨x, t, rfl, hx, ht⟩ := h
  obtain ⟨first, place⟩ := spanOf_placed (placed_of_isLeaf hx)
  obtain ⟨last, place'⟩ := spanOf_placed (placed_of_meansType ht)
  obtain ⟨ty, hty, type⟩ := typeDef_built ht
  have name : t.name = "TypeDef" := by
    obtain ⟨lead, label, rfl, -⟩ := ht
    rfl
  refine ⟨⟨first.over last, a.name, some ty⟩, ?_, by simp [Param.bare, hty]⟩
  simp [Builder.params, name_of_isLeaf hx,
    text_of_isLeaf hx rfl, name, place, place', type, others, bind, Except.bind, pure, Except.pure,
    ne_eq]

theorem params_built (h : Separated source (MeansParam source) params ns) :
    ∃ as, Builder.params source ns = .ok as ∧ as.map Param.bare = params.map Param.bare := by
  induction params generalizing ns with
  | nil =>
    obtain rfl : ns = [] := h
    exact ⟨[], rfl, rfl⟩
  | cons a params ih =>
    cases params with
    | nil =>
      obtain ⟨a', built, same⟩ := param_built h [] rfl
      rw [List.append_nil] at built
      exact ⟨[a'], built, by simp [same]⟩
    | cons b params =>
      obtain ⟨ms, comma, ns, rfl, first, hc, others⟩ := h
      obtain ⟨as, rest, same⟩ := ih others
      have skip : Builder.params source (comma :: ns) = .ok as := by
        rw [Builder.params, if_pos (by simp [comma_name hc])]
        exact rest
      obtain ⟨a', built, same'⟩ := param_built first _ skip
      exact ⟨a' :: as, built, by simp [same', same]⟩

/-- Nodes that variables and then statements are built from. -/
def MeansBody (source : Bytes) (vs : List VarDecl) (ss : List Stmt) : List Node → Prop :=
  Joined (List.Forall₂ (MeansVar source) vs) (MeansStmts source ss)

theorem isVarDecl_of_plain (h : isDeclaration n = false) : isVarDecl n = false :=
  (Bool.or_eq_false_iff.1 h).1

theorem funcBody_built (h : MeansBody source vs ss ns) :
    ∃ vs' ss', funcBody source ns = .ok (vs', ss') ∧
      vs'.map VarDecl.bare = vs.map VarDecl.bare ∧ Stmt.bareAll ss' = Stmt.bareAll ss := by
  obtain ⟨ms, ns, rfl, vars, body⟩ := h
  induction vars with
  | nil =>
    obtain ⟨ss', built, same⟩ := plainStmts_built body fun _ => isVarDecl_of_plain
    refine ⟨[], ss', ?_, rfl, same⟩
    cases body with
    | nil =>
      cases built
      rfl
    | cons first others =>
      simp [funcBody, isVarDecl_of_plain first.plain,
        Bool.false_eq_true, built, bind, Except.bind, pure, Except.pure]
  | cons first _ ih =>
    obtain ⟨vs', ss', rest, same, same'⟩ := ih
    obtain ⟨v', built, same''⟩ := first.built
    refine ⟨v' :: vs', ss', ?_, by simp [same, same''], same'⟩
    simp only [List.cons_append, funcBody, first.declares, if_true, built, rest, bind,
      Except.bind, pure, Except.pure]

theorem placed_of_meansBody (h : MeansBody source vs ss ns) : ∀ m ∈ ns, Placed m := by
  obtain ⟨ms, ns, rfl, vars, body⟩ := h
  refine List.forall_mem_append.2 ⟨?_, placed_of_meansStmts body⟩
  induction vars with
  | nil => nofun
  | cons first _ ih => exact List.forall_mem_cons.2 ⟨first.placed, ih⟩

/-- A node that a function is built from. -/
structure MeansFunc (source : Bytes) (f : FuncDef) (n : Node) : Prop where
  declares : Builder.isVarDecl n = false ∧ n.name = "FunctionDefinition" ∧ n.content ≠ []
  built : ∃ f', Builder.funcDef source n = .ok f' ∧ f'.bare = f.bare

theorem means_defined
    (h : Branch "FunctionDefinition" (Defined source f.name (Separated source (MeansParam source) f.params) (TypeLeaf source f.returns) (Block source (MeansBody source f.locals f.body))) n) :
    MeansFunc source f n := by
  obtain ⟨_, rfl, w, x, _, a, t, b, rfl, hw, hx, ⟨l, ps, r, rfl, -, hps, -⟩, ha, ht, hb⟩ := h
  have body : Placed b := placed_of_block hb fun _ => placed_of_meansBody
  obtain ⟨span, place⟩ := spanOf_placed (@Placed.branch "FunctionDefinition"
    [x, .branch "ParamList" (l :: ps ++ [r]), .branch "TypeDef" [a, t]] w b
    (placed_of_isLeaf hw) body)
  obtain ⟨as, params, sameParams⟩ := params_built hps
  obtain ⟨ty, hty, type⟩ := typeDef_built ⟨a, t, rfl, placed_of_isLeaf ha, ht⟩
  obtain ⟨_, rfl, c, ms, rfl, hc, hms⟩ := hb
  obtain ⟨vs, ss, stmts, sameVars, sameStmts⟩ := funcBody_built hms
  refine ⟨⟨rfl, rfl, by simp [Node.content]⟩, ⟨span, f.name, as, some ty, vs, ss⟩, ?_, ?_⟩
  · simp only [List.cons_append, List.nil_append] at place
    simp [Builder.funcDef, place, Node.content, Node.name,
      text_of_isLeaf hx rfl, params, type, List.getLastD,
      stmts, bind, Except.bind, pure, Except.pure]
  · simp only [FuncDef.bare, sameParams, hty, sameVars, sameStmts]

theorem FuncDef.reads (source : Bytes) (h : f.Plain) :
    ReadsAs source (.rule .stmt) f.words (One (MeansFunc source f)) := by
  have vars := ReadsAs.each fun v hv => VarDecl.reads source (h.locals v hv)
  have inside := vars.join (Stmt.readsAll source f.body h.body) .append
  have written : ∀ ns, MeansBody source f.locals f.body ns → ns ≠ [] := by
    rintro _ ⟨ms, ns, rfl, vars, body⟩ none
    obtain ⟨rfl, rfl⟩ := List.append_eq_nil_iff.1 none
    exact h.some (List.forall₂_nil_right_iff.1 vars) (List.forall₂_nil_right_iff.1 body)
  have all : ReadsAs source (.rule .stmt) _ (One (MeansFunc source f)) :=
    (ReadsAs.funcDef (f := f.name) (params_reads source h.params) (type_reads source h.returns)
      (ReadsAs.body inside written)).mono fun _ ⟨n, hn, h⟩ => ⟨n, hn, means_defined h⟩
  simpa [FuncDef.words, FuncDef.header, block, Scanner.words, key, lparen, rparen,
    Piece.arrow, Piece.colon, Token.Keyword.text] using all

theorem program_stmts (h : MeansStmts source ss ns) :
    ∃ q, program source ns = .ok q ∧ q.bare = ⟨[], [], Stmt.bareAll ss⟩ := by
  obtain ⟨ss', built, same⟩ := plainStmts_built h fun _ h => h
  refine ⟨⟨[], [], ss'⟩, ?_, by simp [Program.bare, same]⟩
  cases h with
  | nil =>
    cases built
    rfl
  | @cons _ n _ _ first others =>
    have name : n.name ≠ "FunctionDefinition" := by
      simpa using (Bool.or_eq_false_iff.1 first.plain).2
    simp [program, isVarDecl_of_plain first.plain, name,
      built, bind, Except.bind, pure, Except.pure]

theorem program_funcs (funcs : List.Forall₂ (MeansFunc source) fs ms)
    (stmts : MeansStmts source ss ns) :
    ∃ q, program source (ms ++ ns) = .ok q ∧
      q.bare = ⟨[], fs.map FuncDef.bare, Stmt.bareAll ss⟩ := by
  induction funcs with
  | nil => exact program_stmts stmts
  | @cons f n _ _ first _ ih =>
    obtain ⟨q, rest, same⟩ := ih
    obtain ⟨f', built, same'⟩ := first.built
    obtain ⟨plain, name, written⟩ := first.declares
    refine ⟨{ q with funcs := f' :: q.funcs }, ?_, ?_⟩
    · cases n with
      | leaf t => exact absurd rfl written
      | branch label content =>
        simp [program, plain, name,
          if_true, built, rest, bind, Except.bind, pure, Except.pure]
    · simp only [Program.bare, Program.mk.injEq] at same ⊢
      simp [same, same']

theorem program_built (vars : List.Forall₂ (MeansVar source) vs ms)
    (funcs : List.Forall₂ (MeansFunc source) fs ns) (stmts : MeansStmts source ss ks) :
    ∃ q, program source (ms ++ ns ++ ks) = .ok q ∧ q.bare = (Program.mk vs fs ss).bare := by
  induction vars with
  | nil =>
    obtain ⟨q, built, same⟩ := program_funcs funcs stmts
    exact ⟨q, built, same⟩
  | @cons v n _ _ first _ ih =>
    obtain ⟨q, rest, same⟩ := ih
    obtain ⟨v', built, same'⟩ := first.built
    refine ⟨{ q with vars := v' :: q.vars }, ?_, ?_⟩
    · simp only [List.cons_append, program, first.declares, if_true, built, rest, bind,
        Except.bind, pure, Except.pure]
    · simp only [Program.bare, Program.mk.injEq] at same ⊢
      simp [same, same']

end declarations

/-- The tree of a program that is built into the program again. -/
def MeansProgram (source : Bytes) (p : Program) (n : Node) : Prop :=
  ∃ q, Builder.program source n.content = .ok q ∧ q.bare = p.bare

theorem Program.reads (source : Bytes) (h : p.Plain) :
    ReadsAs source (.rule .file) (p.words ++ [(.eof, "")]) (One (MeansProgram source p)) := by
  have vars := ReadsAs.each fun v hv => VarDecl.reads source (h.vars v hv)
  have funcs := ReadsAs.each fun f hf => FuncDef.reads source (h.funcs f hf)
  have stmts := Stmt.readsAll source p.stmts h.stmts
  have ends : ReadsAs source (.token .eof) [(.eof, "")] (· = []) := .layout rfl
  refine (((vars.join funcs .append).join stmts .append).seq ends).rule .file ?_
  rintro _ ⟨_, _, rfl, ⟨_, ks, rfl, ⟨ms, ns, rfl, vars, funcs⟩, stmts⟩, rfl⟩
  rw [List.append_nil]
  exact ⟨_, rfl, program_built vars funcs stmts⟩

/-- The source text of a program is read into a tree, and the tree is built into the program again,
but for the places of its parts. -/
theorem source_round_trip (p : Program) (h : p.Plain) :
    ∃ tree q, Tree.parse (Utf8.encode p.sourceText) = .ok tree ∧ Program.ofTree tree = .ok q ∧
      q.bare = p.bare := by
  obtain ⟨ts, handsOut, shows⟩ := Program.handed_out h
  obtain ⟨_, ⟨n, rfl, q, built, same⟩, reads⟩ := Program.reads _ h shows
  obtain ⟨d, derives, nodes, tokens⟩ := reads []
  rw [List.append_nil, List.append_nil] at tokens
  rw [tokens] at handsOut
  obtain ⟨m, hm, parsed⟩ := parse_of_derives handsOut derives
  obtain rfl : n = m := by simpa [nodes] using hm
  exact ⟨_, q, parsed, built, same⟩

/-- A program in which operators nest on both sides, blocks in blocks, and a name is not ASCII. -/
def descent : Program :=
  let lit (kind : LiteralKind) (v : Int) : Expr := .literal ⟨default, none, kind, v⟩
  let var (x : String) : Expr := .name default none x .unresolved
  let bin (op : BinaryOp) (l r : Expr) : Expr := .binary default none op l r
  { vars := [⟨default, "höhe", some .int, ⟨default, none, .int, 2147483647⟩⟩]
    funcs := [{
      span := default
      name := "step"
      params := [⟨default, "n", some .int⟩, ⟨default, "up", some .bool⟩]
      returns := some .unit
      locals := [⟨default, "last", some .unit, ⟨default, none, .unit, 0⟩⟩]
      body := [
        .cond default (.unary default none .not (var "up"))
          [.while default (bin .gt (var "n") (lit .int 0))
            [.assign default "n" .unresolved
              (bin .sub (bin .sub (var "n") (lit .int 1)) (bin .sub (var "n") (lit .int 2)))]]
          [.mk default (bin .is (bin .eq (var "n") (lit .int 1)) (lit .isFalse 0)) [.pass default]]
          [.ret default (lit .unit 0)]] }]
    stmts := [
      .expr default (.call default none "step"
        [bin .mul (bin .add (var "höhe") (lit .int 1))
          (.unary default none .neg (.unary default none .neg (lit .int 3))), lit .isTrue 0]),
      .expr default (.call default none "print" [.call default none "max"
        [var "höhe", bin .mod (lit .int 7) (bin .floorDiv (lit .int 9) (lit .int 2))]])] }

example : descent.sourceText =
    "höhe: int = 2147483647\n" ++
    "def step(n: int, up: bool) -> None:\n" ++
    "    last: None = None\n" ++
    "    if not up:\n" ++
    "        while n > 0:\n" ++
    "            n = n - 1 - (n - 2)\n" ++
    "    elif n == 1 is False:\n" ++
    "        pass\n" ++
    "    else:\n" ++
    "        return None\n" ++
    "step((höhe + 1) * --3, True)\n" ++
    "print(max(höhe, 7 % (9 // 2)))\n" := by
  decide +kernel

theorem descent_names : ∀ x ∈ ["höhe", "step", "n", "up", "last", "print", "max"],
    isIdentifier x = true ∧ Kind.ofWord x = .name := by
  decide +kernel

theorem descent_plain : descent.Plain := by
  have names := descent_names
  simp only [List.mem_cons, forall_eq_or_imp] at names
  have arities : arity? "step" = none ∧ arity? "print" = some 1 ∧
      arity? "max" = some 2 := by decide
  constructor
  · simp only [descent, List.mem_singleton, forall_eq]
    exact ⟨names.1, rfl, rfl, by decide⟩
  · simp only [descent, List.mem_singleton, forall_eq]
    constructor <;>
      simp [IsPlainName, names, Stmt.AllIn, Stmt.All, Stmt.AllInElifs, Stmt.Plain, Expr.All,
        Expr.Plain, Literal.Plain, BinaryOp.Known, UnaryOp.Known, Elif.body]
    exact ⟨names.2.2.2.2.1, rfl, rfl, rfl⟩
  · simp [descent, IsPlainName, names, arities, Stmt.AllIn, Stmt.All, Stmt.Plain, Expr.All,
      Expr.AllIn, Expr.Plain, Literal.Plain, BinaryOp.Known, UnaryOp.Known]

theorem descent_round_trip : descent.Plain ∧ ∃ tree q,
    Tree.parse (Utf8.encode descent.sourceText) = .ok tree ∧ Program.ofTree tree = .ok q ∧
      q.bare = descent.bare :=
  ⟨descent_plain, source_round_trip descent descent_plain⟩

end WordScript
