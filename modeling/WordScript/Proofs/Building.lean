import WordScript.Proofs.CheckSpans
import WordScript.Proofs.SourceText
import WordScript.Proofs.TreePositions
import WordScript.Proofs.TreesAlike

/-! Building a program from a tree.

Every part of a tree that building asks for is there if the tree has the shapes of the grammar, so
that building never crashes on a tree that is read from a source. What it builds is a program of
known nodes, and it stops only at places of the source.

Building takes texts from leaves and places from everywhere. From trees of the same form with the
same texts it builds programs that differ in places only, or it stops on both. The two are followed
together: one induction over the shapes says what is built from a tree and that what is built from
a tree alike is the same but for places. -/
namespace WordScript
open Scanner (ScansAlike scan)
open Stmt (AllIn bareAll bareElifs)

theorem Token.Alike.label (h : Token.Alike t t') : t.label = t'.label := by
  simp only [Token.label, h.kind, h.value]

namespace Node

variable {R : Token → Token → Prop}

mutual

theorem Alike.span_isSome : {n n' : Node} → Alike R n n' →
    n.span?.isSome = n'.span?.isSome
  | _, _, .leaf _ _ => rfl
  | _, _, @Alike.branch _ name ns ns' parts => by
    have first := parts.firstSpan_isSome
    have last := parts.lastSpan_isSome
    rw [span?, span?]
    cases ha : firstSpan? ns <;> cases hb : firstSpan? ns' <;> cases hc : lastSpan? ns <;>
      cases hd : lastSpan? ns' <;> simp_all

theorem AlikeAll.firstSpan_isSome : {ns ns' : List Node} →
    AlikeAll R ns ns' → (firstSpan? ns).isSome = (firstSpan? ns').isSome
  | _, _, .nil => rfl
  | _, _, .cons first _ => first.span_isSome

theorem AlikeAll.lastSpan_isSome : {ns ns' : List Node} →
    AlikeAll R ns ns' → (lastSpan? ns).isSome = (lastSpan? ns').isSome
  | _, _, .nil => rfl
  | _, _, .cons first .nil => first.span_isSome
  | _, _, .cons _ (.cons second others) => (AlikeAll.cons second others).lastSpan_isSome

end

theorem Alike.span_some (h : Alike R n n') (hs : n.span? = some s) : ∃ s', n'.span? = some s' := by
  have same := h.span_isSome
  rw [hs] at same
  exact Option.isSome_iff_exists.1 same.symm

end Node

namespace Builder

open Grammar

variable {source source' : Bytes} {n n' m m' : Node} {ns ns' : List Node} {t t' : Token}

/-- Nodes of two sources that differ in their places only. -/
abbrev Reads (source source' : Bytes) (n n' : Node) : Prop :=
  n.Alike (Token.SameText source source') n'

/-- Parts of two sources that differ in their places only. -/
abbrev ReadsAll (source source' : Bytes) (ns ns' : List Node) : Prop :=
  Node.AlikeAll (Token.SameText source source') ns ns'

section both

variable {α β γ δ : Type} {f : α → β} {q : α → Prop} {g : γ → δ} {r : γ → Prop} {x y : Build α}
  {k k' : α → Build γ}

/-- Building is safe at the places of the source. -/
abbrev Builds (source : Bytes) (q : α → Prop) (x : Build α) : Prop :=
  Safe (Span.Selects source) q x

def Stops (x : Build α) : Prop := x.toOption = none

/-- Both give a result, the same under `f` and the first of a kind, or both stop, the first at a
place of the source. -/
def Both (source : Bytes) (f : α → β) (q : α → Prop) : Build α → Build α → Prop
  | .ok a, .ok b => f a = f b ∧ q a
  | .error e, .error _ => Builds source q (.error e)
  | _, _ => False

theorem Both.builds (h : Both source f q x y) : Builds source q x := by
  cases x <;> cases y
  · exact h
  · cases h
  · cases h
  · exact h.2

theorem Both.same (h : Both source f q x y) : x.toOption.map f = y.toOption.map f := by
  cases x <;> cases y
  · rfl
  · cases h
  · cases h
  · exact congrArg some h.1

theorem Both.stops (hx : Builds source (fun _ => False) x) (hy : Stops y) : Both source f q x y := by
  rcases x with (_ | _) | _ <;> cases y
  · exact hx
  · cases hy
  · cases hx
  · cases hy
  · cases hx
  · cases hx

theorem Both.pure (same : f a = f b) (h : q a) :
    Both source f q (Pure.pure a) (Pure.pure b) := ⟨same, h⟩

theorem Both.bind (h : Both source f q x y)
    (hk : ∀ a b, f a = f b → q a → Both source g r (k a) (k' b)) :
    Both source g r (x >>= k) (y >>= k') := by
  rcases x with (_ | _) | a <;> cases y
  · exact h
  · cases h
  · exact h
  · cases h
  · cases h
  · exact hk _ _ h.1 h.2

theorem Both.bind_same (h : Both source id q x y)
    (hk : ∀ a, q a → Both source g r (k a) (k' a)) : Both source g r (x >>= k) (y >>= k') := by
  refine h.bind fun a b same ha => ?_
  obtain rfl : a = b := same
  exact hk a ha

theorem Stops.bind (h : ∀ a, Stops (k a)) : Stops (x >>= k) := by
  cases x with
  | error e => rfl
  | ok a => exact h a

theorem spanOf_builds (h : n.Laid source) : Builds source (Span.Selects source) (spanOf n) := by
  obtain ⟨s, hs, selects⟩ := h.span
  rw [spanOf, hs]
  exact selects

theorem spanOf_both (laid : n.Laid source) (h : Reads source source' n n') :
    Both source (fun _ => ()) (Span.Selects source) (spanOf n) (spanOf n') := by
  obtain ⟨s, hs, selects⟩ := laid.span
  obtain ⟨s', hs'⟩ := h.span_some hs
  rw [spanOf, spanOf, hs, hs']
  exact ⟨rfl, selects⟩

theorem spans_both {k k' : Span → Span → Build γ} (laid : Node.LaidAll source [n, m])
    (h : Reads source source' n n') (hm : Reads source source' m m')
    (next : ∀ a b a' b', (a.over b).Selects source → Both source g r (k a b) (k' a' b')) :
    Both source g r (do k (← spanOf n) (← spanOf m)) (do k' (← spanOf n') (← spanOf m')) := by
  obtain ⟨a, b, ha, hb, hull⟩ := laid.hull
  obtain ⟨a', ha'⟩ := h.span_some ha
  obtain ⟨b', hb'⟩ := hm.span_some hb
  rw [spanOf, spanOf, spanOf, spanOf, ha, hb, ha', hb']
  exact next a b a' b' hull

theorem textOf_builds (h : n.Laid source) : Builds source (fun _ => True) (textOf source n) := by
  obtain ⟨x, hx⟩ := h.text
  rw [textOf, hx]
  exact trivial

theorem textOf_leaf (h : Scanner.ReadFrom source t) : textOf source (.leaf t) = .ok t.value := by
  obtain ⟨bytes, cut, value⟩ := h
  have text : (Node.leaf t).text? source = some (Utf8.decode bytes) := by
    simp only [Node.text?, Node.start?, Node.stop?, cut, Option.bind_eq_bind, Option.bind_some]
    rfl
  rw [textOf, text, value]
  rfl

theorem text_both (h : Reads source source' (.leaf t) (.leaf t')) :
    Both source id (fun _ => True) (textOf source (.leaf t)) (textOf source' (.leaf t')) := by
  cases h with
  | leaf same text =>
    rw [textOf_leaf (same.reads text), textOf_leaf (same.reads' (same.kind ▸ text)), same.value]
    exact ⟨rfl, trivial⟩

theorem name_eq (h : Reads source source' n n') : n.name = n'.name := by
  cases h with
  | leaf same => exact same.label
  | branch => rfl

theorem refuse_builds (h : n.Laid source) : Builds source q (refuse n problem) :=
  (spanOf_builds h).bind fun _ selects => selects

theorem refuse_stops : Stops (refuse n problem : Build α) :=
  .bind fun _ => rfl

theorem refuse_both (laid : n.Laid source) :
    Both source f q (refuse n problem) (refuse n' problem') :=
  .stops (refuse_builds laid) refuse_stops

theorem refuseText_both (laid : n.Laid source) :
    Both source f q (refuseText source n problem) (refuseText source' n' problem') :=
  .stops ((textOf_builds laid).bind fun _ _ => refuse_builds laid) (.bind fun _ => refuse_stops)

end both

/-- A literal of the language. -/
structure BuiltLiteral (source : Bytes) (l : Literal) : Prop where
  kind : l.kind.Known
  span : l.span.Selects source

theorem literal_both (laid : (Node.leaf t).Laid source)
    (h : Reads source source' (.leaf t) (.leaf t')) :
    Both source Literal.bare (BuiltLiteral source) (literal source (.leaf t))
      (literal source' (.leaf t')) := by
  have name := name_eq h
  refine (spanOf_both laid h).bind fun span span' _ hs => ?_
  refine (text_both h).bind_same fun text _ => ?_
  rw [← name]
  split
  · split
    · exact refuse_both laid
    · split
      · split
        · exact .pure rfl ⟨trivial, hs⟩
        · exact refuse_both laid
      · exact refuse_both laid
  · refine .pure rfl ⟨?_, hs⟩
    split <;> exact trivial
  · exact .pure rfl ⟨trivial, hs⟩
  · exact refuse_both laid

theorem init_both (shape : IsExpr n) (laid : n.Laid source) (h : Reads source source' n n') :
    Both source Literal.bare (BuiltLiteral source) (literal source n) (literal source' n') := by
  have other : ∀ {name : String} {ns ns' : List Node}, (Node.branch name ns).Laid source →
      name ≠ "Number" ∧ name ≠ "Boolean" ∧ name ≠ "None" →
      Both source Literal.bare (BuiltLiteral source) (literal source (.branch name ns))
        (literal source' (.branch name ns')) := by
    intro name ns ns' laid other
    refine .stops ((spanOf_builds laid).bind fun span _ => (textOf_builds laid).bind fun x _ => ?_)
      (.bind fun span => .bind fun text => ?_) <;> dsimp only [Node.name] <;> simp_all
    · exact refuse_builds laid
    · exact refuse_stops
  cases shape with
  | atom =>
    cases h with
    | leaf same text => exact literal_both laid (.leaf same text)
  | _ =>
    cases h with
    | branch => exact other laid (by decide)

theorem leaf_of_name (shape : IsExpr n) (name : n.name = "VariableName" ∨ n.name = "None") :
    ∃ t, n = .leaf t := by
  cases shape with
  | @atom t => exact ⟨t, rfl⟩
  | _ => simp [Node.name] at name

theorem typeDef_both (shape : IsType n) (laid : n.Laid source) (h : Reads source source' n n') :
    Both source id (fun _ => True) (typeDef source n) (typeDef source' n') := by
  cases shape with
  | @mk lead e label =>
    have inner : e.Laid source := laid.parts.laid (by simp)
    rcases h with _ | ⟨_ | ⟨_, _ | ⟨he, _⟩⟩⟩
    have name := name_eq he
    by_cases named : e.name = "VariableName" ∨ e.name = "None"
    · obtain ⟨t, rfl⟩ := leaf_of_name label named
      cases he with
      | leaf same text =>
        refine (text_both (.leaf same text)).bind_same fun x _ => ?_
        rw [← name]
        split
        · exact .pure rfl trivial
        · exact refuse_both inner
    · refine .stops ((textOf_builds inner).bind fun x _ => ?_) (.bind fun x => ?_)
      · simp only [named]
        exact refuse_builds inner
      · simp only [← name, named]
        exact refuse_stops

/-- A known expression at places of the source. -/
abbrev BuiltExpr (source : Bytes) (e : Expr) : Prop := e.All (Typing.Fit (Span.Selects source))

theorem unary_known (h : UnaryOp.ofText? x = some op) : op.Known := by
  unfold UnaryOp.ofText? at h
  split at h <;> cases h <;> exact trivial

theorem binary_known (h : BinaryOp.ofText? x = some op) : op.Known := by
  have mem := List.mem_of_find?_eq_some h
  cases op with
  | other _ => simp [BinaryOp.all] at mem
  | _ => exact trivial

theorem atom_both (kind : Parser.isAtom t.kind = true) (laid : (Node.leaf t).Laid source)
    (h : Reads source source' (.leaf t) (.leaf t')) :
    Both source Expr.bare (BuiltExpr source) (expr source (.leaf t)) (expr source' (.leaf t')) := by
  have literals : Both source Expr.bare (BuiltExpr source)
      (do return .literal (← literal source (.leaf t)))
      (do return .literal (← literal source' (.leaf t'))) :=
    (literal_both laid h).bind fun l l' same built =>
      .pure (by simp only [Expr.bare, same]) ⟨built.kind, built.span⟩
  have same : t'.kind = t.kind := by
    cases h with
    | leaf same => exact same.kind.symm
  cases hk : t.kind with
  | name =>
    simp only [expr, Token.label, same, hk]
    exact (text_both h).bind_same fun x _ => .pure rfl ⟨trivial, laid.token.selects⟩
  | number => simpa only [expr, Token.label, same, hk] using literals
  | string => simpa only [expr, Token.label, same, hk] using literals
  | boolean => simpa only [expr, Token.label, same, hk] using literals
  | noneWord => simpa only [expr, Token.label, same, hk] using literals
  | _ => simp [hk, Parser.isAtom] at kind

theorem comma_name (kind : t.kind = .comma) (h : (Node.leaf t).Laid source) :
    (Node.leaf t).name = "," := by
  have value := h.token.text "," (by rw [kind]; rfl)
  simp [Node.name, Token.label, kind, value]

theorem cons_of_isArgs (h : IsArgs ns) : ∃ m rest, ns = m :: rest := by
  cases h <;> exact ⟨_, _, rfl⟩

mutual

theorem expr_both : {n n' : Node} → IsExpr n → n.Laid source → Reads source source' n n' →
    Both source Expr.bare (BuiltExpr source) (expr source n) (expr source' n')
  | _, _, .atom kind, laid, .leaf same text => atom_both kind laid (.leaf same text)
  | _, _, .paren inner, laid, h => by
    rcases h with _ | ⟨_ | ⟨_, _ | ⟨he, _⟩⟩⟩
    simp only [expr]
    exact expr_both inner (laid.parts.laid (by simp)) he
  | _, _, .unary operand, laid, h => by
    have span := spanOf_both laid h
    rcases h with _ | ⟨_ | ⟨⟨same, text⟩ | _, _ | ⟨he, _ | _⟩⟩⟩
    simp only [expr]
    refine (text_both (.leaf same text)).bind_same fun x _ => ?_
    cases known : UnaryOp.ofText? x with
    | none => exact refuse_both (laid.parts.laid (by simp))
    | some op =>
      refine span.bind fun _ _ _ hs => ?_
      refine (expr_both operand (laid.parts.laid (by simp)) he).bind fun e e' same built => ?_
      exact .pure (by simp only [Expr.bare, same]) ⟨⟨unary_known known, hs⟩, built⟩
  | _, _, .binary lhs rhs, laid, h => by
    have span := spanOf_both laid h
    rcases h with _ | ⟨_ | ⟨hl, _ | ⟨⟨same, text⟩ | _, _ | ⟨hr, _ | _⟩⟩⟩⟩
    simp only [expr]
    refine (text_both (.leaf same text)).bind_same fun x _ => ?_
    cases known : BinaryOp.ofText? x with
    | none => exact refuse_both (laid.parts.laid (by simp))
    | some op =>
      refine span.bind fun _ _ _ hs => ?_
      refine (expr_both lhs (laid.parts.laid (by simp)) hl).bind fun e e' same built => ?_
      refine (expr_both rhs (laid.parts.laid (by simp)) hr).bind fun e e' same' built' => ?_
      exact .pure (by simp only [Expr.bare, same, same']) ⟨⟨binary_known known, hs⟩, built, built'⟩
  | _, _, @IsExpr.call l f args callee items, laid, h => by
    have span := spanOf_both laid h
    have target : f.Laid source := laid.parts.laid (by simp)
    have list : (Node.branch "ArgList" (.leaf l :: args)).Laid source := laid.parts.laid (by simp)
    rcases h with _ | ⟨_ | ⟨hf, _ | ⟨_ | ⟨_ | ⟨_, hargs⟩⟩, _ | _⟩⟩⟩
    simp only [expr, ← name_eq hf]
    split
    · exact refuseText_both target
    · rename_i named
      obtain ⟨t, rfl⟩ := leaf_of_name callee (.inl (not_not.1 named))
      cases hf with
      | leaf same text =>
        refine (text_both (.leaf same text)).bind_same fun x _ => ?_
        refine (arguments_both items list.parts.tail hargs).bind fun es es' same built => ?_
        have length : es.length = es'.length := by
          rw [← length_bareAll es, same, length_bareAll]
        split
        · rw [← length]
          split
          · exact refuse_both laid
          · exact span.bind fun _ _ _ hs => .pure (by simp only [Expr.bare, same])
              ⟨⟨trivial, hs⟩, built⟩
        · exact span.bind fun _ _ _ hs => .pure (by simp only [Expr.bare, same])
            ⟨⟨trivial, hs⟩, built⟩

theorem arguments_both : {ns ns' : List Node} → IsArgs ns → Node.LaidAll source ns →
    ReadsAll source source' ns ns' →
    Both source Expr.bareAll (Expr.AllIn (Typing.Fit (Span.Selects source))) (arguments source ns)
      (arguments source' ns')
  | _, _, .close, _, h => by
    rcases h with _ | ⟨_, _ | _⟩
    exact .pure rfl trivial
  | _, _, .item first others, laid, h => by
    rcases h with _ | ⟨hn, hs⟩
    have tail := arguments_both others laid.tail hs
    obtain ⟨m, rest, rfl⟩ := cons_of_isArgs others
    rcases hs with _ | ⟨hm, hs⟩
    simp only [arguments, ← name_eq hn]
    split
    · exact tail
    · refine (expr_both first (laid.laid (by simp)) hn).bind fun e e' same built => ?_
      exact tail.bind fun es es' same' built' =>
        .pure (by simp only [Expr.bareAll, same, same']) ⟨built, built'⟩
  | _, _, .comma kind others, laid, h => by
    rcases h with _ | ⟨hn, hs⟩
    have tail := arguments_both others laid.tail hs
    obtain ⟨m, rest, rfl⟩ := cons_of_isArgs others
    rcases hs with _ | ⟨hm, hs⟩
    simp only [arguments, ← name_eq hn, comma_name kind (laid.laid (by simp))]
    exact tail

end

abbrev BuiltStmt (source : Bytes) (s : Stmt) : Prop :=
  s.All (Typing.Fit (Span.Selects source)) (Typing.FitStmt (Span.Selects source))

/-- Statements of known nodes at places of the source. -/
abbrev BuiltBlock (source : Bytes) (ss : List Stmt) : Prop :=
  Stmt.AllIn (Typing.Fit (Span.Selects source)) (Typing.FitStmt (Span.Selects source)) ss

/-- The clauses of an if statement: those of `elif`, and that of `else` if there is one. -/
structure BuiltClauses (source : Bytes) (r : List Elif × Option (List Stmt)) : Prop where
  elifs : Stmt.AllInElifs (Typing.Fit (Span.Selects source))
    (Typing.FitStmt (Span.Selects source)) r.1
  spans : ∀ e ∈ r.1, e.span.Selects source
  otherwise : BuiltBlock source (r.2.getD [])

/-- The clauses of an if statement without the places they were read from. -/
def bareClauses (r : List Elif × Option (List Stmt)) : List Elif × Option (List Stmt) :=
  (Stmt.bareElifs r.1, r.2.map Stmt.bareAll)

theorem bareAll_getD (r : List Elif × Option (List Stmt)) :
    bareAll (r.2.getD []) = (bareClauses r).2.getD [] := by
  rcases r with ⟨elifs, _ | body⟩ <;> rfl

theorem stmts_both (laid : Node.LaidAll source ns) (h : ReadsAll source source' ns ns')
    (each : ∀ n ∈ ns, n.Laid source → ∀ n', Reads source source' n n' →
      Both source Stmt.bare (BuiltStmt source) (stmt source n) (stmt source' n')) :
    Both source bareAll (BuiltBlock source) (stmts source ns) (stmts source' ns') := by
  induction ns generalizing ns' with
  | nil =>
    cases h
    exact .pure rfl trivial
  | cons n ns ih =>
    rcases h with _ | ⟨first, others⟩
    refine (each n (by simp) (laid.laid (by simp)) _ first).bind fun s s' same built => ?_
    refine (ih laid.tail others fun m hm => each m (by simp [hm])).bind
      fun ss ss' same' built' => ?_
    exact .pure (by simp only [bareAll, same, same']) ⟨built, built'⟩

theorem keyword_name (kind : t.kind = .keyword word) (h : (Node.leaf t).Laid source) :
    (Node.leaf t).name = word.text := by
  have value := h.token.text word.text (by rw [kind]; rfl)
  simp [Node.name, Token.label, kind, value]

theorem isType_name (h : IsType n) : n.name = "TypeDef" := by
  cases h
  rfl

theorem isVarDecl_branch (name : String) (x typed : Node) (rest : List Node) :
    isVarDecl (.branch name (x :: typed :: rest)) =
      (name == "AssignStatement" && typed.name == "TypeDef") := by
  by_cases assign : name = "AssignStatement"
  · subst assign
    rfl
  · unfold isVarDecl
    split <;> simp_all

theorem isVarDecl_eq (h : Reads source source' n n') : isVarDecl n = isVarDecl n' := by
  rcases h with _ | ⟨_ | ⟨_, _ | ⟨second, _⟩⟩⟩
  · rfl
  · rfl
  · unfold isVarDecl
    split <;> simp_all
  · rw [isVarDecl_branch, isVarDecl_branch, name_eq second]

theorem isVarDecl_assign (kind : t.kind = .assign) (h : (Node.leaf t).Laid source) :
    isVarDecl (.branch "AssignStatement" [x, .leaf t, e]) = false := by
  have value := h.token.text "=" (by rw [kind]; rfl)
  simp [isVarDecl, Node.name, Token.label, kind, value]

theorem isVarDecl_typed (h : IsType type) :
    isVarDecl (.branch "AssignStatement" (x :: type :: rest)) = true := by
  simp [isVarDecl, isType_name h]

mutual

theorem stmt_both : {n n' : Node} → IsStmt n → n.Laid source → Reads source source' n n' →
    Both source Stmt.bare (BuiltStmt source) (stmt source n) (stmt source' n')
  | _, _, .pass, laid, h => by
    have span := spanOf_both laid h
    rcases h with _ | ⟨_⟩
    exact span.bind fun _ _ _ hs => .pure rfl ⟨trivial, hs⟩
  | _, _, .ret, laid, h => by
    have span := spanOf_both laid h
    rcases h with _ | ⟨_ | ⟨_, _ | _⟩⟩
    exact span.bind fun _ _ _ hs => .pure rfl ⟨⟨trivial, hs⟩, trivial, hs⟩
  | _, _, .retValue value, laid, h => by
    have span := spanOf_both laid h
    rcases h with _ | ⟨_ | ⟨_, _ | ⟨he, _ | _⟩⟩⟩
    refine (expr_both value (laid.parts.laid (by simp)) he).bind fun e e' same built => ?_
    exact span.bind fun _ _ _ hs =>
      .pure (by simp only [Stmt.bare, same]) ⟨⟨trivial, hs⟩, built⟩
  | _, _, .expr value, laid, h => by
    have span := spanOf_both laid h
    rcases h with _ | ⟨_ | ⟨he, _ | _⟩⟩
    refine span.bind fun _ _ _ hs => ?_
    exact (expr_both value (laid.parts.laid (by simp)) he).bind fun e e' same built =>
      .pure (by simp only [Stmt.bare, same]) ⟨⟨trivial, hs⟩, built⟩
  | _, _, @IsStmt.assign sign x e kind target value, laid, h => by
    have span := spanOf_both laid h
    have decl := isVarDecl_eq h
    have left : x.Laid source := laid.parts.laid (by simp)
    rcases h with _ | ⟨_ | ⟨hx, _ | ⟨_, _ | ⟨he, _ | _⟩⟩⟩⟩
    simp only [stmt, ← decl, ← name_eq hx, isVarDecl_assign kind (laid.parts.laid (by simp)),
      Bool.false_eq_true, if_false]
    split
    · exact refuseText_both left
    · rename_i named
      obtain ⟨t, rfl⟩ := leaf_of_name target (.inl (not_not.1 named))
      cases hx with
      | leaf same text =>
        refine span.bind fun _ _ _ hs => (text_both (.leaf same text)).bind_same fun x _ => ?_
        exact (expr_both value (laid.parts.laid (by simp)) he).bind fun e e' same built =>
          .pure (by simp only [Stmt.bare, same]) ⟨⟨trivial, hs⟩, built⟩
  | _, _, .declare _ annotated, laid, h => by
    have decl := isVarDecl_eq h
    rcases h with _ | ⟨parts⟩
    simp only [stmt, ← decl, isVarDecl_typed annotated]
    exact refuse_both laid
  | _, _, .init _ annotated _, laid, h => by
    have decl := isVarDecl_eq h
    rcases h with _ | ⟨parts⟩
    simp only [stmt, ← decl, isVarDecl_typed annotated]
    exact refuse_both laid
  | _, _, .func _ _ _, laid, h => by
    rcases h with _ | ⟨parts⟩
    exact refuse_both laid
  | _, _, @IsStmt.cond word colon c block rest test body others, laid, h => by
    have span := spanOf_both laid h
    have inner : (bodyNode colon block).Laid source := laid.parts.laid (by simp)
    rcases h with _ | ⟨_ | ⟨_, _ | ⟨hc, _ | ⟨_ | ⟨_ | ⟨_, inside⟩⟩, clauses⟩⟩⟩⟩
    refine span.bind fun _ _ _ hs => ?_
    refine (expr_both test (laid.parts.laid (by simp)) hc).bind fun e e' same built => ?_
    refine (stmts_both inner.parts.tail inside fun s mem laid s' => stmt_both (body s mem) laid).bind
      fun ss ss' same' built' => ?_
    refine (clauses_both others laid.parts.tail.tail.tail clauses).bind
      fun r r' same'' built'' => ?_
    have elifs : bareElifs r.1 = bareElifs r'.1 := congrArg Prod.fst same''
    exact .pure (by simp only [Stmt.bare, same, same', elifs, bareAll_getD, same''])
      ⟨⟨trivial, hs, built''.spans⟩, built, built', built''.elifs, built''.otherwise⟩
  | _, _, @IsStmt.while word colon c block test body, laid, h => by
    have span := spanOf_both laid h
    have inner : (bodyNode colon block).Laid source := laid.parts.laid (by simp)
    rcases h with _ | ⟨_ | ⟨_, _ | ⟨hc, _ | ⟨_ | ⟨_ | ⟨_, inside⟩⟩, _ | _⟩⟩⟩⟩
    refine span.bind fun _ _ _ hs => ?_
    refine (expr_both test (laid.parts.laid (by simp)) hc).bind fun e e' same built => ?_
    refine (stmts_both inner.parts.tail inside fun s mem laid s' => stmt_both (body s mem) laid).bind
      fun ss ss' same' built' => ?_
    exact .pure (by simp only [Stmt.bare, same, same']) ⟨⟨trivial, hs⟩, built, built'⟩

theorem clauses_both : {ns ns' : List Node} → IsClauses ns → Node.LaidAll source ns →
    ReadsAll source source' ns ns' →
    Both source bareClauses (BuiltClauses source) (clauses source ns) (clauses source' ns')
  | _, _, .none, _, h => by
    rcases h with _ | _
    exact .pure rfl ⟨trivial, by simp, trivial⟩
  | _, _, @IsClauses.elif word colon c block rest kind test body others, laid, h => by
    have inner : (bodyNode colon block).Laid source := laid.laid (by simp)
    rcases h with _ | ⟨hw, _ | ⟨hc, _ | ⟨hb, hrest⟩⟩⟩
    have name := keyword_name kind (laid.laid (by simp))
    have ends : Node.LaidAll source [.leaf word, bodyNode colon block] := laid.sublist (by simp)
    have both := hb
    rcases hb with _ | ⟨_ | ⟨_, inside⟩⟩
    simp only [clauses, bodyNode, ← name_eq hw, name]
    refine spans_both ends hw both fun _ _ _ _ hull => ?_
    refine (expr_both test (laid.laid (by simp)) hc).bind fun e e' same built => ?_
    refine (stmts_both inner.parts.tail inside fun s mem laid s' => stmt_both (body s mem) laid).bind
      fun ss ss' same' built' => ?_
    refine (clauses_both others laid.tail.tail.tail hrest).bind fun r r' same'' built'' => ?_
    have elifs : bareElifs r.1 = bareElifs r'.1 := congrArg Prod.fst same''
    have otherwise : r.2.map bareAll = r'.2.map bareAll := congrArg Prod.snd same''
    refine .pure (by simp only [bareClauses, bareElifs, same, same', elifs, otherwise])
      ⟨⟨built, built', built''.elifs⟩, fun e' mem => ?_, built''.otherwise⟩
    rcases List.mem_cons.1 mem with rfl | mem
    · exact hull
    · exact built''.spans e' mem
  | _, _, @IsClauses.otherwise word colon block kind body, laid, h => by
    have inner : (bodyNode colon block).Laid source := laid.laid (by simp)
    rcases h with _ | ⟨hw, _ | ⟨_ | ⟨_ | ⟨_, inside⟩⟩, _ | _⟩⟩
    have name := keyword_name kind (laid.laid (by simp))
    simp only [clauses, bodyNode, ← name_eq hw, name]
    refine (stmts_both inner.parts.tail inside fun s mem laid s' => stmt_both (body s mem) laid).bind
      fun ss ss' same built => ?_
    exact .pure (by simp [bareClauses, same])
      ⟨trivial, by simp, built⟩

end

/-- A declaration of the language at places of the source. -/
structure BuiltVar (source : Bytes) (v : VarDecl) : Prop where
  known : v.Known
  spanned : v.Spanned (Span.Selects source)

theorem varDecl_both (shape : IsStmt n) (decl : isVarDecl n = true) (laid : n.Laid source)
    (h : Reads source source' n n') :
    Both source VarDecl.bare (BuiltVar source) (varDecl source n) (varDecl source' n') := by
  have span := spanOf_both laid h
  cases shape with
  | @declare x type target annotated =>
    have left : x.Laid source := laid.parts.laid (by simp)
    rcases h with _ | ⟨_ | ⟨hx, _ | ⟨ht, _ | _⟩⟩⟩
    have typed := typeDef_both annotated (laid.parts.laid (by simp)) ht
    simp only [varDecl, ← name_eq hx]
    split
    · exact refuseText_both left
    · exact .stops ((textOf_builds left).bind fun _ _ => typed.builds.bind fun _ _ =>
        refuse_builds laid) (.bind fun _ => .bind fun _ => refuse_stops)
  | @init sign x type e target annotated value =>
    have left : x.Laid source := laid.parts.laid (by simp)
    rcases h with _ | ⟨_ | ⟨hx, _ | ⟨ht, _ | ⟨_, _ | ⟨he, _ | _⟩⟩⟩⟩⟩
    simp only [varDecl, ← name_eq hx]
    split
    · exact refuseText_both left
    · rename_i named
      obtain ⟨t, rfl⟩ := leaf_of_name target (.inl (not_not.1 named))
      cases hx with
      | leaf same text =>
        refine (text_both (.leaf same text)).bind_same fun x _ => ?_
        refine (typeDef_both annotated (laid.parts.laid (by simp)) ht).bind_same fun ty _ => ?_
        refine span.bind fun _ _ _ hs => ?_
        refine (init_both value (laid.parts.laid (by simp)) he).bind fun l l' same built => ?_
        exact .pure (by simp only [VarDecl.bare, same]) ⟨⟨rfl, built.kind⟩, hs, built.span⟩
  | assign kind _ _ =>
    rw [isVarDecl_assign kind (laid.parts.laid (by simp))] at decl
    cases decl
  | _ => cases decl

/-- Parameters of the language at places of the source. -/
def BuiltParams (source : Bytes) (ps : List Param) : Prop :=
  ∀ a ∈ ps, a.type.isSome ∧ a.span.Selects source

theorem untyped_next (shape : IsParams (n :: ns)) (laid : Node.LaidAll source (n :: ns)) :
    n.name ≠ "TypeDef" := by
  cases shape with
  | comma kind =>
    rw [comma_name kind (laid.laid (by simp))]
    decide
  | bare kind => simp [Node.name, Token.label, kind]
  | typed kind => simp [Node.name, Token.label, kind]

theorem params_both (shape : IsParams ns) (laid : Node.LaidAll source ns)
    (h : ReadsAll source source' ns ns') :
    Both source (List.map Param.bare) (BuiltParams source) (params source ns)
      (params source' ns') := by
  induction shape generalizing ns' with
  | nil =>
    cases h
    exact .pure rfl fun _ => nofun
  | @comma t rest kind _ ih =>
    rcases h with _ | ⟨hn, hs⟩
    simp only [params, ← name_eq hn, comma_name kind (laid.laid (by simp))]
    exact ih laid.tail hs
  | @bare t rest kind others ih =>
    have first : (Node.leaf t).Laid source := laid.laid (by simp)
    rcases h with _ | ⟨hn, hs⟩
    have name : (Node.leaf t).name = "VariableName" := by simp [Node.name, Token.label, kind]
    have untyped (x : String) :
        Builds source (fun _ : List Param => False) (refuse (.leaf t) (.untypedParam x)) :=
      refuse_builds first
    have refused := (textOf_builds first).bind fun x _ => untyped x
    cases hs with
    | nil =>
      simp only [params, ← name_eq hn, name]
      exact .stops refused (.bind fun _ => refuse_stops)
    | cons hm hs =>
      simp only [params, ← name_eq hn, name, ← name_eq hm, untyped_next others laid.tail, ne_eq,
        ]
      exact .stops refused (.bind fun _ => refuse_stops)
  | @typed t type rest kind annotated _ ih =>
    rcases h with _ | ⟨⟨same, text⟩ | _, _ | ⟨ht, hs⟩⟩
    have name : (Node.leaf t).name = "VariableName" := by simp [Node.name, Token.label, kind]
    have ends : Node.LaidAll source [.leaf t, type] := laid.sublist (by simp)
    simp only [params, ← name_eq (.leaf same text : Reads source source' _ _), name, ← name_eq ht,
      isType_name annotated]
    refine (text_both (.leaf same text)).bind_same fun x _ => ?_
    refine spans_both ends (.leaf same text) ht fun _ _ _ _ hull => ?_
    refine (typeDef_both annotated (laid.laid (by simp)) ht).bind_same fun ty _ => ?_
    refine (ih laid.tail.tail hs).bind fun ps ps' same' built => ?_
    refine .pure (by simp [Param.bare, same']) fun a mem => ?_
    rcases List.mem_cons.1 mem with rfl | mem
    · exact ⟨rfl, hull⟩
    · exact built a mem

theorem plainStmts_both (shape : ∀ n ∈ ns, IsStmt n)
    (decl : ∀ n n', Reads source source' n n' → isDecl n = isDecl n')
    (laid : Node.LaidAll source ns) (h : ReadsAll source source' ns ns') :
    Both source bareAll (BuiltBlock source) (plainStmts source isDecl ns)
      (plainStmts source' isDecl ns') := by
  induction ns generalizing ns' with
  | nil =>
    cases h
    exact .pure rfl trivial
  | cons n ns ih =>
    have front : n.Laid source := laid.laid (by simp)
    rcases h with _ | ⟨first, others⟩
    rw [plainStmts, plainStmts, ← decl _ _ first]
    split
    · exact refuse_both front
    · refine (stmt_both (shape n (by simp)) front first).bind fun s s' same built => ?_
      refine (ih (fun m hm => shape m (by simp [hm])) laid.tail others).bind
        fun ss ss' same' built' => ?_
      exact .pure (by simp only [bareAll, same, same']) ⟨built, built'⟩

/-- Local variables and statements without the places they were read from. -/
def bareBody (r : List VarDecl × List Stmt) : List VarDecl × List Stmt :=
  (r.1.map VarDecl.bare, Stmt.bareAll r.2)

/-- Local variables and statements of known nodes at places of the source. -/
structure BuiltBody (source : Bytes) (r : List VarDecl × List Stmt) : Prop where
  vars : ∀ v ∈ r.1, BuiltVar source v
  stmts : BuiltBlock source r.2

theorem funcBody_both (shape : ∀ n ∈ ns, IsStmt n) (laid : Node.LaidAll source ns)
    (h : ReadsAll source source' ns ns') :
    Both source bareBody (BuiltBody source) (funcBody source ns) (funcBody source' ns') := by
  induction ns generalizing ns' with
  | nil =>
    cases h
    exact .pure rfl ⟨by simp, trivial⟩
  | cons n ns ih =>
    have plain := plainStmts_both shape (fun _ _ => isVarDecl_eq) laid h
    rcases h with _ | ⟨first, others⟩
    rw [funcBody, funcBody, ← isVarDecl_eq first]
    split
    · rename_i decl
      refine (varDecl_both (shape n (by simp)) decl (laid.laid (by simp)) first).bind
        fun v v' same built => ?_
      refine (ih (fun m hm => shape m (by simp [hm])) laid.tail others).bind
        fun r r' same' built' => ?_
      have vars : r.1.map VarDecl.bare = r'.1.map VarDecl.bare := congrArg Prod.fst same'
      have body : bareAll r.2 = bareAll r'.2 := congrArg Prod.snd same'
      exact .pure (by simp [bareBody, same, vars, body])
        ⟨List.forall_mem_cons.2 ⟨built, built'.vars⟩, built'.stmts⟩
    · exact plain.bind fun ss ss' same built =>
        .pure (by simp only [bareBody, same]) ⟨by simp, built⟩

/-- A function of known nodes at places of the source. -/
structure BuiltFunc (source : Bytes) (f : FuncDef) : Prop where
  known : f.Known
  spanned : f.Spanned (Span.Selects source)

theorem known_of_built (h : BuiltBlock source ss) : AllIn Expr.KnownNode Stmt.KnownNode ss :=
  AllIn.imp (fun _ he => he.1) (fun _ hs => hs.1) ss h

theorem spanned_of_built (h : BuiltBlock source ss) : Stmt.SpannedIn (Span.Selects source) ss :=
  AllIn.imp (fun _ he => he.2) (fun _ hs => hs.2) ss h

theorem funcDef_both (shape : IsStmt n) (name : n.name = "FunctionDefinition")
    (laid : n.Laid source) (h : Reads source source' n n') :
    Both source FuncDef.bare (BuiltFunc source) (funcDef source n) (funcDef source' n') := by
  have span := spanOf_both laid h
  cases shape with
  | @func word f l r colon ps block returns items typed body =>
    have whole := laid.parts
    have list : (Node.branch "ParamList" (.leaf l :: (ps ++ [.leaf r]))).Laid source :=
      whole.laid (by simp)
    have inner : (bodyNode colon block).Laid source := whole.laid (by simp)
    rcases h with _ | ⟨_ | ⟨_, _ | ⟨⟨same, text⟩ | _, _ | ⟨_ | ⟨_ | ⟨_, hps⟩⟩, hrest⟩⟩⟩⟩
    obtain ⟨ps', _, rfl, listed, hr⟩ := hps.split
    rcases hr with _ | ⟨_, _ | _⟩
    have between (l r : Node) (ps : List Node) : ((l :: (ps ++ [r])).drop 1).dropLast = ps := by simp
    refine span.bind fun place place' _ hs => ?_
    simp only [Node.content, between]
    refine (text_both (.leaf same text)).bind_same fun x _ => ?_
    refine (params_both items (list.parts.tail.sublist (List.sublist_append_left ps _))
      listed).bind fun params params' same hp => ?_
    have made {block' : List Node} (type : Ty) (inside : ReadsAll source source' block block') :
        Both source FuncDef.bare (BuiltFunc source) 
          (funcBody source block >>= fun r => pure ⟨place, x, params, some type, r.1, r.2⟩)
          (funcBody source' block' >>= fun r => pure ⟨place', x, params', some type, r.1, r.2⟩) := by
      refine (funcBody_both body inner.parts.tail inside).bind fun r r' same' built => ?_
      obtain ⟨vars, stmts⟩ := Prod.mk.inj same'
      refine .pure (by simp only [FuncDef.bare, same, vars, stmts]) ⟨?_, ?_⟩
      · exact ⟨fun a ha => (hp a ha).1, rfl, fun v hv => (built.vars v hv).known,
          known_of_built built.stmts⟩
      · exact ⟨hs, fun a ha => (hp a ha).2, fun v hv => (built.vars v hv).spanned,
          spanned_of_built built.stmts⟩
    cases returns with
    | none =>
      rcases hrest with _ | ⟨_ | ⟨_ | ⟨_, inside⟩⟩, _ | _⟩
      exact made .unit inside
    | some type =>
      rcases hrest with _ | ⟨ht, _ | ⟨_ | ⟨_ | ⟨_, inside⟩⟩, _ | _⟩⟩
      have annotated := typed type rfl
      simp only [Option.toList_some, List.singleton_append, ← name_eq ht, isType_name annotated]
      refine (typeDef_both annotated (whole.laid (by simp)) ht).bind_same fun ty _ => ?_
      exact made ty inside
  | _ => simp [Node.name] at name

theorem isDeclaration_eq (h : Reads source source' n n') : isDeclaration n = isDeclaration n' := by
  rw [isDeclaration, isDeclaration, isVarDecl_eq h, name_eq h]

/-- A program of known nodes at places of the source. -/
structure BuiltProgram (source : Bytes) (p : Program) : Prop where
  known : p.Known
  spanned : p.Spanned (Span.Selects source)

theorem program_both (shape : ∀ n ∈ ns, IsStmt n) (laid : Node.LaidAll source ns)
    (h : ReadsAll source source' ns ns') :
    Both source Program.bare (BuiltProgram source) (program source ns) (program source' ns') := by
  induction ns generalizing ns' with
  | nil =>
    cases h
    exact .pure rfl ⟨⟨by simp, by simp, trivial⟩, by simp, by simp, trivial⟩
  | cons n ns ih =>
    have front : n.Laid source := laid.laid (by simp)
    have plain := plainStmts_both shape (fun _ _ => isDeclaration_eq) laid h
    rcases h with _ | ⟨first, others⟩
    have tail := ih (fun m hm => shape m (by simp [hm])) laid.tail others
    unfold program
    rw [← isVarDecl_eq first, ← name_eq first]
    split
    · rename_i decl
      refine (varDecl_both (shape n (by simp)) decl front first).bind fun v v' same hv => ?_
      refine tail.bind fun p p' same' hp => ?_
      obtain ⟨vars, funcs, stmts⟩ := Program.mk.inj same'
      refine .pure (by simp [Program.bare, same, vars, funcs, stmts])
        ⟨⟨?_, hp.known.funcs, hp.known.stmts⟩, ?_, hp.spanned.funcs, hp.spanned.stmts⟩
      · exact List.forall_mem_cons.2 ⟨hv.known, hp.known.vars⟩
      · exact List.forall_mem_cons.2 ⟨hv.spanned, hp.spanned.vars⟩
    · split
      · rename_i name
        have func := funcDef_both (shape n (by simp)) name front first
        cases first with
        | @leaf t _ _ _ => cases shape (.leaf t) (by simp)
        | branch parts =>
          refine func.bind fun f f' same hf => tail.bind fun p p' same' hp => ?_
          obtain ⟨vars, funcs, stmts⟩ := Program.mk.inj same'
          refine .pure (by simp only [Program.bare, List.map_cons, same, vars, funcs, stmts])
            ⟨⟨hp.known.vars, ?_, hp.known.stmts⟩, hp.spanned.vars, ?_, hp.spanned.stmts⟩
          · exact List.forall_mem_cons.2 ⟨hf.known, hp.known.funcs⟩
          · exact List.forall_mem_cons.2 ⟨hf.spanned, hp.spanned.funcs⟩
      · exact plain.bind fun ss ss' same built => .pure (by simp only [Program.bare, same])
          ⟨⟨by simp, by simp, known_of_built built⟩, by simp, by simp, spanned_of_built built⟩

end Builder

/-- The program of a source without the places it was read from, if there is one. -/
def Program.ofSource? (source : Bytes) : Option Program :=
  ((Tree.parse source).toOption.bind fun tree => (Program.ofTree tree).toOption).map Program.bare

section sources

variable {source source' : Bytes} {tree : Tree}

theorem ofTree_both (h : Tree.parse source = .ok tree)
    (same : ScansAlike (scan source).tokens (scan source').tokens
      (scan source).fault (scan source').fault) :
    ∃ tree', Tree.parse source' = .ok tree' ∧
      Builder.Both source Program.bare (Builder.BuiltProgram source) (Program.ofTree tree)
        (Program.ofTree tree') := by
  obtain ⟨root', read, alike⟩ := parse_alike h same
  refine ⟨⟨root', source'⟩, read, ?_⟩
  have laid := Tree.laid_of_parse h
  obtain ⟨here, -, ss, root, shape⟩ := Tree.shape_of_parse h
  rw [root] at alike laid
  rcases alike with _ | ⟨parts⟩
  rw [Program.ofTree, here, root]
  exact Builder.program_both shape laid parts

theorem Program.ofTree_builds (h : Tree.parse source = .ok tree) :
    Safe (Span.Selects source) (Builder.BuiltProgram source) (Program.ofTree tree) := by
  obtain ⟨tree', -, both⟩ := ofTree_both h (.refl _ _)
  exact both.builds

theorem ofSource_alike
    (same : ScansAlike (scan source).tokens (scan source').tokens
      (scan source).fault (scan source').fault) :
    Program.ofSource? source = Program.ofSource? source' := by
  unfold Program.ofSource?
  cases read : Tree.parse source with
  | ok tree =>
    obtain ⟨tree', read', both⟩ := ofTree_both read same
    simpa [read', Except.toOption] using both.same
  | error e =>
    cases read' : Tree.parse source' with
    | error e' => rfl
    | ok tree' =>
      obtain ⟨tree, read'', -⟩ := ofTree_both read' same.symm
      cases read.symm.trans read''

end sources

end WordScript
