import WordScript.Proofs.ParseComplete

/-! The shapes of trees.

What each production makes of the nodes of its parts is stated once for each production. A tree that
is read from tokens has these shapes throughout, and its leaves are the tokens that are not layout. -/
namespace WordScript
namespace Grammar
open Deriv (nodes yield)

open Token (Kind)
open Deriv (leftGrouped callGrouped shape)

mutual

/-- The nodes of expressions. -/
inductive IsExpr : Node → Prop
  | atom {t : Token} (kind : Parser.isAtom t.kind = true) : IsExpr (.leaf t)
  | paren {l r : Token} {e : Node} (inner : IsExpr e) :
      IsExpr (.branch "ParenthesizedExpression" [.leaf l, e, .leaf r])
  | unary {op : Token} {e : Node} (operand : IsExpr e) :
      IsExpr (.branch "UnaryExpression" [.leaf op, e])
  | binary {op : Token} {l r : Node} (lhs : IsExpr l) (rhs : IsExpr r) :
      IsExpr (.branch "BinaryExpression" [l, .leaf op, r])
  | call {l : Token} {f : Node} {args : List Node} (callee : IsExpr f) (items : IsArgs args) :
      IsExpr (.branch "CallExpression" [f, .branch "ArgList" (.leaf l :: args)])

/-- The nodes of a list of arguments after its opening parenthesis. -/
inductive IsArgs : List Node → Prop
  | close {r : Token} : IsArgs [.leaf r]
  | item {e : Node} {rest : List Node} (first : IsExpr e) (others : IsArgs rest) :
      IsArgs (e :: rest)
  | comma {t : Token} {rest : List Node} (kind : t.kind = .comma) (others : IsArgs rest) :
      IsArgs (.leaf t :: rest)

end

/-- The nodes of type annotations. -/
inductive IsType : Node → Prop
  | mk {lead : Token} {e : Node} (label : IsExpr e) : IsType (.branch "TypeDef" [.leaf lead, e])

/-- The nodes of a list of parameters between its parentheses. -/
inductive IsParams : List Node → Prop
  | nil : IsParams []
  | bare {t : Token} {rest : List Node} (kind : t.kind = .name) (others : IsParams rest) :
      IsParams (.leaf t :: rest)
  | typed {t : Token} {type : Node} {rest : List Node} (kind : t.kind = .name)
      (annotated : IsType type) (others : IsParams rest) : IsParams (.leaf t :: type :: rest)
  | comma {t : Token} {rest : List Node} (kind : t.kind = .comma) (others : IsParams rest) :
      IsParams (.leaf t :: rest)

def bodyNode (colon : Token) (block : List Node) : Node := .branch "Body" (.leaf colon :: block)

mutual

/-- The nodes of statements. -/
inductive IsStmt : Node → Prop
  | pass {word : Token} : IsStmt (.branch "PassStatement" [.leaf word])
  | ret {word : Token} : IsStmt (.branch "ReturnStatement" [.leaf word])
  | retValue {word : Token} {e : Node} (value : IsExpr e) :
      IsStmt (.branch "ReturnStatement" [.leaf word, e])
  | expr {e : Node} (value : IsExpr e) : IsStmt (.branch "ExpressionStatement" [e])
  | assign {sign : Token} {x e : Node} (kind : sign.kind = .assign) (target : IsExpr x)
      (value : IsExpr e) : IsStmt (.branch "AssignStatement" [x, .leaf sign, e])
  | declare {x type : Node} (target : IsExpr x) (annotated : IsType type) :
      IsStmt (.branch "AssignStatement" [x, type])
  | init {sign : Token} {x type e : Node} (target : IsExpr x) (annotated : IsType type)
      (value : IsExpr e) : IsStmt (.branch "AssignStatement" [x, type, .leaf sign, e])
  | func {word name l r colon : Token} {params block : List Node} {returns : Option Node}
      (items : IsParams params) (typed : ∀ type ∈ returns, IsType type)
      (body : ∀ s ∈ block, IsStmt s) :
      IsStmt (.branch "FunctionDefinition" (.leaf word :: .leaf name ::
        .branch "ParamList" (.leaf l :: (params ++ [.leaf r])) ::
        (returns.toList ++ [bodyNode colon block])))
  | cond {word colon : Token} {c : Node} {block clauses : List Node} (test : IsExpr c)
      (body : ∀ s ∈ block, IsStmt s) (others : IsClauses clauses) :
      IsStmt (.branch "IfStatement" (.leaf word :: c :: bodyNode colon block :: clauses))
  | while {word colon : Token} {c : Node} {block : List Node} (test : IsExpr c)
      (body : ∀ s ∈ block, IsStmt s) :
      IsStmt (.branch "WhileStatement" [.leaf word, c, bodyNode colon block])

/-- The nodes of the `elif` and `else` clauses of a statement. -/
inductive IsClauses : List Node → Prop
  | none : IsClauses []
  | elif {word colon : Token} {c : Node} {block rest : List Node}
      (kind : word.kind = .keyword .elifWord) (test : IsExpr c) (body : ∀ s ∈ block, IsStmt s)
      (others : IsClauses rest) : IsClauses (.leaf word :: c :: bodyNode colon block :: rest)
  | otherwise {word colon : Token} {block : List Node} (kind : word.kind = .keyword .elseWord)
      (body : ∀ s ∈ block, IsStmt s) : IsClauses [.leaf word, bodyNode colon block]

end

def Makes : Symbol → List Node → Prop
  | .file, ns => ∃ ss, ns = [.branch "Script" ss] ∧ ∀ s ∈ ss, IsStmt s
  | .stmt, ns | .compoundStmt, ns | .simpleStmt, ns | .exprOrAssignStmt, ns | .funcDef, ns
  | .ifStmt, ns | .whileStmt, ns => ∃ s, ns = [s] ∧ IsStmt s
  | .typeDef, ns => ∃ type, ns = [type] ∧ IsType type
  | .paramList, ns => ∃ l params r, ns = [.branch "ParamList" (.leaf l :: (params ++ [.leaf r]))] ∧
      IsParams params
  | .param, ns => ∀ rest, IsParams rest → IsParams (ns ++ rest)
  | .body, ns => ∃ colon block, ns = [bodyNode colon block] ∧ ∀ s ∈ block, IsStmt s
  | .compOp, ns => ∃ t, ns = [.leaf t]
  | .argList, ns => ∃ l args, ns = [.branch "ArgList" (.leaf l :: args)] ∧ IsArgs args
  | .expr, ns | .orExpr, ns | .andExpr, ns | .notExpr, ns | .comparison, ns | .arithExpr, ns
  | .term, ns | .factor, ns | .power, ns | .primary, ns | .atom, ns => ∃ e, ns = [e] ∧ IsExpr e

/-- The nodes that an expression over the productions can have, given those of the productions. -/
def Formed : Ebnf → List Node → Prop
  | .token k, ns => bif k.isLayout then ns = [] else ∃ t, t.kind = k ∧ ns = [.leaf t]
  | .rule s, ns => Makes s ns
  | .seq a b, ns => ∃ ms ls, Formed a ms ∧ Formed b ls ∧ ns = ms ++ ls
  | .alt a b, ns => Formed a ns ∨ Formed b ns
  | .opt a, ns => ns = [] ∨ Formed a ns
  | .many a, ns => ∃ parts : List (List Node), (∀ p ∈ parts, Formed a p) ∧ ns = parts.flatten

/-- What a production makes of the nodes of its parts: its shape, with the same leaves. -/
def Shapes (s : Symbol) (ns : List Node) : Prop :=
  Makes s (shape s ns) ∧ Node.leavesOf (shape s ns) = Node.leavesOf ns

theorem leavesOf_append (ms ns : List Node) :
    Node.leavesOf (ms ++ ns) = Node.leavesOf ms ++ Node.leavesOf ns := by
  induction ms with
  | nil => rfl
  | cons m ms ih => simp [Node.leavesOf, ih]

section productions

variable {ns : List Node}
variable {parts : List (List Node)} {s : Symbol} {rest : List Node}

theorem leftGrouped_shapes (hl : IsExpr lhs) (h : ∀ p ∈ parts, ∃ t e, p = [.leaf t, e] ∧ IsExpr e) :
    IsExpr (leftGrouped lhs parts.flatten) ∧
      (leftGrouped lhs parts.flatten).leaves = lhs.leaves ++ Node.leavesOf parts.flatten := by
  induction parts generalizing lhs with
  | nil => exact ⟨hl, by simp [leftGrouped, Node.leavesOf]⟩
  | cons p parts ih =>
    obtain ⟨t, e, rfl, he⟩ := h p (by simp)
    have grouped : IsExpr (.branch "BinaryExpression" [lhs, .leaf t, e]) := .binary hl he
    obtain ⟨isExpr, leaves⟩ := ih grouped fun q hq => h q (by simp [hq])
    refine ⟨isExpr, leaves.trans ?_⟩
    simp [Node.leaves, Node.leavesOf]

theorem level_shapes (grouped : ∀ n ns, shape s (n :: ns) = [leftGrouped n ns])
    (makes : ∀ e, IsExpr e → Makes s [e]) (sign : ∀ {ns}, Formed op ns → ∃ t, ns = [.leaf t])
    (side : ∀ {ns}, Formed operand ns → ∃ e, ns = [e] ∧ IsExpr e)
    (h : Formed (operand ++ .many (op ++ operand)) ns) : Shapes s ns := by
  obtain ⟨_, _, first, ⟨parts, others, rfl⟩, rfl⟩ := h
  obtain ⟨lhs, rfl, hl⟩ := side first
  have pairs : ∀ p ∈ parts, ∃ t e, p = [.leaf t, e] ∧ IsExpr e := by
    intro p hp
    obtain ⟨_, _, ho, he, rfl⟩ := others p hp
    obtain ⟨t, rfl⟩ := sign ho
    obtain ⟨e, rfl, he'⟩ := side he
    exact ⟨t, e, rfl, he'⟩
  obtain ⟨isExpr, leaves⟩ := leftGrouped_shapes hl pairs
  rw [Shapes, List.singleton_append, grouped]
  exact ⟨makes _ isExpr, by simp [Node.leavesOf, leaves]⟩

theorem callGrouped_shapes (hf : IsExpr f) (h : ∀ p ∈ parts, Makes .argList p) :
    IsExpr (callGrouped f parts.flatten) ∧
      (callGrouped f parts.flatten).leaves = f.leaves ++ Node.leavesOf parts.flatten := by
  induction parts generalizing f with
  | nil => exact ⟨hf, by simp [callGrouped, Node.leavesOf]⟩
  | cons p parts ih =>
    obtain ⟨l, args, rfl, items⟩ := h p (by simp)
    have call : IsExpr (.branch "CallExpression" [f, .branch "ArgList" (.leaf l :: args)]) :=
      .call hf items
    obtain ⟨isExpr, leaves⟩ := ih call fun q hq => h q (by simp [hq])
    refine ⟨isExpr, leaves.trans ?_⟩
    simp [Node.leaves, Node.leavesOf]

theorem IsArgs.append (h : ∀ p ∈ parts, Formed (.token .comma ++ .rule .expr) p)
    (others : IsArgs rest) : IsArgs (parts.flatten ++ rest) := by
  induction parts with
  | nil => exact others
  | cons p parts ih =>
    obtain ⟨_, _, ⟨t, kind, rfl⟩, ⟨e, rfl, he⟩, rfl⟩ := h p (by simp)
    simp only [List.flatten_cons, List.cons_append, List.nil_append]
    exact .comma kind (.item he (ih fun q hq => h q (by simp [hq])))

theorem IsParams.append (h : ∀ p ∈ parts, Formed (.token .comma ++ .rule .param) p)
    (others : IsParams rest) : IsParams (parts.flatten ++ rest) := by
  induction parts with
  | nil => exact others
  | cons p parts ih =>
    obtain ⟨_, _, ⟨t, kind, rfl⟩, hp, rfl⟩ := h p (by simp)
    simp only [List.flatten_cons, List.append_assoc, List.cons_append]
    exact .comma kind (hp _ (ih fun q hq => h q (by simp [hq])))

theorem argList_shapes (h : Formed (productions .argList) ns) : Shapes .argList ns := by
  obtain ⟨_, _, ⟨_, items, ⟨l, -, rfl⟩, hi, rfl⟩, ⟨r, -, rfl⟩, rfl⟩ := h
  refine ⟨⟨l, items ++ [.leaf r], rfl, ?_⟩, by simp [shape, Node.leavesOf, Node.leaves]⟩
  rcases hi with rfl | ⟨_, _, ⟨_, _, ⟨e, rfl, he⟩, ⟨parts, hp, rfl⟩, rfl⟩, last, rfl⟩
  · exact .close
  · simp only [List.append_assoc, List.singleton_append]
    refine .item he (.append hp ?_)
    rcases last with rfl | ⟨t, kind, rfl⟩
    · exact .close
    · exact .comma kind .close

theorem paramList_shapes (h : Formed (productions .paramList) ns) : Shapes .paramList ns := by
  obtain ⟨_, _, ⟨_, items, ⟨l, -, rfl⟩, hi, rfl⟩, ⟨r, -, rfl⟩, rfl⟩ := h
  refine ⟨⟨l, items, r, rfl, ?_⟩, by simp [shape, Node.leavesOf, Node.leaves]⟩
  rcases hi with rfl | ⟨_, _, ⟨_, _, first, ⟨parts, hp, rfl⟩, rfl⟩, last, rfl⟩
  · exact .nil
  · rw [List.append_assoc]
    refine first _ (.append hp ?_)
    rcases last with rfl | ⟨t, kind, rfl⟩
    · exact .nil
    · exact .comma kind .nil

theorem param_shapes (h : Formed (productions .param) ns) : Shapes .param ns := by
  obtain ⟨_, _, ⟨t, kind, rfl⟩, rfl | ⟨type, rfl, annotated⟩, rfl⟩ := h
  · exact ⟨fun rest others => .bare kind others, rfl⟩
  · exact ⟨fun rest others => .typed kind annotated others, rfl⟩

theorem typeDef_shapes (h : Formed (productions .typeDef) ns) : Shapes .typeDef ns := by
  obtain ⟨_, _, ⟨t, -, rfl⟩, ⟨e, rfl, he⟩, rfl⟩ := h
  exact ⟨⟨_, rfl, .mk he⟩, by simp [shape, Node.leavesOf, Node.leaves]⟩

theorem exprOrAssign_shapes (h : Formed (productions .exprOrAssignStmt) ns) :
    Shapes .exprOrAssignStmt ns := by
  obtain ⟨_, _, ⟨_, _, ⟨x, rfl, hx⟩, ht, rfl⟩, hv, rfl⟩ := h
  rcases ht with rfl | ⟨type, rfl, ht⟩ <;>
    rcases hv with rfl | ⟨_, _, ⟨sign, kind, rfl⟩, ⟨e, rfl, he⟩, rfl⟩
  · exact ⟨⟨_, rfl, .expr hx⟩, by simp [shape, Node.leavesOf, Node.leaves]⟩
  · exact ⟨⟨_, rfl, .assign kind hx he⟩, by simp [shape, Node.leavesOf, Node.leaves]⟩
  · exact ⟨⟨_, rfl, .declare hx ht⟩, by simp [shape, Node.leavesOf, Node.leaves]⟩
  · exact ⟨⟨_, rfl, .init hx ht he⟩, by simp [shape, Node.leavesOf, Node.leaves]⟩

theorem simpleStmt_shapes (h : Formed (productions .simpleStmt) ns) : Shapes .simpleStmt ns := by
  obtain (⟨t, kind, rfl⟩ | ⟨_, _, ⟨t, kind, rfl⟩, rfl | ⟨e, rfl, he⟩, rfl⟩) | ⟨s, rfl, hs⟩ := h
  · have made : shape .simpleStmt [.leaf t] = [.branch "PassStatement" [.leaf t]] := by
      simp [shape, kind]
    exact ⟨⟨_, made, .pass⟩, by rw [made]; simp [Node.leavesOf, Node.leaves]⟩
  · have made : shape .simpleStmt [.leaf t] = [.branch "ReturnStatement" [.leaf t]] := by
      simp [shape, kind]
    exact ⟨⟨_, made, .ret⟩, by rw [List.append_nil, made]; simp [Node.leavesOf, Node.leaves]⟩
  · have made : shape .simpleStmt [.leaf t, e] = [.branch "ReturnStatement" [.leaf t, e]] := by
      simp [shape, kind]
    exact ⟨⟨_, made, .retValue he⟩,
      by rw [List.singleton_append, made]; simp [Node.leavesOf, Node.leaves]⟩
  · have same : shape .simpleStmt [s] = [s] := by cases hs <;> rfl
    rw [Shapes, same]
    exact ⟨⟨s, rfl, hs⟩, rfl⟩

theorem body_shapes (h : Formed (productions .body) ns) : Shapes .body ns := by
  obtain ⟨_, _, ⟨colon, -, rfl⟩, line | block, rfl⟩ := h
  · obtain ⟨_, _, ⟨s, rfl, hs⟩, rfl, rfl⟩ := line
    refine ⟨⟨colon, [s], rfl, by simpa using hs⟩, by simp [shape, Node.leavesOf, Node.leaves]⟩
  · obtain ⟨_, _, ⟨_, _, ⟨_, _, ⟨_, _, rfl, rfl, rfl⟩, ⟨s, rfl, hs⟩, rfl⟩, ⟨parts, hp, rfl⟩, rfl⟩,
      rfl, rfl⟩ := block
    refine ⟨⟨colon, s :: parts.flatten, by simp [shape, bodyNode], ?_⟩,
      by simp [shape, Node.leavesOf, Node.leaves]⟩
    intro n hn
    rcases List.mem_cons.1 hn with rfl | hn
    · exact hs
    · obtain ⟨p, hp', hn⟩ := List.mem_flatten.1 hn
      obtain ⟨m, rfl, hm⟩ := hp p hp'
      rw [List.mem_singleton.1 hn]
      exact hm

theorem funcDef_shapes (h : Formed (productions .funcDef) ns) : Shapes .funcDef ns := by
  obtain ⟨_, _, ⟨_, _, ⟨_, _, ⟨_, _, ⟨word, -, rfl⟩, ⟨name, -, rfl⟩, rfl⟩, ⟨l, params, r, rfl, hp⟩,
    rfl⟩, ht, rfl⟩, ⟨colon, block, rfl, hb⟩, rfl⟩ := h
  rcases ht with rfl | ⟨_, _, ⟨arrow, -, rfl⟩, ⟨e, rfl, he⟩, rfl⟩
  · exact ⟨⟨_, rfl, @IsStmt.func word name l r colon params block none hp nofun hb⟩,
      by simp [shape, Node.leavesOf, Node.leaves]⟩
  · have typed : ∀ type ∈ some (Node.branch "TypeDef" [.leaf arrow, e]), IsType type := by
      rintro _ ⟨⟩
      exact .mk he
    exact ⟨⟨_, rfl, @IsStmt.func word name l r colon params block _ hp typed hb⟩,
      by simp [shape, Node.leavesOf, Node.leaves]⟩

theorem IsClauses.append
    (h : ∀ p ∈ parts, Formed (.token (.keyword .elifWord) ++ .rule .expr ++ .rule .body) p)
    (others : IsClauses rest) : IsClauses (parts.flatten ++ rest) := by
  induction parts with
  | nil => exact others
  | cons p parts ih =>
    obtain ⟨_, _, ⟨_, _, ⟨word, kind, rfl⟩, ⟨c, rfl, hc⟩, rfl⟩, ⟨colon, block, rfl, hb⟩, rfl⟩ :=
      h p (by simp)
    exact .elif kind hc hb (ih fun q hq => h q (by simp [hq]))

theorem ifStmt_shapes (h : Formed (productions .ifStmt) ns) : Shapes .ifStmt ns := by
  obtain ⟨_, last, ⟨_, _, ⟨_, _, ⟨_, _, ⟨word, -, rfl⟩, ⟨c, rfl, hc⟩, rfl⟩,
    ⟨colon, block, rfl, hb⟩, rfl⟩, ⟨parts, hp, rfl⟩, rfl⟩, ho, rfl⟩ := h
  have clauses : IsClauses (parts.flatten ++ last) := by
    refine .append hp ?_
    rcases ho with rfl | ⟨_, _, ⟨word, kind, rfl⟩, ⟨colon, block, rfl, hb⟩, rfl⟩
    · exact .none
    · exact .otherwise kind hb
  exact ⟨⟨_, by simp [shape], @IsStmt.cond word colon c block _ hc hb clauses⟩,
    by simp [shape, Node.leavesOf, Node.leaves]⟩

theorem whileStmt_shapes (h : Formed (productions .whileStmt) ns) : Shapes .whileStmt ns := by
  obtain ⟨_, _, ⟨_, _, ⟨word, -, rfl⟩, ⟨c, rfl, hc⟩, rfl⟩, ⟨colon, block, rfl, hb⟩, rfl⟩ := h
  exact ⟨⟨_, rfl, .while hc hb⟩, by simp [shape, Node.leavesOf, Node.leaves]⟩

theorem unary_shapes (ho : op = .leaf t) (he : IsExpr e)
    (unary : shape s [op, e] = [.branch "UnaryExpression" [op, e]])
    (makes : ∀ e, IsExpr e → Makes s [e]) : Shapes s [op, e] := by
  subst ho
  rw [Shapes, unary]
  exact ⟨makes _ (.unary he), by simp [Node.leavesOf, Node.leaves]⟩

theorem same_shapes (same : shape s ns = ns) (makes : Makes s ns) : Shapes s ns := by
  rw [Shapes, same]
  exact ⟨makes, rfl⟩

theorem notExpr_shapes (h : Formed (productions .notExpr) ns) : Shapes .notExpr ns := by
  obtain ⟨_, _, ⟨t, -, rfl⟩, ⟨e, rfl, he⟩, rfl⟩ | ⟨e, rfl, he⟩ := h
  · exact unary_shapes rfl he rfl fun e he => ⟨e, rfl, he⟩
  · exact same_shapes rfl ⟨e, rfl, he⟩

theorem factor_shapes (h : Formed (productions .factor) ns) : Shapes .factor ns := by
  obtain ⟨_, _, ⟨t, -, rfl⟩ | ⟨t, -, rfl⟩, ⟨e, rfl, he⟩, rfl⟩ | ⟨e, rfl, he⟩ := h
  · exact unary_shapes rfl he rfl fun e he => ⟨e, rfl, he⟩
  · exact unary_shapes rfl he rfl fun e he => ⟨e, rfl, he⟩
  · exact same_shapes rfl ⟨e, rfl, he⟩

theorem power_shapes (h : Formed (productions .power) ns) : Shapes .power ns := by
  obtain ⟨_, _, ⟨base, rfl, hb⟩, rfl | ⟨_, _, ⟨t, -, rfl⟩, ⟨e, rfl, he⟩, rfl⟩, rfl⟩ := h
  · exact ⟨⟨base, rfl, hb⟩, rfl⟩
  · exact ⟨⟨_, rfl, .binary hb he⟩, by simp [shape, leftGrouped, Node.leavesOf, Node.leaves]⟩

theorem primary_shapes (h : Formed (productions .primary) ns) : Shapes .primary ns := by
  obtain ⟨_, _, ⟨f, rfl, hf⟩, ⟨parts, hp, rfl⟩, rfl⟩ := h
  obtain ⟨isExpr, leaves⟩ := callGrouped_shapes hf hp
  exact ⟨⟨_, rfl, isExpr⟩, by simp [shape, Node.leavesOf, leaves]⟩

theorem atom_shapes (h : Formed (productions .atom) ns) : Shapes .atom ns := by
  obtain ((((⟨t, kind, rfl⟩ | ⟨t, kind, rfl⟩) | ⟨t, kind, rfl⟩) | ⟨t, kind, rfl⟩) |
    ⟨t, kind, rfl⟩) | ⟨_, _, ⟨_, _, ⟨l, -, rfl⟩, ⟨e, rfl, he⟩, rfl⟩, ⟨r, -, rfl⟩, rfl⟩ := h
  iterate 5 exact same_shapes rfl ⟨_, rfl, .atom (by simp [kind, Parser.isAtom])⟩
  exact ⟨⟨_, rfl, .paren he⟩, by simp [shape, Node.leavesOf, Node.leaves]⟩

theorem compOp_formed (h : Formed (productions .compOp) ns) : ∃ t, ns = [.leaf t] := by
  obtain (((((⟨t, -, rfl⟩ | ⟨t, -, rfl⟩) | ⟨t, -, rfl⟩) | ⟨t, -, rfl⟩) | ⟨t, -, rfl⟩) |
    ⟨t, -, rfl⟩) | ⟨t, -, rfl⟩ := h
  all_goals exact ⟨t, rfl⟩

theorem file_shapes (h : Formed (productions .file) ns) : Shapes .file ns := by
  obtain ⟨_, _, ⟨parts, hp, rfl⟩, rfl, rfl⟩ := h
  refine ⟨⟨parts.flatten, by simp [shape], fun n hn => ?_⟩,
    by simp [shape, Node.leavesOf, Node.leaves]⟩
  obtain ⟨p, hp', hn⟩ := List.mem_flatten.1 hn
  obtain ⟨m, rfl, hm⟩ := hp p hp'
  rw [List.mem_singleton.1 hn]
  exact hm

theorem shapes (s : Symbol) (h : Formed (productions s) ns) : Shapes s ns := by
  have makes : ∀ e, IsExpr e → ∃ e', [e] = [e'] ∧ IsExpr e' := fun e he => ⟨e, rfl, he⟩
  cases s with
  | file => exact file_shapes h
  | stmt =>
    rcases h with ⟨s, rfl, hs⟩ | ⟨_, _, ⟨s, rfl, hs⟩, rfl, rfl⟩
    · exact same_shapes rfl ⟨s, rfl, hs⟩
    · exact same_shapes rfl ⟨s, rfl, hs⟩
  | compoundStmt =>
    obtain (⟨s, rfl, hs⟩ | ⟨s, rfl, hs⟩) | ⟨s, rfl, hs⟩ := h
    all_goals exact same_shapes rfl ⟨s, rfl, hs⟩
  | simpleStmt => exact simpleStmt_shapes h
  | exprOrAssignStmt => exact exprOrAssign_shapes h
  | typeDef => exact typeDef_shapes h
  | funcDef => exact funcDef_shapes h
  | paramList => exact paramList_shapes h
  | param => exact param_shapes h
  | body => exact body_shapes h
  | ifStmt => exact ifStmt_shapes h
  | whileStmt => exact whileStmt_shapes h
  | expr => exact same_shapes rfl h
  | orExpr =>
    refine level_shapes (fun _ _ => rfl) makes ?_ id h
    rintro ns ⟨t, -, rfl⟩
    exact ⟨t, rfl⟩
  | andExpr =>
    refine level_shapes (fun _ _ => rfl) makes ?_ id h
    rintro ns ⟨t, -, rfl⟩
    exact ⟨t, rfl⟩
  | notExpr => exact notExpr_shapes h
  | comparison => exact level_shapes (fun _ _ => rfl) makes id id h
  | compOp => exact same_shapes rfl (compOp_formed h)
  | arithExpr =>
    refine level_shapes (fun _ _ => rfl) makes ?_ id h
    rintro ns (⟨t, -, rfl⟩ | ⟨t, -, rfl⟩)
    all_goals exact ⟨t, rfl⟩
  | term =>
    refine level_shapes (fun _ _ => rfl) makes ?_ id h
    rintro ns (((⟨t, -, rfl⟩ | ⟨t, -, rfl⟩) | ⟨t, -, rfl⟩) | ⟨t, -, rfl⟩)
    all_goals exact ⟨t, rfl⟩
  | factor => exact factor_shapes h
  | power => exact power_shapes h
  | primary => exact primary_shapes h
  | argList => exact argList_shapes h
  | atom => exact atom_shapes h

end productions

def texts (ts : List Token) : List Token := ts.filter (!·.kind.isLayout)

/-- What is derived has the shapes of its productions, and its leaves are the tokens that are not
layout. -/
theorem Derives.formed (h : Derives productions e d) :
    Formed e d.nodes ∧ Node.leavesOf d.nodes = texts d.yield := by
  induction h with
  | @token k t kind =>
    subst kind
    cases hk : t.kind.isLayout <;>
      simp [Formed, nodes, yield, texts, hk, Node.leavesOf, Node.leaves]
  | rule _ ih => exact ⟨(shapes _ ih.1).1, (shapes _ ih.1).2.trans ih.2⟩
  | seq _ _ iha ihb =>
    refine ⟨⟨_, _, iha.1, ihb.1, rfl⟩, ?_⟩
    simp [nodes, yield, leavesOf_append, iha.2, ihb.2, texts]
  | left _ ih => exact ⟨.inl ih.1, ih.2⟩
  | right _ ih => exact ⟨.inr ih.1, ih.2⟩
  | absent => exact ⟨.inl rfl, rfl⟩
  | present _ ih => exact ⟨.inr ih.1, ih.2⟩
  | done => exact ⟨⟨[], by simp, rfl⟩, rfl⟩
  | @more a x y _ _ iha ihb =>
    obtain ⟨parts, hp, same⟩ := ihb.1
    refine ⟨⟨x.nodes :: parts, ?_, by simp [nodes, same]⟩, ?_⟩
    · intro p hp'
      rcases List.mem_cons.1 hp' with rfl | hp'
      · exact iha.1
      · exact hp p hp'
    · simp [nodes, yield, leavesOf_append, iha.2, ihb.2, texts]

end Grammar

open Grammar in
/-- A tree that is read is made of statements, and its leaves are the tokens of the source that are
not layout. -/
theorem Tree.shape_of_parse {source : Bytes} (h : Tree.parse source = .ok tree) :
    tree.source = source ∧ tree.root.leaves = texts (Scanner.scan source).tokens ∧
      ∃ ss, tree.root = .branch "Script" ss ∧ ∀ s ∈ ss, IsStmt s := by
  obtain ⟨d, hs, hd⟩ := derives_of_parse h
  obtain ⟨n, hn, run⟩ := parse_of_derives hs hd
  rw [h] at run
  cases run
  obtain ⟨⟨ss, same, hss⟩, leaves⟩ := hd.formed
  rw [hn] at same leaves
  obtain ⟨rfl, -⟩ := List.cons.inj same
  refine ⟨rfl, ?_, ss, rfl, hss⟩
  rw [Scanner.scan_tokens hs, ← leaves]
  simp [Node.leavesOf]

end WordScript
