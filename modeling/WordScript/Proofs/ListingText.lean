import WordScript.Program.Listing
import WordScript.Proofs.SourceText

/-! The text of a listing.

A listing is a text of nested groups: a group for each declaration, statement and clause, and one
for each call and operator. Each is closed at the end of its last line, so the parentheses of the
text are balanced and reading the text finds the groups again. -/
namespace WordScript

def Scope.Known : Scope → Prop
  | .other _ => False
  | _ => True

/-- A literal of the language. Only an integer has a value. -/
def Literal.Listed (l : Literal) : Prop := l.kind.Known ∧ (l.kind ≠ .int → l.value = 0)

def Expr.Listed : Expr → Prop
  | .literal l => l.Listed
  | .name _ _ x s => IsPlainName x ∧ s.Known
  | .call _ _ f _ => IsPlainName f
  | .binary _ _ op _ _ => op.Known
  | .unary _ _ op _ => op.Known
  | .unknown _ _ => False

def Stmt.Listed : Stmt → Prop
  | .assign _ x s _ => IsPlainName x ∧ s.Known
  | .unknown _ => False
  | _ => True

def VarDecl.Listed (v : VarDecl) : Prop := IsPlainName v.name ∧ v.init.Listed

structure FuncDef.Listed (f : FuncDef) : Prop where
  name : IsPlainName f.name
  params : ∀ a ∈ f.params, IsPlainName a.name
  locals : ∀ v ∈ f.locals, v.Listed
  body : Stmt.AllIn Expr.Listed Stmt.Listed f.body

/-- A program of known nodes, operators and scopes whose names can stand in a source. -/
structure Program.Listed (p : Program) : Prop where
  vars : ∀ v ∈ p.vars, v.Listed
  funcs : ∀ f ∈ p.funcs, f.Listed
  stmts : Stmt.AllIn Expr.Listed Stmt.Listed p.stmts

namespace Listing

open Sexpr (Spells isWord)

/-- Every parenthesis that is opened is closed, innermost first. -/
inductive Balanced : List Char → Prop
  | nil : Balanced []
  | plain {c : Char} {rest : List Char} (opening : c ≠ '(') (closing : c ≠ ')')
      (h : Balanced rest) : Balanced (c :: rest)
  | group {inner rest : List Char} (hi : Balanced inner) (h : Balanced rest) :
      Balanced ('(' :: inner ++ ')' :: rest)

theorem Balanced.append (hx : Balanced xs) (hy : Balanced ys) : Balanced (xs ++ ys) := by
  induction hx with
  | nil => exact hy
  | plain opening closing _ ih => exact .plain opening closing ih
  | group hi _ _ ih => simpa using hi.group ih

theorem Balanced.separate (h : ∀ c ∈ xs, c ≠ '(' ∧ c ≠ ')') : Balanced xs := by
  induction xs with
  | nil => exact .nil
  | cons c rest ih =>
    obtain ⟨⟨opening, closing⟩, others⟩ := List.forall_mem_cons.1 h
    exact .plain opening closing (ih others)

theorem Balanced.tail (h : Balanced (c :: xs)) (opening : c ≠ '(') : Balanced xs := by
  generalize text : c :: xs = cs at h
  cases h with
  | nil => cases text
  | plain _ _ h =>
    obtain ⟨-, rfl⟩ := List.cons.inj text
    exact h
  | group _ _ => exact absurd (List.cons.inj text).1 opening

/-- A balanced text that is read as the forms. -/
structure Groups (text : String) (forms : List Sexpr) : Prop where
  spells : Spells text forms
  balanced : Balanced text.toList

def word (x : String) : Sexpr := .atom (Utf8.encode x)

def group (w : String) (items : List Sexpr) : Sexpr := .list (word w :: items)

variable {a b w inner : String} {fs gs items : List Sexpr}

theorem balanced_word (hw : isWord w = true) : Balanced w.toList := by
  refine .separate fun c mem => ?_
  have plain : ∀ c ∈ w.toList, c ∉ Sexpr.separators := by
    simpa [isWord] using (Bool.and_eq_true_iff.1 hw).2
  constructor <;> rintro rfl <;> exact plain _ mem (by decide)

namespace Groups

theorem nil : Groups "" [] := ⟨.nil, .nil⟩

theorem append (ha : Groups a fs) (hb : Groups b gs) : Groups (a ++ b) (fs ++ gs) :=
  ⟨ha.spells.append hb.spells, by simpa using ha.balanced.append hb.balanced⟩

theorem congr (ha : Groups a fs) (text : b.toList = a.toList) (forms : gs = fs) : Groups b gs := by
  rw [String.toList_injective text, forms]
  exact ha

theorem blanks (h : ∀ c ∈ a.toList, c = ' ' ∨ c = '\n') : Groups a [] := by
  refine ⟨.blanks h, .separate fun c mem => ?_⟩
  rcases h c mem with rfl | rfl <;> decide

theorem blank : Groups " " [] := blanks (by simp)

theorem one (hw : isWord w = true) : Groups (" " ++ w) [word w] :=
  ⟨.word hw, by simpa using (balanced_word hw).plain (c := ' ') (by decide) (by decide)⟩

theorem parens (hw : isWord w = true) (h : Groups inner items) :
    Groups ("(" ++ w ++ inner ++ ")") [group w items] :=
  ⟨.list hw h.spells, by simpa using ((balanced_word hw).append h.balanced).group .nil⟩

theorem empty : Groups "()" [.list []] := by
  refine ⟨fun r items outer hat => ?_, Balanced.nil.group .nil⟩
  obtain ⟨q, _, opens, -, hat⟩ := hat.opening
  obtain ⟨u, closes, -, hat⟩ := hat.closing
  refine ⟨u, ?_, hat⟩
  change (r.step 40 >>= fun q => q.step 41 >>= fun u => .ok u) = _
  rw [opens]
  change (q.step 41 >>= _) = _
  rw [closes]
  rfl

end Groups

def suffixForms : Option Ty → List Sexpr
  | some t => [word (":" ++ t.name)]
  | none => []

mutual

/-- The forms of an expression: a word or a group, and the type after a group. -/
def exprForms : Expr → List Sexpr
  | .literal l => [word (literal l)]
  | .name _ t x s => [word (x ++ scopeSuffix s ++ typeSuffix t)]
  | .call _ t f args => group "call" (word f :: argForms args) :: suffixForms t
  | .binary _ t op lhs rhs =>
    group (op.text?.getD "") (exprForms lhs ++ exprForms rhs) :: suffixForms t
  | .unary _ t op e => group (op.text?.getD "") (exprForms e) :: suffixForms t
  | .unknown _ t => suffixForms t

def argForms : List Expr → List Sexpr
  | [] => []
  | e :: rest => exprForms e ++ argForms rest

end

theorem isWord_of_isPlainName (h : IsPlainName x) : isWord x = true := by
  have chars := isNameChar_of_mem h.1
  have filled := ne_empty_of_isIdentifier h.1
  simp only [isWord, Bool.and_eq_true, bne_iff_ne, List.all_eq_true, Bool.not_eq_true',
    List.contains_eq_mem, decide_eq_false_iff_not]
  refine ⟨filled, fun c mem separator => ?_⟩
  have char := chars c mem
  rw [isNameChar_separator separator] at char
  cases char

theorem isWord_typeSuffix (hw : isWord w = true) (t : Option Ty) :
    isWord (w ++ typeSuffix t) = true := by
  refine StackCode.isWord_append hw ?_
  rcases t with _ | _ | _ | _ <;> simp [typeSuffix, Ty.name, Sexpr.separators]

theorem isWord_scopeSuffix (hw : isWord w = true) (s : Scope) :
    isWord (w ++ scopeSuffix s) = true := by
  refine StackCode.isWord_append hw ?_
  cases s <;> simp [scopeSuffix, Sexpr.separators]

theorem isWord_literal (h : l.Listed) : isWord (literal l) = true := by
  refine isWord_typeSuffix ?_ l.type
  cases kind : l.kind with
  | int =>
    rw [literalText, kind]
    exact StackCode.isWord_toString l.value
  | other code =>
    rw [Literal.Listed, kind] at h
    exact h.1.elim
  | _ => simp [literalText, kind, isWord, Sexpr.separators]

theorem Groups.typed (hw : isWord w = true) (h : Groups inner items) (t : Option Ty) :
    Groups (" (" ++ w ++ inner ++ ")" ++ typeSuffix t) (group w items :: suffixForms t) := by
  cases t with
  | none => exact (blank.append (parens hw h)).congr (by simp [typeSuffix]) rfl
  | some t =>
    have label : isWord (":" ++ t.name) = true := by cases t <;> decide
    have labelled : Groups ("(" ++ w ++ inner ++ ")" ++ (":" ++ t.name))
        [group w items, word (":" ++ t.name)] :=
      ⟨.list_word hw h.spells label, by simpa using (parens hw h).balanced.append (balanced_word label)⟩
    exact (blank.append labelled).congr (by simp [typeSuffix]) rfl

mutual

theorem expr_groups : (e : Expr) → e.All Expr.Listed →
    ∃ text, expr e = some text ∧ Groups (" " ++ text) (exprForms e)
  | .literal l, h => ⟨_, rfl, .one (isWord_literal h)⟩
  | .name _ t x s, h =>
    ⟨_, rfl, .one (isWord_typeSuffix (isWord_scopeSuffix (isWord_of_isPlainName h.1) s) t)⟩
  | .call _ t f args, h => by
    obtain ⟨text, listed, groups⟩ := arguments_groups args h.2
    refine ⟨_, by simp only [expr, listed]; rfl, ?_⟩
    refine (((Groups.one (isWord_of_isPlainName h.1)).append groups).typed
      (w := "call") (by decide) t).congr (by simp) rfl
  | .binary _ t op lhs rhs, h => by
    obtain ⟨w, named, hw⟩ : ∃ w, op.text? = some w ∧ isWord w = true := by
      cases op <;> first | exact h.1.elim | exact ⟨_, rfl, by decide⟩
    obtain ⟨left, listed, groups⟩ := expr_groups lhs h.2.1
    obtain ⟨right, listed', groups'⟩ := expr_groups rhs h.2.2
    refine ⟨_, by simp only [expr, named, listed, listed']; rfl, ?_⟩
    exact ((groups.append groups').typed hw t).congr (by simp) (by simp [exprForms, named])
  | .unary _ t op e, h => by
    obtain ⟨w, named, hw⟩ : ∃ w, op.text? = some w ∧ isWord w = true := by
      cases op <;> first | exact h.1.elim | exact ⟨_, rfl, by decide⟩
    obtain ⟨text, listed, groups⟩ := expr_groups e h.2
    refine ⟨_, by simp only [expr, named, listed]; rfl, ?_⟩
    exact (groups.typed hw t).congr (by simp) (by simp [exprForms, named])

theorem arguments_groups : (es : List Expr) → Expr.AllIn Expr.Listed es →
    ∃ text, arguments es = some text ∧ Groups text (argForms es)
  | [], _ => ⟨"", rfl, .nil⟩
  | e :: rest, h => by
    obtain ⟨first, listed, groups⟩ := expr_groups e h.1
    obtain ⟨others, listed', groups'⟩ := arguments_groups rest h.2
    exact ⟨_, by simp only [arguments, listed, listed']; rfl,
      (groups.append groups').congr (by simp) rfl⟩

end

/-- Lines as they stand in a text behind what comes before them. -/
def linesText (lines : List String) : String := String.join (lines.map ("\n" ++ ·))

theorem linesText_append (xs ys : List String) :
    linesText (xs ++ ys) = linesText xs ++ linesText ys := by
  simp [linesText]

theorem linesText_close (l : String) (lines : List String) :
    linesText (close (l :: lines)) = linesText (l :: lines) ++ ")" := by
  induction lines generalizing l with
  | nil => simp [close, linesText, String.append_assoc]
  | cons m rest ih =>
    have first (ls : List String) : linesText (l :: ls) = "\n" ++ l ++ linesText ls := by
      simp [linesText]
    rw [close, first, first, ih, ← String.append_assoc]
    exact List.cons_ne_nil m rest

theorem line_zero (text : String) : line 0 text = text := by simp [line]

variable {text : String} {lines : List String}

theorem Groups.line (level : Nat) (h : Groups a fs) (ht : text.toList = a.toList) :
    Groups (linesText [line level text]) fs := by
  have margin : Groups ("\n" ++ String.join (List.replicate level "  ")) [] := by
    refine blanks ?_
    simp [forall_and]
  exact (margin.append h).congr (by simp [linesText, Listing.line, ht]) rfl

theorem Groups.closed (level : Nat) (hw : isWord w = true) (hh : Groups a fs)
    (h : Groups (linesText lines) gs) (ht : text.toList = ("(" ++ w ++ a).toList) :
    Groups (linesText (close (Listing.line level text :: lines))) [group w (fs ++ gs)] := by
  refine ((parens hw (hh.append h)).line level rfl).congr ?_ rfl
  rw [linesText_close]
  simp [linesText, Listing.line, ht]

mutual

def stmtForm : Stmt → Sexpr
  | .pass _ => group "pass" []
  | .assign _ x s e => group "assign" (word (x ++ scopeSuffix s) :: exprForms e)
  | .expr _ e => group "expr" (exprForms e)
  | .ret _ e => group "return" (exprForms e)
  | .while _ c body =>
    group "while" (exprForms c ++ if body.isEmpty then [.list []] else stmtForms body)
  | .cond _ c body clauses otherwise =>
    group "if" (exprForms c ++ ((if body.isEmpty then [.list []] else stmtForms body) ++
      (elifForms clauses ++
        if otherwise.isEmpty then [] else [group "else" (stmtForms otherwise)])))
  | .unknown _ => .list []

def stmtForms : List Stmt → List Sexpr
  | [] => []
  | s :: rest => stmtForm s :: stmtForms rest

def elifForms : List Elif → List Sexpr
  | [] => []
  | .mk _ c body :: rest =>
    group "elif" (exprForms c ++ if body.isEmpty then [.list []] else stmtForms body)
      :: elifForms rest

end

def blockForms (body : List Stmt) : List Sexpr :=
  if body.isEmpty then [.list []] else stmtForms body

/-- The lines of a statement make up its group. -/
def Laid (lines : Option (List String)) (forms : List Sexpr) : Prop :=
  ∃ ls, lines = some ls ∧ Groups (linesText ls) forms

theorem Laid.orEmpty {lines : Option (List String)} (level : Nat) (body : List Stmt)
    (h : Laid lines (stmtForms body)) :
    Laid (orEmpty level body.isEmpty <$> lines) (blockForms body) := by
  obtain ⟨ls, rfl, groups⟩ := h
  refine ⟨_, rfl, ?_⟩
  rw [Listing.orEmpty, blockForms]
  split
  · exact .line level .empty rfl
  · exact groups

mutual

theorem stmt_laid (level : Nat) : (s : Stmt) → s.All Expr.Listed Stmt.Listed →
    Laid (stmt level s) [stmtForm s]
  | .pass _, _ => ⟨_, rfl, .line level (.parens (w := "pass") (by decide) .nil) rfl⟩
  | .assign _ x s e, h => by
    obtain ⟨text, listed, groups⟩ := expr_groups e h.2
    have target := Groups.one (isWord_scopeSuffix (isWord_of_isPlainName h.1.1) s)
    refine ⟨_, by simp only [stmt, listed]; rfl, ?_⟩
    exact (Groups.parens (w := "assign") (by decide) (target.append groups)).line level (by simp)
  | .expr _ e, h => by
    obtain ⟨text, listed, groups⟩ := expr_groups e h.2
    refine ⟨_, by simp only [stmt, listed]; rfl, ?_⟩
    exact (Groups.parens (w := "expr") (by decide) groups).line level (by simp)
  | .ret _ e, h => by
    obtain ⟨text, listed, groups⟩ := expr_groups e h.2
    refine ⟨_, by simp only [stmt, listed]; rfl, ?_⟩
    exact (Groups.parens (w := "return") (by decide) groups).line level (by simp)
  | .while _ c body, h => by
    obtain ⟨text, listed, groups⟩ := expr_groups c h.2.1
    obtain ⟨ls, lists, inner⟩ := (stmts_laid (level + 1) body h.2.2).orEmpty (level + 1) body
    refine ⟨_, by simp only [stmt, listed, lists]; rfl, ?_⟩
    exact .closed level (w := "while") (by decide) groups inner (by simp)
  | .cond _ c body clauses otherwise, h => by
    obtain ⟨text, listed, groups⟩ := expr_groups c h.2.1
    obtain ⟨ls, lists, inner⟩ := (stmts_laid (level + 1) body h.2.2.1).orEmpty (level + 1) body
    obtain ⟨ms, lists', tests⟩ := elifs_laid (level + 1) clauses h.2.2.2.1
    obtain ⟨os, lists'', last⟩ := stmts_laid (level + 2) otherwise h.2.2.2.2
    refine ⟨_, by simp only [stmt, listed, lists, lists', lists'']; rfl, ?_⟩
    refine .closed level (w := "if") (by decide) groups ?_ (by simp)
    rw [linesText_append, linesText_append, String.append_assoc]
    refine inner.append (tests.append ?_)
    split
    · exact .nil
    · exact .closed (level + 1) (w := "else") (by decide) .nil last (by simp)
  | .unknown _, h => h.elim

theorem stmts_laid (level : Nat) : (ss : List Stmt) → Stmt.AllIn Expr.Listed Stmt.Listed ss →
    Laid (stmts level ss) (stmtForms ss)
  | [], _ => ⟨[], rfl, .nil⟩
  | s :: rest, h => by
    obtain ⟨ls, lists, groups⟩ := stmt_laid level s h.1
    obtain ⟨ms, lists', groups'⟩ := stmts_laid level rest h.2
    refine ⟨_, by simp only [stmts, lists, lists']; rfl, ?_⟩
    rw [linesText_append]
    exact groups.append groups'

theorem elifs_laid (level : Nat) : (cs : List Elif) → Stmt.AllInElifs Expr.Listed Stmt.Listed cs →
    Laid (elifs level cs) (elifForms cs)
  | [], _ => ⟨[], rfl, .nil⟩
  | .mk _ c body :: rest, h => by
    obtain ⟨text, listed, groups⟩ := expr_groups c h.1
    obtain ⟨ls, lists, inner⟩ := (stmts_laid (level + 1) body h.2.1).orEmpty (level + 1) body
    obtain ⟨ms, lists', others⟩ := elifs_laid level rest h.2.2
    refine ⟨_, by simp only [elifs, elif, listed, lists, lists']; rfl, ?_⟩
    rw [linesText_append]
    exact (Groups.closed level (w := "elif") (by decide) groups inner (by simp)).append others

end

def varForm (v : VarDecl) : Sexpr :=
  group "var" [word v.name, word (typeName v.type), word (literal v.init)]

def funcForm (f : FuncDef) : Sexpr :=
  group "def" (word f.name :: .list (f.params.map fun a => word (a.name ++ ":" ++ typeName a.type))
    :: word (typeName f.returns) :: (f.locals.map varForm ++ blockForms f.body))

def programForms (p : Program) : List Sexpr :=
  p.vars.map varForm ++ p.funcs.map funcForm ++ stmtForms p.stmts

theorem isWord_typeName (t : Option Ty) : isWord (typeName t) = true := by
  rcases t with _ | _ | _ | _ <;> decide

theorem varDecl_groups (h : v.Listed) : Groups (varDecl v) [varForm v] := by
  have inner := ((Groups.one (isWord_of_isPlainName h.1)).append
    (.one (isWord_typeName v.type))).append (.one (isWord_literal h.2))
  exact (Groups.parens (w := "var") (by decide) inner).congr (by simp [varDecl]) rfl

theorem varDecls_groups (level : Nat) {vs : List VarDecl} (h : ∀ v ∈ vs, v.Listed) :
    Groups (linesText (vs.map fun v => line level (varDecl v))) (vs.map varForm) := by
  induction vs with
  | nil => exact .nil
  | cons v rest ih =>
    obtain ⟨first, others⟩ := List.forall_mem_cons.1 h
    rw [List.map_cons, ← List.singleton_append, linesText_append]
    exact ((varDecl_groups first).line level rfl).append (ih others)

theorem groups_words (h : ∀ w ∈ ws, isWord w = true) (filled : ws ≠ []) :
    Groups (" " ++ " ".intercalate ws) (ws.map word) := by
  induction ws with
  | nil => exact absurd rfl filled
  | cons w rest ih =>
    obtain ⟨first, others⟩ := List.forall_mem_cons.1 h
    cases rest with
    | nil => exact (Groups.one first).congr (by simp) rfl
    | cons v rest =>
      exact ((Groups.one first).append (ih others (by simp))).congr
        (by simp) rfl

theorem groups_params (h : ∀ w ∈ ws, isWord w = true) :
    Groups ("(" ++ " ".intercalate ws ++ ")") [.list (ws.map word)] := by
  cases ws with
  | nil => exact Groups.empty.congr (by simp) rfl
  | cons w rest =>
    obtain ⟨first, others⟩ := List.forall_mem_cons.1 h
    cases rest with
    | nil => exact (Groups.parens first .nil).congr (by simp) rfl
    | cons v rest =>
      exact (Groups.parens first (groups_words others (by simp))).congr
        (by simp) rfl

theorem funcDef_laid (h : f.Listed) : Laid (funcDef f) [funcForm f] := by
  obtain ⟨ls, lists, inner⟩ := (stmts_laid 1 f.body h.body).orEmpty 1 f.body
  have params : ∀ w ∈ f.params.map (fun a => a.name ++ ":" ++ typeName a.type),
      isWord w = true := by
    refine List.forall_mem_map.2 fun a mem => ?_
    rw [String.append_assoc]
    refine StackCode.isWord_append (isWord_of_isPlainName (h.params a mem)) ?_
    rcases a.type with _ | _ | _ | _ <;> simp [typeName, Ty.name, Sexpr.separators]
  have head := ((Groups.one (isWord_of_isPlainName h.name)).append
    (Groups.blank.append (groups_params params))).append (.one (isWord_typeName f.returns))
  have lines := (varDecls_groups 1 h.locals).append inner
  rw [← linesText_append] at lines
  refine ⟨_, by simp only [funcDef, block, lists]; rfl, ?_⟩
  have closed (text : String) ht :=
    Groups.closed 0 (w := "def") (by decide) head lines (ht : text.toList = _)
  simp only [line_zero] at closed
  exact (closed _ (by simp)).congr rfl (by simp [funcForm, Function.comp_def])

theorem funcDefs_laid {fs : List FuncDef} (h : ∀ f ∈ fs, f.Listed) :
    Laid (funcDefs fs) (fs.map funcForm) := by
  induction fs with
  | nil => exact ⟨[], rfl, .nil⟩
  | cons f rest ih =>
    obtain ⟨first, others⟩ := List.forall_mem_cons.1 h
    obtain ⟨ls, lists, groups⟩ := funcDef_laid first
    obtain ⟨ms, lists', groups'⟩ := ih others
    refine ⟨_, by simp only [funcDefs, lists, lists']; rfl, ?_⟩
    rw [linesText_append]
    exact groups.append groups'

theorem listing_groups (h : p.Listed) :
    ∃ text, p.listing? = some text ∧ Groups ("\n" ++ text) (programForms p) := by
  obtain ⟨ls, lists, funcs⟩ := funcDefs_laid h.funcs
  obtain ⟨ms, lists', stmts⟩ := stmts_laid 0 p.stmts h.stmts
  have vars := varDecls_groups 0 h.vars
  have ended (ls : List String) :
      "\n" ++ String.join (ls.map (· ++ "\n")) = linesText ls ++ "\n" := by
    induction ls with
    | nil => rfl
    | cons l rest ih =>
      apply String.toList_injective
      simpa [linesText] using congrArg String.toList ih
  have newline : Groups "\n" [] := .blanks (by simp)
  refine ⟨_, by simp only [Program.listing?, lists, lists']; rfl, ?_⟩
  rw [ended, linesText_append, linesText_append]
  exact (((vars.append funcs).append stmts).append newline).congr rfl (by simp [programForms])

end Listing
end WordScript
