import WordScript.Proofs.ListingText
import WordScript.Proofs.SourceLines

/-! Programs are told apart by their listings.

The type behind an expression and the scope behind a name start with a sign that no name has, and
each group starts with a word that says what it is a group of. So from the front of a listing it can
be told where each part ends, and two programs with one listing differ at most in the places they
were read from. -/
namespace WordScript

namespace Listing

/-- What goes before a list can be told from the list, where the first of the list is of another
sort than all that goes before. -/
theorem append_inj_of_sorts {α : Type} {p : α → Prop} {xs xs' ys ys' : List α}
    (hx : ∀ a ∈ xs, p a) (hx' : ∀ a ∈ xs', p a) (hy : ∀ a ∈ ys.head?, ¬p a)
    (hy' : ∀ a ∈ ys'.head?, ¬p a) (h : xs ++ ys = xs' ++ ys') : xs = xs' ∧ ys = ys' := by
  induction xs generalizing xs' with
  | nil =>
    cases xs' with
    | nil => exact ⟨rfl, h⟩
    | cons b rest =>
      rw [List.nil_append] at h
      exact absurd (hx' b (by simp)) (hy b (by simp [h]))
  | cons a rest ih =>
    cases xs' with
    | nil =>
      rw [List.nil_append] at h
      exact absurd (hx a (by simp)) (hy' a (by simp [← h]))
    | cons b rest' =>
      obtain ⟨rfl, others⟩ : a = b ∧ rest ++ ys = rest' ++ ys' := by simpa using h
      obtain ⟨rfl, rfl⟩ := ih (List.forall_mem_cons.1 hx).2 (List.forall_mem_cons.1 hx').2 others
      exact ⟨rfl, rfl⟩

@[simp] theorem word_inj : word x = word y ↔ x = y := by
  simp [word, Utf8.encode_injective.eq_iff]

@[simp] theorem group_inj : group x fs = group y gs ↔ x = y ∧ fs = gs := by
  simp [group]

@[simp] theorem word_ne_group (x y : String) (fs : List Sexpr) : word x ≠ group y fs := nofun

@[simp] theorem group_ne_word (x y : String) (fs : List Sexpr) : group x fs ≠ word y := nofun

@[simp] theorem group_ne_empty (x : String) (fs : List Sexpr) : group x fs ≠ .list [] := nofun

theorem append_inj_of_signs {p : Char → Prop} {x : String} (hx : ∀ c ∈ x.toList, p c)
    (hx' : ∀ c ∈ x'.toList, p c) (hy : ∀ c ∈ y.toList.head?, ¬p c)
    (hy' : ∀ c ∈ y'.toList.head?, ¬p c) (h : x ++ y = x' ++ y') : x = x' ∧ y = y' := by
  have lists : x.toList ++ y.toList = x'.toList ++ y'.toList := by
    simpa using congrArg String.toList h
  exact (append_inj_of_sorts hx hx' hy hy' lists).imp (String.toList_injective ·)
    (String.toList_injective ·)

theorem typeSuffix_inj (h : typeSuffix t = typeSuffix t') : t = t' := by
  rcases t with _ | _ | _ | _ <;> rcases t' with _ | _ | _ | _ <;> simp_all [typeSuffix, Ty.name]

theorem typeName_inj (h : typeName t = typeName t') : t = t' := by
  rcases t with _ | _ | _ | _ <;> rcases t' with _ | _ | _ | _ <;> simp_all [typeName, Ty.name]

theorem scopeSuffix_inj (hs : s.Known) (hs' : s'.Known) (h : scopeSuffix s = scopeSuffix s') :
    s = s' := by
  cases s <;> cases s' <;> simp_all [scopeSuffix, Scope.Known]

theorem head_typeSuffix :
    ∀ c ∈ (typeSuffix t).toList.head?, c = ':' := by
  cases t <;> simp [typeSuffix]

def IsLetter (c : Char) : Prop := c ≠ '@' ∧ c ≠ ':'

theorem head_suffixes (s : Scope) (t : Option Ty) :
    ∀ c ∈ (scopeSuffix s ++ typeSuffix t).toList.head?, ¬IsLetter c := by
  cases s <;> cases t <;> simp [scopeSuffix, typeSuffix, IsLetter]

theorem suffixes_inj (hs : s.Known) (hs' : s'.Known)
    (h : scopeSuffix s ++ typeSuffix t = scopeSuffix s' ++ typeSuffix t') : s = s' ∧ t = t' := by
  have plain (s : Scope) : ∀ c ∈ (scopeSuffix s).toList, c ≠ ':' := by
    cases s <;> simp [scopeSuffix]
  have head {t : Option Ty} : ∀ c ∈ (typeSuffix t).toList.head?, ¬c ≠ ':' := fun c mem =>
    not_not.2 (head_typeSuffix c mem)
  obtain ⟨scopes, types⟩ := append_inj_of_signs (plain s) (plain s') head head h
  exact ⟨scopeSuffix_inj hs hs' scopes, typeSuffix_inj types⟩

theorem isLetter_of_isPlainName (h : IsPlainName x) : ∀ c ∈ x.toList, IsLetter c := by
  intro c mem
  have name := isNameChar_of_mem h.1 c mem
  constructor <;> rintro rfl <;> revert name <;> decide

theorem isLetter_literalText : ∀ c ∈ (literalText l).toList, IsLetter c := by
  intro c mem
  cases kind : l.kind with
  | int =>
    rw [literalText, kind] at mem
    rcases Numeral.sign_or_isDigit_of_mem mem with rfl | digit
    · exact ⟨by decide, by decide⟩
    · constructor <;> rintro rfl <;> revert digit <;> decide
  | _ => revert c; simp [literalText, kind, IsLetter]

theorem toString_ne (h : Numeral.int? x.toList = none) (v : Int) : toString v ≠ x := by
  rintro rfl
  rw [Numeral.int?_toString] at h
  cases h

theorem not_isIdentifier_toString (v : Int) : isIdentifier (toString v) = false := by
  unfold isIdentifier
  split
  · rfl
  · rename_i c rest chars
    have start : Scanner.isNameStart c = false := by
      have mem : c ∈ (toString v).toList := chars ▸ List.mem_cons_self
      rcases Numeral.sign_or_isDigit_of_mem mem with rfl | digit
      · decide
      · exact Scanner.isNameStart_of_isDigit digit
    rw [start]
    rfl

theorem literalText_not_plain (h : l.Listed) : ¬IsPlainName (literalText l) := by
  rintro ⟨identifier, word⟩
  cases kind : l.kind with
  | int =>
    rw [literalText, kind] at identifier
    exact Bool.false_ne_true ((not_isIdentifier_toString l.value).symm.trans identifier)
  | other code =>
    rw [Literal.Listed, kind] at h
    exact h.1
  | _ =>
    simp only [literalText, kind] at word
    revert word
    decide

theorem literalText_ne_empty (h : l.Listed) :
    literalText l ≠ "" := by
  cases kind : l.kind with
  | int =>
    rw [literalText, kind]
    exact toString_ne (by decide) l.value
  | other code =>
    rw [Literal.Listed, kind] at h
    exact h.1.elim
  | _ => simp [literalText, kind]

theorem literalText_inj (h : l.Listed) (h' : l'.Listed) (eq : literalText l = literalText l') :
    l.kind = l'.kind ∧ l.value = l'.value := by
  have numeral {l l' : Literal} (h' : l'.Listed) (eq : literalText l = literalText l')
      (kind : l.kind = .int) : l'.kind = .int ∧ l.value = l'.value := by
    have value := Numeral.int?_toString l.value
    rw [literalText, kind] at eq
    cases kind' : l'.kind with
    | int =>
      simp only [literalText, kind'] at eq
      rw [eq, Numeral.int?_toString] at value
      exact ⟨rfl, (Option.some.inj value).symm⟩
    | _ =>
      simp only [literalText, kind'] at eq
      exact absurd eq (toString_ne (by decide) l.value)
  by_cases kind : l.kind = .int
  · obtain ⟨kind', values⟩ := numeral h' eq kind
    exact ⟨kind.trans kind'.symm, values⟩
  by_cases kind' : l'.kind = .int
  · obtain ⟨kind, values⟩ := numeral h eq.symm kind'
    exact ⟨kind.trans kind'.symm, values.symm⟩
  refine ⟨?_, (h.2 kind).trans (h'.2 kind').symm⟩
  rcases l with ⟨_, _, _ | _ | _ | _ | _, _⟩ <;> rcases l' with ⟨_, _, _ | _ | _ | _ | _, _⟩ <;>
    first | rfl | exact h.1.elim | exact h'.1.elim | simp [literalText] at eq kind kind'

theorem head_typeSuffix_not_isLetter : ∀ c ∈ (typeSuffix t).toList.head?, ¬IsLetter c :=
  fun c mem letter => letter.2 (head_typeSuffix c mem)

theorem literal_inj (h : l.Listed) (h' : l'.Listed) (eq : literal l = literal l') :
    l.bare = l'.bare := by
  obtain ⟨texts, types⟩ := append_inj_of_signs isLetter_literalText isLetter_literalText
    head_typeSuffix_not_isLetter head_typeSuffix_not_isLetter eq
  obtain ⟨kinds, values⟩ := literalText_inj h h' texts
  rw [Literal.bare, Literal.bare, typeSuffix_inj types, kinds, values]

theorem literal_ne_name (hl : l.Listed) (hx : IsPlainName x) (s : Scope) (t : Option Ty) :
    literal l ≠ x ++ scopeSuffix s ++ typeSuffix t := by
  intro eq
  rw [String.append_assoc] at eq
  obtain ⟨rfl, -⟩ := append_inj_of_signs isLetter_literalText (isLetter_of_isPlainName hx)
    head_typeSuffix_not_isLetter (head_suffixes s t) eq
  exact literalText_not_plain hl hx

theorem name_inj (hx : IsPlainName x) (hx' : IsPlainName x') (hs : s.Known) (hs' : s'.Known)
    (eq : x ++ scopeSuffix s ++ typeSuffix t = x' ++ scopeSuffix s' ++ typeSuffix t') :
    x = x' ∧ s = s' ∧ t = t' := by
  rw [String.append_assoc, String.append_assoc] at eq
  obtain ⟨names, suffixes⟩ := append_inj_of_signs (isLetter_of_isPlainName hx)
    (isLetter_of_isPlainName hx') (head_suffixes s t) (head_suffixes s' t') eq
  exact ⟨names, suffixes_inj hs hs' suffixes⟩

theorem scoped_inj (hx : IsPlainName x) (hx' : IsPlainName x') (hs : s.Known) (hs' : s'.Known)
    (eq : x ++ scopeSuffix s = x' ++ scopeSuffix s') : x = x' ∧ s = s' := by
  have untyped : x ++ scopeSuffix s ++ typeSuffix none = x' ++ scopeSuffix s' ++ typeSuffix none := by
    simpa [typeSuffix] using eq
  obtain ⟨names, scopes, -⟩ := name_inj hx hx' hs hs' untyped
  exact ⟨names, scopes⟩

theorem binaryText_inj {op : BinaryOp} (h : op.Known) (h' : op'.Known)
    (eq : op.text?.getD "" = op'.text?.getD "") : op = op' := by
  have found {op : BinaryOp} (h : op.Known) : BinaryOp.ofText? (op.text?.getD "") = some op := by
    cases op <;> first | exact h.elim | rfl
  exact Option.some.inj ((found h).symm.trans (eq ▸ found h'))

theorem unaryText_inj {op : UnaryOp} (h : op.Known) (h' : op'.Known)
    (eq : op.text?.getD "" = op'.text?.getD "") : op = op' := by
  cases op <;> cases op' <;> simp_all [UnaryOp.Known, UnaryOp.text?]

theorem binaryText_ne_call (op : BinaryOp) : op.text?.getD "" ≠ "call" := by
  cases op <;> simp [BinaryOp.text?]

theorem unaryText_ne_call (op : UnaryOp) : op.text?.getD "" ≠ "call" := by
  cases op <;> simp [UnaryOp.text?]

def Ends (r : List Sexpr) : Prop := ∀ t : Ty, r.head? ≠ some (word (":" ++ t.name))

theorem ends_nil : Ends [] := nofun

theorem suffixForms_inj (ends : Ends r) (ends' : Ends r')
    (eq : suffixForms t ++ r = suffixForms t' ++ r') : t = t' ∧ r = r' := by
  rcases t with _ | t <;> rcases t' with _ | t'
  · exact ⟨rfl, eq⟩
  · exact absurd (by simpa [suffixForms] using congrArg List.head? eq) (ends t')
  · exact absurd (by simpa [suffixForms] using (congrArg List.head? eq).symm) (ends' t)
  · obtain ⟨names, rfl⟩ : t.name = t'.name ∧ r = r' := by simpa [suffixForms] using eq
    refine ⟨?_, rfl⟩
    cases t <;> cases t' <;> first | rfl | simp [Ty.name] at names

theorem ne_label (hx : ∀ c ∈ x.toList, IsLetter c) (filled : x ≠ "")
    (hy : ∀ c ∈ y.toList.head?, ¬IsLetter c) (t : Ty) :
    x ++ y ≠ ":" ++ t.name := by
  intro eq
  have label : x ++ y = "" ++ typeSuffix (some t) := by simpa [typeSuffix] using eq
  exact filled (append_inj_of_signs hx (by simp) hy head_typeSuffix_not_isLetter label).1

theorem expr_head (h : e.All Expr.Listed) :
    ∃ f rest, exprForms e = f :: rest ∧ ∀ t : Ty, f ≠ word (":" ++ t.name) := by
  cases e with
  | literal l =>
    refine ⟨_, [], rfl, fun t same => ?_⟩
    exact ne_label isLetter_literalText (literalText_ne_empty h) head_typeSuffix_not_isLetter t
      (word_inj.1 same)
  | name _ type x s =>
    refine ⟨_, [], rfl, fun t same => ?_⟩
    rw [word_inj, String.append_assoc] at same
    exact ne_label (isLetter_of_isPlainName h.1) (ne_empty_of_isIdentifier h.1.1)
      (head_suffixes s type) t same
  | unknown _ _ => exact h.elim
  | _ => exact ⟨_, _, rfl, fun t => group_ne_word _ _ _⟩

theorem expr_ends (h : e.All Expr.Listed) (r : List Sexpr) : Ends (exprForms e ++ r) := by
  obtain ⟨f, rest, forms, plain⟩ := expr_head h
  intro t same
  rw [forms] at same
  exact plain t (Option.some.inj same)

theorem arguments_end (h : Expr.AllIn Expr.Listed es) : Ends (argForms es) := by
  cases es with
  | nil => exact ends_nil
  | cons e rest => exact expr_ends h.1 _

theorem exprForms_ne_nil (h : e.All Expr.Listed) : exprForms e ≠ [] := by
  obtain ⟨f, rest, forms, -⟩ := expr_head h
  rw [forms]
  exact List.cons_ne_nil f rest

mutual

theorem exprForms_inj : (e e' : Expr) → e.All Expr.Listed → e'.All Expr.Listed →
    {r r' : List Sexpr} → Ends r → Ends r' → exprForms e ++ r = exprForms e' ++ r' →
    e.bare = e'.bare ∧ r = r'
  | .literal l, e', h, h', _, _, ends, ends', eq => by
    cases e' with
    | literal l' =>
      obtain ⟨texts, rfl⟩ := List.cons.inj eq
      exact ⟨by rw [Expr.bare, Expr.bare, literal_inj h h' (word_inj.1 texts)], rfl⟩
    | name _ t x s =>
      exact absurd (word_inj.1 (List.cons.inj eq).1) (literal_ne_name h h'.1 s t)
    | unknown _ _ => exact h'.elim
    | _ => exact absurd (List.cons.inj eq).1 (word_ne_group _ _ _)
  | .name _ t x s, e', h, h', _, _, ends, ends', eq => by
    cases e' with
    | literal l' =>
      exact absurd (word_inj.1 (List.cons.inj eq).1).symm (literal_ne_name h' h.1 s t)
    | name _ t' x' s' =>
      obtain ⟨texts, rfl⟩ := List.cons.inj eq
      obtain ⟨rfl, rfl, rfl⟩ := name_inj h.1 h'.1 h.2 h'.2 (word_inj.1 texts)
      exact ⟨rfl, rfl⟩
    | unknown _ _ => exact h'.elim
    | _ => exact absurd (List.cons.inj eq).1 (word_ne_group _ _ _)
  | .call _ t f args, e', h, h', _, _, ends, ends', eq => by
    cases e' with
    | call _ t' f' args' =>
      obtain ⟨groups, suffixes⟩ := List.cons.inj eq
      obtain ⟨names, items⟩ := List.cons.inj (group_inj.1 groups).2
      obtain ⟨rfl, rfl⟩ := suffixForms_inj ends ends' suffixes
      have same := argForms_inj args args' h.2 h'.2 items
      exact ⟨by rw [Expr.bare, Expr.bare, word_inj.1 names, same], rfl⟩
    | binary _ _ op _ _ =>
      exact absurd (group_inj.1 (List.cons.inj eq).1).1.symm (binaryText_ne_call op)
    | unary _ _ op _ =>
      exact absurd (group_inj.1 (List.cons.inj eq).1).1.symm (unaryText_ne_call op)
    | unknown _ _ => exact h'.elim
    | _ => exact absurd (List.cons.inj eq).1 (group_ne_word _ _ _)
  | .binary _ t op lhs rhs, e', h, h', _, _, ends, ends', eq => by
    have right_ends : Ends (exprForms rhs) := by simpa using expr_ends h.2.2 []
    cases e' with
    | call _ _ _ _ => exact absurd (group_inj.1 (List.cons.inj eq).1).1 (binaryText_ne_call op)
    | binary _ t' op' lhs' rhs' =>
      obtain ⟨groups, suffixes⟩ := List.cons.inj eq
      obtain ⟨ops, items⟩ := group_inj.1 groups
      obtain ⟨rfl, rfl⟩ := suffixForms_inj ends ends' suffixes
      obtain ⟨left, rights⟩ := exprForms_inj lhs lhs' h.2.1 h'.2.1 right_ends
        (by simpa using expr_ends h'.2.2 []) items
      obtain ⟨right, -⟩ := exprForms_inj rhs rhs' h.2.2 h'.2.2 ends_nil ends_nil
        (by simpa using rights)
      rw [Expr.bare, binaryText_inj h.1 h'.1 ops, left, right]
      exact ⟨rfl, rfl⟩
    | unary _ _ _ e' =>
      -- A difference and the opposite start alike; only a difference has a second operand.
      obtain ⟨-, none_left⟩ := exprForms_inj lhs e' h.2.1 h'.2 right_ends ends_nil
        (by simpa using (group_inj.1 (List.cons.inj eq).1).2)
      exact absurd none_left (exprForms_ne_nil h.2.2)
    | unknown _ _ => exact h'.elim
    | _ => exact absurd (List.cons.inj eq).1 (group_ne_word _ _ _)
  | .unary _ t op e, e', h, h', _, _, ends, ends', eq => by
    cases e' with
    | call _ _ _ _ => exact absurd (group_inj.1 (List.cons.inj eq).1).1 (unaryText_ne_call op)
    | binary _ _ _ lhs' rhs' =>
      obtain ⟨-, none_left⟩ := exprForms_inj e lhs' h.2 h'.2.1 ends_nil
        (by simpa using expr_ends h'.2.2 []) (by simpa using (group_inj.1 (List.cons.inj eq).1).2)
      exact absurd none_left.symm (exprForms_ne_nil h'.2.2)
    | unary _ t' op' e' =>
      obtain ⟨groups, suffixes⟩ := List.cons.inj eq
      obtain ⟨ops, items⟩ := group_inj.1 groups
      obtain ⟨rfl, rfl⟩ := suffixForms_inj ends ends' suffixes
      obtain ⟨operand, -⟩ := exprForms_inj e e' h.2 h'.2 ends_nil ends_nil (by simpa using items)
      rw [Expr.bare, unaryText_inj h.1 h'.1 ops, operand]
      exact ⟨rfl, rfl⟩
    | unknown _ _ => exact h'.elim
    | _ => exact absurd (List.cons.inj eq).1 (group_ne_word _ _ _)
  | .unknown _ _, _, h, _, _, _, _, _, _ => h.elim

theorem argForms_inj : (es es' : List Expr) → Expr.AllIn Expr.Listed es →
    Expr.AllIn Expr.Listed es' → argForms es = argForms es' → Expr.bareAll es = Expr.bareAll es'
  | [], es', _, h', eq => by
    cases es' with
    | nil => rfl
    | cons e' rest' => exact absurd (List.append_eq_nil_iff.1 eq.symm).1 (exprForms_ne_nil h'.1)
  | e :: rest, es', h, h', eq => by
    cases es' with
    | nil => exact absurd (List.append_eq_nil_iff.1 eq).1 (exprForms_ne_nil h.1)
    | cons e' rest' =>
      obtain ⟨first, others⟩ :=
        exprForms_inj e e' h.1 h'.1 (arguments_end h.2) (arguments_end h'.2) eq
      rw [Expr.bareAll, Expr.bareAll, first, argForms_inj rest rest' h.2 h'.2 others]

end

def IsGroup (w : String) (f : Sexpr) : Prop := ∃ items, f = group w items

/-- The words of the groups that are no statements. -/
def otherWords : List String := ["elif", "else", "var", "def"]

/-- A group of a statement or a block without statements. -/
def IsBlock (f : Sexpr) : Prop := ∀ w ∈ otherWords, ¬IsGroup w f

theorem isBlock_stmtForm (s : Stmt) : IsBlock (stmtForm s) := by
  rintro w other ⟨items, same⟩
  cases s with
  | unknown _ => cases same
  | _ =>
    rw [← (group_inj.1 same).1] at other
    exact absurd other (by decide)

theorem isBlock_of_mem_stmtForms : ∀ f ∈ stmtForms ss, IsBlock f := by
  induction ss with
  | nil => nofun
  | cons s rest ih => exact List.forall_mem_cons.2 ⟨isBlock_stmtForm s, ih⟩

theorem isBlock_of_mem_blockForms : ∀ f ∈ blockForms body, IsBlock f := by
  rw [blockForms]
  split
  · exact List.forall_mem_singleton.2 (isBlock_stmtForm (.unknown default))
  · exact isBlock_of_mem_stmtForms

theorem block_ends (body : List Stmt) (r : List Sexpr) : Ends (blockForms body ++ r) := by
  intro t
  cases body with
  | nil => simp [blockForms, word]
  | cons s rest => cases s <;> simp [blockForms, stmtForms, stmtForm, group, word]

theorem blockForms_inj (h : Stmt.AllIn Expr.Listed Stmt.Listed body)
    (h' : Stmt.AllIn Expr.Listed Stmt.Listed body')
    (stmts : stmtForms body = stmtForms body' → Stmt.bareAll body = Stmt.bareAll body')
    (eq : blockForms body = blockForms body') : Stmt.bareAll body = Stmt.bareAll body' := by
  have filled {s : Stmt} {rest : List Stmt} (h : s.All Expr.Listed Stmt.Listed) :
      [.list []] ≠ stmtForms (s :: rest) := by
    cases s with
    | unknown _ => exact h.elim
    | _ => simp [stmtForms, stmtForm, group]
  cases body with
  | nil =>
    cases body' with
    | nil => rfl
    | cons s rest => exact absurd eq (filled h'.1)
  | cons s rest =>
    cases body' with
    | nil => exact absurd eq.symm (filled h.1)
    | cons s' rest' => exact stmts eq

/-- The group of the statements for when no condition holds. -/
def elseForms (otherwise : List Stmt) : List Sexpr :=
  if otherwise.isEmpty then [] else [group "else" (stmtForms otherwise)]

theorem elseForms_inj
    (stmts : stmtForms body = stmtForms body' → Stmt.bareAll body = Stmt.bareAll body')
    (eq : elseForms body = elseForms body') : Stmt.bareAll body = Stmt.bareAll body' := by
  cases body <;> cases body' <;> simp_all [elseForms]

theorem isGroup_of_mem_elifForms :
    ∀ f ∈ elifForms cs, IsGroup "elif" f := by
  induction cs with
  | nil => nofun
  | cons c rest ih =>
    obtain ⟨_, _, _⟩ := c
    exact List.forall_mem_cons.2 ⟨⟨_, rfl⟩, ih⟩

theorem isGroup_of_mem_elseForms :
    ∀ f ∈ elseForms body, IsGroup "else" f := by
  rw [elseForms]
  split
  · nofun
  · exact List.forall_mem_singleton.2 ⟨_, rfl⟩

theorem IsGroup.unique (h : IsGroup w f) (h' : IsGroup w' f) : w = w' := by
  obtain ⟨items, rfl⟩ := h
  obtain ⟨items', same⟩ := h'
  exact (group_inj.1 same).1

theorem branches_inj
    (eq : blockForms body ++ (elifForms clauses ++ elseForms otherwise) = blockForms body' ++ (elifForms clauses' ++ elseForms otherwise')) :
    blockForms body = blockForms body' ∧ elifForms clauses = elifForms clauses' ∧
      elseForms otherwise = elseForms otherwise' := by
  have after {clauses : List Elif} {otherwise : List Stmt} :
      ∀ f ∈ (elifForms clauses ++ elseForms otherwise).head?, ¬IsBlock f := by
    intro f mem block
    rcases List.mem_append.1 (List.mem_of_mem_head? mem) with mem | mem
    · exact block _ (by decide) (isGroup_of_mem_elifForms f mem)
    · exact block _ (by decide) (isGroup_of_mem_elseForms f mem)
  have last {otherwise : List Stmt} : ∀ f ∈ (elseForms otherwise).head?, ¬IsGroup "elif" f :=
    fun f mem elif => absurd
      (elif.unique (isGroup_of_mem_elseForms f (List.mem_of_mem_head? mem))) (by decide)
  obtain ⟨bodies, others⟩ := append_inj_of_sorts isBlock_of_mem_blockForms
    isBlock_of_mem_blockForms after after eq
  exact ⟨bodies, append_inj_of_sorts isGroup_of_mem_elifForms isGroup_of_mem_elifForms last last
    others⟩

theorem whole_inj (h : e.All Expr.Listed) (h' : e'.All Expr.Listed)
    (eq : exprForms e = exprForms e') : e.bare = e'.bare :=
  (exprForms_inj e e' h h' ends_nil ends_nil (by rw [eq])).1

theorem headed_inj (h : e.All Expr.Listed) (h' : e'.All Expr.Listed)
    (eq : exprForms e ++ (blockForms body ++ r) = exprForms e' ++ (blockForms body' ++ r')) :
    e.bare = e'.bare ∧ blockForms body ++ r = blockForms body' ++ r' :=
  exprForms_inj e e' h h' (block_ends body r) (block_ends body' r') eq

theorem clause_inj (h : e.All Expr.Listed) (h' : e'.All Expr.Listed)
    (eq : exprForms e ++ blockForms body = exprForms e' ++ blockForms body') :
    e.bare = e'.bare ∧ blockForms body = blockForms body' := by
  have padded : exprForms e ++ (blockForms body ++ []) = exprForms e' ++ (blockForms body' ++ []) := by
    simpa using eq
  simpa using headed_inj h h' padded

mutual

theorem stmtForm_inj : (s s' : Stmt) → s.All Expr.Listed Stmt.Listed →
    s'.All Expr.Listed Stmt.Listed → stmtForm s = stmtForm s' → s.bare = s'.bare
  | .pass _, s', h, h', eq => by
    cases s' with
    | pass _ => rfl
    | _ => simp [stmtForm] at eq
  | .assign _ x s e, s', h, h', eq => by
    cases s' with
    | assign _ x' s' e' =>
      obtain ⟨targets, values⟩ := List.cons.inj (group_inj.1 eq).2
      obtain ⟨rfl, rfl⟩ := scoped_inj h.1.1 h'.1.1 h.1.2 h'.1.2 (word_inj.1 targets)
      rw [Stmt.bare, Stmt.bare, whole_inj h.2 h'.2 values]
    | _ => simp [stmtForm] at eq
  | .expr _ e, s', h, h', eq => by
    cases s' with
    | expr _ e' => rw [Stmt.bare, Stmt.bare, whole_inj h.2 h'.2 (group_inj.1 eq).2]
    | _ => simp [stmtForm] at eq
  | .ret _ e, s', h, h', eq => by
    cases s' with
    | ret _ e' => rw [Stmt.bare, Stmt.bare, whole_inj h.2 h'.2 (group_inj.1 eq).2]
    | _ => simp [stmtForm] at eq
  | .while _ c body, s', h, h', eq => by
    cases s' with
    | «while» _ c' body' =>
      have items : exprForms c ++ blockForms body = exprForms c' ++ blockForms body' :=
        (group_inj.1 eq).2
      obtain ⟨tests, bodies⟩ := clause_inj h.2.1 h'.2.1 items
      have same := blockForms_inj h.2.2 h'.2.2 (stmtForms_inj body body' h.2.2 h'.2.2) bodies
      rw [Stmt.bare, Stmt.bare, tests, same]
    | _ => simp [stmtForm] at eq
  | .cond _ c body clauses otherwise, s', h, h', eq => by
    cases s' with
    | cond _ c' body' clauses' otherwise' =>
      obtain ⟨-, hc, hb, hs, ho⟩ := h
      obtain ⟨-, hc', hb', hs', ho'⟩ := h'
      have items : exprForms c ++ (blockForms body ++ (elifForms clauses ++ elseForms otherwise)) =
          exprForms c' ++ (blockForms body' ++ (elifForms clauses' ++ elseForms otherwise')) :=
        (group_inj.1 eq).2
      obtain ⟨tests, branches⟩ := headed_inj hc hc' items
      obtain ⟨bodies, elifs, elses⟩ := branches_inj branches
      rw [Stmt.bare, Stmt.bare, tests,
        blockForms_inj hb hb' (stmtForms_inj body body' hb hb') bodies,
        elifForms_inj clauses clauses' hs hs' elifs,
        elseForms_inj (stmtForms_inj otherwise otherwise' ho ho') elses]
    | _ => simp [stmtForm] at eq
  | .unknown _, _, h, _, _ => h.elim

theorem stmtForms_inj : (ss ss' : List Stmt) → Stmt.AllIn Expr.Listed Stmt.Listed ss →
    Stmt.AllIn Expr.Listed Stmt.Listed ss' → stmtForms ss = stmtForms ss' →
    Stmt.bareAll ss = Stmt.bareAll ss'
  | [], ss', _, _, eq => by
    cases ss' with
    | nil => rfl
    | cons s rest => cases eq
  | s :: rest, ss', h, h', eq => by
    cases ss' with
    | nil => cases eq
    | cons s' rest' =>
      obtain ⟨first, others⟩ := List.cons.inj eq
      rw [Stmt.bareAll, Stmt.bareAll, stmtForm_inj s s' h.1 h'.1 first,
        stmtForms_inj rest rest' h.2 h'.2 others]

theorem elifForms_inj : (cs cs' : List Elif) → Stmt.AllInElifs Expr.Listed Stmt.Listed cs →
    Stmt.AllInElifs Expr.Listed Stmt.Listed cs' → elifForms cs = elifForms cs' →
    Stmt.bareElifs cs = Stmt.bareElifs cs'
  | [], cs', _, _, eq => by
    cases cs' with
    | nil => rfl
    | cons c rest => obtain ⟨_, _, _⟩ := c; cases eq
  | .mk _ c body :: rest, cs', h, h', eq => by
    cases cs' with
    | nil => cases eq
    | cons clause' rest' =>
      obtain ⟨_, c', body'⟩ := clause'
      obtain ⟨first, others⟩ := List.cons.inj eq
      have items : exprForms c ++ blockForms body = exprForms c' ++ blockForms body' :=
        (group_inj.1 first).2
      obtain ⟨tests, bodies⟩ := clause_inj h.1 h'.1 items
      have same := blockForms_inj h.2.1 h'.2.1 (stmtForms_inj body body' h.2.1 h'.2.1) bodies
      rw [Stmt.bareElifs, Stmt.bareElifs, tests, same, elifForms_inj rest rest' h.2.2 h'.2.2 others]

end

theorem map_inj_of {α β γ : Type} {f : α → β} {g : α → γ} {xs ys : List α}
    (h : ∀ a ∈ xs, ∀ b ∈ ys, f a = f b → g a = g b) (eq : xs.map f = ys.map f) :
    xs.map g = ys.map g := by
  induction xs generalizing ys with
  | nil =>
    cases ys with
    | nil => rfl
    | cons b rest => cases eq
  | cons a rest ih =>
    cases ys with
    | nil => cases eq
    | cons b rest' =>
      obtain ⟨first, others⟩ := List.cons.inj eq
      rw [List.map_cons, List.map_cons, h a (by simp) b (by simp) first,
        ih (fun a ha b hb => h a (by simp [ha]) b (by simp [hb])) others]

theorem varForm_inj (h : v.Listed) (h' : v'.Listed) (eq : varForm v = varForm v') :
    v.bare = v'.bare := by
  obtain ⟨names, types, inits⟩ : v.name = v'.name ∧ typeName v.type = typeName v'.type ∧
      literal v.init = literal v'.init := by
    simpa [varForm] using eq
  rw [VarDecl.bare, VarDecl.bare, names, typeName_inj types, literal_inj h.2 h'.2 inits]

theorem param_inj {a a' : Param} (h : IsPlainName a.name) (h' : IsPlainName a'.name)
    (eq : word (a.name ++ ":" ++ typeName a.type) = word (a'.name ++ ":" ++ typeName a'.type)) :
    a.bare = a'.bare := by
  rw [word_inj, String.append_assoc, String.append_assoc] at eq
  have colon {t : Option Ty} : ∀ c ∈ (":" ++ typeName t).toList.head?, ¬IsLetter c := by
    simp [IsLetter]
  obtain ⟨names, types⟩ := append_inj_of_signs (isLetter_of_isPlainName h)
    (isLetter_of_isPlainName h') colon colon eq
  have same : typeName a.type = typeName a'.type := by simpa using types
  rw [Param.bare, Param.bare, names, typeName_inj same]

theorem isGroup_of_mem_varForms {vs : List VarDecl} : ∀ f ∈ vs.map varForm, IsGroup "var" f :=
  List.forall_mem_map.2 fun _ _ => ⟨_, rfl⟩

theorem isGroup_of_mem_funcForms {fs : List FuncDef} : ∀ f ∈ fs.map funcForm, IsGroup "def" f :=
  List.forall_mem_map.2 fun _ _ => ⟨_, rfl⟩

theorem funcForm_inj (h : f.Listed) (h' : f'.Listed) (eq : funcForm f = funcForm f') :
    f.bare = f'.bare := by
  obtain ⟨names, eq⟩ := List.cons.inj (group_inj.1 eq).2
  obtain ⟨params, eq⟩ := List.cons.inj eq
  obtain ⟨returns, eq⟩ := List.cons.inj eq
  have body_head {body : List Stmt} : ∀ f ∈ (blockForms body).head?, ¬IsGroup "var" f :=
    fun f mem => isBlock_of_mem_blockForms f (List.mem_of_mem_head? mem) _ (by decide)
  obtain ⟨locals, bodies⟩ := append_inj_of_sorts isGroup_of_mem_varForms isGroup_of_mem_varForms
    body_head body_head eq
  have same_params := map_inj_of (fun a ha a' ha' => param_inj (h.params a ha) (h'.params a' ha'))
    (Sexpr.list.inj params)
  have same_locals := map_inj_of (fun v hv v' hv' => varForm_inj (h.locals v hv) (h'.locals v' hv'))
    locals
  have same_body := blockForms_inj h.body h'.body (stmtForms_inj _ _ h.body h'.body) bodies
  rw [FuncDef.bare, FuncDef.bare, word_inj.1 names, typeName_inj (word_inj.1 returns), same_params,
    same_locals, same_body]

theorem programForms_inj (hp : p.Listed) (hq : q.Listed) (eq : programForms p = programForms q) :
    p.bare = q.bare := by
  have stmts_head {ss : List Stmt} : ∀ f ∈ (stmtForms ss).head?, ¬IsGroup "def" f :=
    fun f mem => isBlock_of_mem_stmtForms f (List.mem_of_mem_head? mem) _ (by decide)
  have after {fs : List FuncDef} {ss : List Stmt} :
      ∀ f ∈ (fs.map funcForm ++ stmtForms ss).head?, ¬IsGroup "var" f := by
    intro f mem var
    rcases List.mem_append.1 (List.mem_of_mem_head? mem) with mem | mem
    · exact absurd (var.unique (isGroup_of_mem_funcForms f mem)) (by decide)
    · exact isBlock_of_mem_stmtForms f mem _ (by decide) var
  rw [programForms, programForms, List.append_assoc, List.append_assoc] at eq
  obtain ⟨vars, others⟩ := append_inj_of_sorts isGroup_of_mem_varForms isGroup_of_mem_varForms
    after after eq
  obtain ⟨funcs, stmts⟩ := append_inj_of_sorts isGroup_of_mem_funcForms isGroup_of_mem_funcForms
    stmts_head stmts_head others
  rw [Program.bare, Program.bare,
    map_inj_of (fun v hv v' hv' => varForm_inj (hp.vars v hv) (hq.vars v' hv')) vars,
    map_inj_of (fun f hf f' hf' => funcForm_inj (hp.funcs f hf) (hq.funcs f' hf')) funcs,
    stmtForms_inj _ _ hp.stmts hq.stmts stmts]

end Listing

open Listing in
/-- A program of known nodes has a listing, all groups of the listing are closed, and programs with
the same listing differ only in places. -/
theorem Program.listing_faithful {p q : Program} (hp : p.Listed) (hq : q.Listed) :
    (∃ text, p.listing? = some text ∧ Balanced text.toList) ∧
      (p.listing? = q.listing? → p.bare = q.bare) := by
  obtain ⟨text, lists, groups⟩ := listing_groups hp
  obtain ⟨text', lists', groups'⟩ := listing_groups hq
  refine ⟨⟨text, lists, ?_⟩, fun same => ?_⟩
  · have balanced : Balanced ('\n' :: text.toList) := by simpa using groups.balanced
    exact balanced.tail (by decide)
  · obtain rfl : text = text' := Option.some.inj (lists.symm.trans (same.trans lists'))
    have read := groups.spells.readText_eq.symm.trans groups'.spells.readText_eq
    exact programForms_inj hp hq (Except.ok.inj read)

/-- A checked program with an empty block, a clause behind it and an operator of each sort. -/
def counter (span : Span) : Program :=
  let n : Expr := .name span (some .int) "n" .slot
  let one : Expr := .literal ⟨span, some .int, .int, 1⟩
  { vars := [⟨span, "total", some .int, ⟨span, some .int, .int, -1⟩⟩]
    funcs := [{
      span
      name := "count"
      params := [⟨span, "n", some .int⟩]
      returns := some .bool
      locals := [⟨span, "done", some .bool, ⟨span, some .bool, .isFalse, 0⟩⟩]
      body := [
        .while span (.binary span (some .bool) .lt n one) [],
        .ret span (.unary span (some .bool) .not (.name span (some .bool) "done" .slot))] }]
    stmts := [
      .cond span (.call span (some .bool) "count" [.unary span (some .int) .neg one]) [.pass span] []
        [.assign span "total" .global (.binary span (some .int) .sub one one)]] }

example : (counter default).listing? = some (
    "(var total int -1:int)\n" ++
    "(def count (n:int) bool\n" ++
    "  (var done bool False:bool)\n" ++
    "  (while (< n@local:int 1:int):bool\n" ++
    "    ())\n" ++
    "  (return (not done@local:bool):bool))\n" ++
    "(if (call count (- 1:int):int):bool\n" ++
    "  (pass)\n" ++
    "  (else\n" ++
    "    (assign total@global (- 1:int 1:int):int)))\n") := by
  decide +kernel

theorem counter_listed (span : Span) : (counter span).Listed := by
  have names : ∀ x ∈ ["total", "count", "n", "done"],
      isIdentifier x = true ∧ Token.Kind.ofWord x = .name := by
    decide +kernel
  constructor
  · simp [counter, VarDecl.Listed, IsPlainName, names, Literal.Listed, LiteralKind.Known]
  · simp only [counter, List.mem_singleton, forall_eq]
    constructor <;>
      simp [VarDecl.Listed, IsPlainName, names, Literal.Listed, LiteralKind.Known, Stmt.AllIn,
        Stmt.All, Stmt.Listed, Expr.All, Expr.Listed, Scope.Known, BinaryOp.Known, UnaryOp.Known]
  · simp [counter, IsPlainName, names, Literal.Listed, LiteralKind.Known, Stmt.AllIn, Stmt.All,
      Stmt.AllInElifs, Stmt.Listed, Expr.All, Expr.AllIn, Expr.Listed, Scope.Known, BinaryOp.Known,
      UnaryOp.Known]

theorem counter_listing_faithful :
    let p := counter default
    let q := counter ⟨⟨1, 2⟩, ⟨3, 4⟩⟩
    p.Listed ∧ q.Listed ∧ (∃ text, p.listing? = some text ∧ Listing.Balanced text.toList) ∧
      (p.listing? = q.listing? → p.bare = q.bare) :=
  ⟨counter_listed _, counter_listed _,
    Program.listing_faithful (counter_listed _) (counter_listed _)⟩

end WordScript
