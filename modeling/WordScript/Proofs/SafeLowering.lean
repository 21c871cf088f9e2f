import WordScript.Proofs.RepresentationPoints

/-! Generated code keeps what words stand for.

The code of an expression pushes a word that stands for a value of its type. A call of `print` is of
type `None` and yields its argument, so this asks for a condition on the calls of `print` whose
value is used. -/
namespace WordScript

/-- Calls of `print` with arguments of some types only. -/
def Expr.PrintsOnly (d : Ty → Prop) : Expr → Prop
  | .call _ _ f args => f = "print" → ∀ a ∈ args, ∀ type, a.type = some type → d type
  | _ => True

/-- The condition on the calls of `print` whose value a statement uses. An expression that is a
statement of its own is not used. -/
def Stmt.PrintsOnly (d : Ty → Prop) : Stmt → Prop
  | .assign _ _ _ e => e.All (Expr.PrintsOnly d)
  | .expr _ (.call _ _ _ args) => Expr.AllIn (Expr.PrintsOnly d) args
  | .expr _ e => e.All (Expr.PrintsOnly d)
  | .ret _ e => e.All (Expr.PrintsOnly d)
  | .while _ test _ => test.All (Expr.PrintsOnly d)
  | .cond _ test _ clauses _ => test.All (Expr.PrintsOnly d) ∧
    ∀ span c body, .mk span c body ∈ clauses → c.All (Expr.PrintsOnly d)
  | _ => True

structure Program.PrintsOnly (d : Ty → Prop) (p : Program) : Prop where
  funcs : ∀ f ∈ p.funcs, Stmt.AllIn (fun _ => True) (Stmt.PrintsOnly d) f.body
  stmts : Stmt.AllIn (fun _ => True) (Stmt.PrintsOnly d) p.stmts

mutual

theorem Expr.all_of_forall (h : ∀ e, c e) : (e : Expr) → e.All c
  | .literal _ => h _
  | .name _ _ _ _ => h _
  | .call _ _ _ args => ⟨h _, Expr.allIn_of_forall h args⟩
  | .binary _ _ _ lhs rhs => ⟨h _, Expr.all_of_forall h lhs, Expr.all_of_forall h rhs⟩
  | .unary _ _ _ e => ⟨h _, Expr.all_of_forall h e⟩
  | .unknown _ _ => h _

theorem Expr.allIn_of_forall (h : ∀ e, c e) : (es : List Expr) → Expr.AllIn c es
  | [] => trivial
  | e :: rest => ⟨Expr.all_of_forall h e, Expr.allIn_of_forall h rest⟩

end

theorem Expr.printsOnly_true (e : Expr) : e.PrintsOnly fun _ => True := by
  cases e with
  | call _ _ _ _ => exact fun _ _ _ _ _ => trivial
  | _ => trivial

theorem Stmt.printsOnly_true (s : Stmt) : s.PrintsOnly fun _ => True := by
  have all := Expr.all_of_forall Expr.printsOnly_true
  cases s with
  | assign _ _ _ e => exact all e
  | expr _ e => cases e with
    | call _ _ _ args => exact Expr.allIn_of_forall Expr.printsOnly_true args
    | _ => exact all _
  | ret _ e => exact all e
  | «while» _ test _ => exact all test
  | cond _ test _ _ _ => exact ⟨all test, fun _ c _ _ => all c⟩
  | _ => trivial

theorem Program.printsOnly_true (ha : Rules.Annotated p) : p.PrintsOnly fun _ => True where
  funcs f hf := Stmt.AllIn.imp (fun _ _ => trivial) (fun s _ => s.printsOnly_true) _ (ha.funcs f hf)
  stmts := Stmt.AllIn.imp (fun _ _ => trivial) (fun s _ => s.printsOnly_true) _ ha.stmts

namespace StackCode

open Rules (HasType HaveTypes Carries CarriesScope)

section expressions

variable {r : Ty → Word → Prop} {p : Program} {place : Option FuncDef} {mode : Arithmetic}
  {d : Ty → Prop} {set : List String}
variable {type : Ty} {o : WordOp}

theorem represents_literal (hr : Represents r) (h : HasType p place (.literal l) type) :
    r type (BitVec.ofInt 32 l.encode) := by
  rw [Literal.ofInt_encode]
  cases h with
  | int _ => exact hr.int _
  | truth kind =>
    rcases kind with kind | kind
    · simpa [Meaning.literal, kind, Word.ofBool] using hr.truth true
    · simpa [Meaning.literal, kind, Word.ofBool] using hr.truth false
  | unit kind => simpa [Meaning.literal, kind] using hr.none

theorem access_safe (full : ∀ f, place = some f → Rules.slotNames f ⊆ set)
    (hb : Rules.Bound p place x type scope) (hp : (contextAt mode p place).place? x = some pl)
    (labels : List String) (st : Layout) :
    InstrSafe r p place labels set (.get pl x) st set (r type :: st) ∧
      ∃ set', InstrSafe r p place labels set (.set pl x) (r type :: st) set' st := by
  obtain ⟨pl', hs, hp'⟩ := place?_of_bound mode hb
  obtain rfl : pl = pl' := Option.some.inj (hp.symm.trans hp')
  cases hb with
  | slot within declared =>
    cases hs
    have ready := full _ within (mem_slotNames declared)
    exact ⟨.getSlot within declared ready fun _ h => h, _, .setSlot within declared fun _ h => h⟩
  | global mem declared visible =>
    cases hs
    exact ⟨.getGlobal mem declared fun _ h => h, _, .setGlobal mem declared fun _ h => h⟩

theorem comparison_eq {op : BinaryOp} (hop : op ∈ [.gt, .ge, .lt, .le] ∨ op ∈ [.eq, .ne] ∨ op = .is)
    (ho : op.wordOp? mode = some o) (hv : o.eval a b = .ok v) : ∃ t, v = Word.ofBool t := by
  cases op <;> first | cases ho <;> cases hv <;> exact ⟨_, rfl⟩ | simp at hop

/-- The result of an operator stands for a value of its type, whatever its operands are. -/
theorem represents_binary (hr : Represents r)
    (ht : HasType p place (.binary span t op lhs rhs) type) (ho : op.wordOp? mode = some o)
    (hv : o.eval a b = .ok v) : r type v := by
  have truth (hop : op ∈ [.gt, .ge, .lt, .le] ∨ op ∈ [.eq, .ne] ∨ op = .is) : r .bool v := by
    obtain ⟨t, rfl⟩ := comparison_eq hop ho hv
    exact hr.truth t
  cases ht with
  | arith => exact hr.int v
  | order op_mem => exact truth (.inl op_mem)
  | equality op_mem => exact truth (.inr (.inl op_mem))
  | identity => exact truth (.inr (.inr rfl))

theorem means_self (types : List Ty) : List.Forall₂ (Means r) types (types.map r) := by
  induction types with
  | nil => exact .nil
  | cons type types ih => exact .cons (fun _ h => h) ih

theorem constOp_safe {st : Layout}
    (result : ∀ x u, a x → o.eval x (BitVec.ofInt 32 v) = .ok u → c u) :
    CodeSafe r p place labels set [.const v, .op o] (a :: st) set (c :: st) := by
  refine .cons (.const (c := (· = BitVec.ofInt 32 v)) rfl) (.single (.op ?_))
  rintro x y u hx rfl hu
  exact result x u hx hu

theorem call_safe (hh : ∀ f ∈ p.funcs, f.name ∉ Rules.hostNames)
    (ht : HasType p place (.call span t f args) type) (ha : Expr.AllIn (Carries p place) args)
    (htarget : callTarget span f args = .ok target) (meets : f ≠ "print" → ∀ v, r type v → c v)
    (printed : f = "print" → type = .unit → ∀ a ∈ args, ∀ type', a.type = some type' → ∀ v, r type' v → c v)
    (labels : List String) (st : Layout) :
    ∃ types, HaveTypes p place args types ∧
      InstrSafe r p place labels set (.call target) ((types.map r).reverse ++ st) set (c :: st) := by
  cases ht with
  | @print _ _ e type arg =>
    obtain ⟨_, typed, printer⟩ := Simulation.printer_of_target htarget
    obtain ⟨type', typed', unique, -⟩ := ha.1.self
    obtain rfl := (unique type).1 arg
    cases typed'.symm.trans typed
    exact ⟨_, .cons arg .nil, .print printer (fun _ h => h)
      (printed rfl rfl e List.mem_cons_self _ typed)⟩
  | call callee types =>
    rw [callTarget_other (callee.ne_print hh)] at htarget
    cases htarget
    exact ⟨_, types, .call callee (means_self _) (meets (callee.ne_print hh))⟩

variable (hr : Represents r) (hd : ∀ type, d type → ∀ v, r type v → r .unit v)
  (hh : ∀ f ∈ p.funcs, f.name ∉ Rules.hostNames)
  (full : ∀ f, place = some f → Rules.slotNames f ⊆ set)
include hr hd hh full

mutual

theorem expr_safe :
    (e : Expr) → ∀ {type code}, HasType p place e type → e.All (Carries p place) →
      e.All (Expr.PrintsOnly d) → expr (contextAt mode p place) e = .ok code →
      ∀ labels st, CodeSafe r p place labels set code st set (r type :: st)
  | .literal l, _, code, ht, _, _, h, labels, st => by
    cases h
    exact .single (.const (represents_literal hr ht))
  | .name span t x sc, _, code, ht, _, _, h, labels, st => by
    obtain ⟨pl, hp, rfl⟩ := expr_name_ok.1 h
    cases ht with
    | name bound => exact .single (access_safe full bound (place_ok.1 hp).2 labels st).1
  | .unary span t op e, _, code, ht, ha, hp, h, labels, st => by
    obtain ⟨c, hc, rfl⟩ := expr_unary_ok.1 h
    cases ht with
    | neg operand =>
      refine (expr_safe e operand ha.2 hp.2 hc labels st).append ?_
      exact constOp_safe fun _ u _ _ => hr.int u
    | not operand =>
      refine (expr_safe e operand ha.2 hp.2 hc labels st).append ?_
      refine constOp_safe fun x u hx hu => ?_
      cases hu
      exact hr.negation x hx
  | .binary span t op lhs rhs, _, code, ht, ha, hp, h, labels, st => by
    obtain ⟨l, r', o, hl, hr', ho, rfl⟩ := expr_binary_ok.1 h
    obtain ⟨a, b, left, right, -⟩ := ht.operands
    have first := expr_safe lhs left ha.2.1 hp.2.1 hl labels st
    have second := expr_safe rhs right ha.2.2 hp.2.2 hr' labels (r a :: st)
    exact (first.append second).append
      (.single (.op fun _ _ _ _ _ hv => represents_binary hr ht ho hv))
  | .call span t f args, _, code, ht, ha, hp, h, labels, st => by
    obtain ⟨c, target, hc, htarget, rfl⟩ := expr_call_ok.1 h
    obtain ⟨types, given, called⟩ := call_safe hh (c := r _) ht ha.2 htarget (fun _ _ h => h)
      (fun print unit a mem type' typed => unit ▸ hd type' (hp.1 print a mem type' typed)) labels st
    exact (arguments_safe args given ha.2 hp.2 hc labels st).append (.single called)
  | .unknown span t, _, _, ht, _, _, _, _, _ => nomatch ht

theorem arguments_safe :
    (args : List Expr) → ∀ {types code}, HaveTypes p place args types →
      Expr.AllIn (Carries p place) args → Expr.AllIn (Expr.PrintsOnly d) args →
      arguments (contextAt mode p place) args = .ok code →
      ∀ labels st, CodeSafe r p place labels set code st set ((types.map r).reverse ++ st)
  | [], _, code, ht, _, _, h, labels, st => by
    cases ht
    cases h
    exact .nil
  | e :: rest, _, code, ht, ha, hp, h, labels, st => by
    obtain ⟨c, c', hc, hd', rfl⟩ := arguments_cons_ok.1 h
    cases ht with
    | @cons _ _ type types head tail =>
      have first := expr_safe e head ha.1 hp.1 hc labels st
      have others := arguments_safe rest tail ha.2 hp.2 hd' labels (r type :: st)
      rw [List.map_cons, List.reverse_cons, List.append_assoc]
      exact first.append others

end

end expressions

section statements

variable {r : Ty → Word → Prop} {p : Program} {place : Option FuncDef} {mode : Arithmetic}
  {d : Ty → Prop}

theorem loopPass_safe {set : List String} {cond : List Instr}
    (test : CodeSafe r p place (loopLabel n :: breakLabel n :: labels) set cond [] set [c])
    (inside : CodeSafe r p place (loopLabel n :: breakLabel n :: labels) set body [] set' []) :
    CodeSafe r p place (loopLabel n :: breakLabel n :: labels) set (loopPass n cond body) [] set'
      [] := by
  have leave : CodeSafe r p place (loopLabel n :: breakLabel n :: labels) set
      ([.const 1, .op .xor] ++ [.brIf (breakLabel n)]) [c] set [] :=
    (constOp_safe (c := fun _ => True) fun _ _ _ _ => trivial).append
      (.single (.brIf (List.mem_cons_of_mem _ List.mem_cons_self)))
  exact ((test.append leave).append inside).append (.single (.br List.mem_cons_self))

variable (hr : Represents r) (hd : ∀ type, d type → ∀ v, r type v → r .unit v)
  (hh : ∀ f ∈ p.funcs, f.name ∉ Rules.hostNames)
include hr hd hh

mutual

theorem stmt_safe :
    (s : Stmt) → ∀ {n code labels set}, (∀ f, place = some f → Rules.slotNames f ⊆ set) →
      Rules.StmtTyped p place s → s.All (Carries p place) (CarriesScope p place) →
      s.All (fun _ => True) (Stmt.PrintsOnly d) → stmt (contextAt mode p place) n s = .ok code →
      ∃ set', CodeSafe r p place labels set code [] set' []
  | .pass span, _, _, _, set, _, _, _, _, h => by
    cases h
    exact ⟨set, .single .nop⟩
  | .assign span x s e, _, _, labels, set, full, .assign target value, hc, hp, h => by
    obtain ⟨pl, c, hpl, he, rfl⟩ := stmt_assign_ok.1 h
    have safe := expr_safe hr hd hh full e value hc.2 hp.1 he labels []
    obtain ⟨-, set', stored⟩ := access_safe full target (place_ok.1 hpl).2 labels []
    exact ⟨set', safe.append (.single stored)⟩
  | .expr span e, _, _, labels, set, full, .expr value, hc, hp, h => by
    obtain ⟨c, he, rfl⟩ := stmt_expr_ok.1 h
    obtain ⟨cond, safe⟩ : ∃ cond, CodeSafe r p place labels set c [] set [cond] := by
      cases e with
      | call span' t f args =>
        obtain ⟨code, target, hcode, htarget, rfl⟩ := expr_call_ok.1 he
        obtain ⟨types, given, called⟩ := call_safe hh (c := fun _ => True) value hc.2.2 htarget
          (fun _ _ _ => trivial) (fun _ _ _ _ _ _ _ _ => trivial) labels []
        exact ⟨_, (arguments_safe hr hd hh full args given hc.2.2 hp.1 hcode labels []).append
          (.single called)⟩
      | _ => exact ⟨_, expr_safe hr hd hh full _ value hc.2 hp.1 he labels []⟩
    exact ⟨set, safe.append (.single .setScratch)⟩
  | .ret span e, _, _, labels, set, full, .ret within returns value, hc, hp, h => by
    obtain ⟨c, he, rfl⟩ := stmt_ret_ok.1 h
    have safe := expr_safe hr hd hh full e value hc.2 hp.1 he labels []
    exact ⟨set, safe.append (.single (.ret within returns fun _ h => h))⟩
  | .while span c body, n, _, labels, set, full, .while cond inside, hc, hp, h => by
    obtain ⟨test, code, he, hb, rfl⟩ := stmt_while_ok.1 h
    have safe := expr_safe hr hd hh full c cond hc.2.1 hp.1 he
      (loopLabel n :: breakLabel n :: labels) []
    obtain ⟨set', body_safe⟩ := stmts_safe body full inside hc.2.2 hp.2.2 hb
    exact ⟨set, .single (.block (.single (.loop (loopPass_safe safe body_safe))))⟩
  | .cond span c body clauses otherwise, _, _, labels, set, full,
      .cond cond inside clausesTyped last, hc, hp, h => by
    obtain ⟨test, thenArm, elseArm, he, hb, hr', rfl⟩ := stmt_cond_ok.1 h
    have safe := expr_safe hr hd hh full c cond hc.2.1 hp.1.1 he labels []
    obtain ⟨_, yes⟩ := stmts_safe body full inside hc.2.2.1 hp.2.2.1 hb
    obtain ⟨_, no⟩ := elifs_safe clauses full clausesTyped hc.2.2.2.1 hp.1.2
      hp.2.2.2.1
      (fun ho => stmts_safe otherwise full last hc.2.2.2.2 hp.2.2.2.2 ho) hr'
    exact ⟨set, safe.append (.single (.cond yes no))⟩
  | .unknown span, _, _, _, _, _, h, _, _, _ => nomatch h

theorem stmts_safe :
    (ss : List Stmt) → ∀ {n code labels set}, (∀ f, place = some f → Rules.slotNames f ⊆ set) →
      Rules.BlockTyped p place ss → Stmt.AllIn (Carries p place) (CarriesScope p place) ss →
      Stmt.AllIn (fun _ => True) (Stmt.PrintsOnly d) ss →
      stmts (contextAt mode p place) n ss = .ok code →
      ∃ set', CodeSafe r p place labels set code [] set' []
  | [], _, _, _, set, _, _, _, _, h => by
    cases h
    exact ⟨set, .nil⟩
  | s :: rest, _, _, labels, set, full, .cons head tail, hc, hp, h => by
    obtain ⟨first, others, hf, ho, rfl⟩ := stmts_cons_ok.1 h
    obtain ⟨set₁, one⟩ : ∃ set₁, CodeSafe r p place labels set first [] set₁ [] :=
      stmt_safe s full head hc.1 hp.1 hf
    have full' : ∀ f, place = some f → Rules.slotNames f ⊆ set₁ :=
      fun f hf _ hx => one.grows (full f hf hx)
    obtain ⟨set₂, more⟩ := stmts_safe rest full' tail hc.2 hp.2 ho
    exact ⟨set₂, one.append more⟩

theorem elifs_safe :
    (es : List Elif) → ∀ {n code labels set last},
      (∀ f, place = some f → Rules.slotNames f ⊆ set) → Rules.ClausesTyped p place es →
      Stmt.AllInElifs (Carries p place) (CarriesScope p place) es →
      (∀ span c body, .mk span c body ∈ es → c.All (Expr.PrintsOnly d)) →
      Stmt.AllInElifs (fun _ => True) (Stmt.PrintsOnly d) es →
      (∀ {code}, last = .ok code → ∃ set', CodeSafe r p place labels set code [] set' []) →
      elifs (contextAt mode p place) n last es = .ok code →
      ∃ set', CodeSafe r p place labels set code [] set' []
  | [], _, _, _, _, _, _, _, _, _, _, hl, h => hl h
  | .mk span c body :: rest, _, _, labels, set, _, full, .cons cond inside tail, hc, ht, hp, hl,
      h => by
    obtain ⟨test, thenArm, elseArm, he, hb, hr', rfl⟩ := elifs_cons_ok.1 h
    have safe := expr_safe hr hd hh full c cond hc.1 (ht _ _ _ List.mem_cons_self) he labels []
    obtain ⟨_, yes⟩ := stmts_safe body full inside hc.2.1 hp.2.1 hb
    obtain ⟨_, no⟩ := elifs_safe rest full tail hc.2.2
      (fun _ _ _ mem => ht _ _ _ (List.mem_cons_of_mem _ mem)) hp.2.2 hl hr'
    exact ⟨set, safe.append (.single (.cond yes no))⟩

end

end statements

section programs

variable {r : Ty → Word → Prop} {p : Program} {mode : Arithmetic} {d : Ty → Prop}

theorem inits_safe (hr : Represents r) (vs : List VarDecl) (mem : ∀ v ∈ vs, v ∈ f.locals)
    (inits : ∀ v ∈ vs, Rules.Initialized p v) (set : List String) :
    ∃ set', CodeSafe r p (some f) [] set (vs.flatMap initCode) [] set' [] ∧
      ∀ v ∈ vs, v.name ∈ set' := by
  induction vs generalizing set with
  | nil => exact ⟨set, .nil, nofun⟩
  | cons v vs ih =>
    obtain ⟨type, declared, literal⟩ := inits v List.mem_cons_self
    obtain ⟨set', rest, named⟩ := ih (fun u hu => mem u (List.mem_cons_of_mem _ hu))
      (fun u hu => inits u (List.mem_cons_of_mem _ hu)) (v.name :: set)
    have first : CodeSafe r p (some f) [] set (initCode v) [] (v.name :: set) [] :=
      .cons (.const (represents_literal hr literal))
        (.single (.setSlot rfl (.var (mem v List.mem_cons_self) declared) fun _ h => h))
    refine ⟨set', first.append rest, fun u hu => ?_⟩
    rcases List.mem_cons.1 hu with rfl | hu
    · exact rest.grows List.mem_cons_self
    · exact named u hu

theorem represents_default (hr : Represents r) (type : Ty) :
    r type (BitVec.ofInt 32 (defaultValue (some type))) := by
  cases type with
  | int => exact hr.int _
  | bool => exact hr.truth false
  | unit => exact hr.none

/-- The code of a function after its initial values, with what it yields at its end. -/
def bodyCode (f : FuncDef) (body : List Instr) : List Instr :=
  body ++ [.const (defaultValue f.returns)]

theorem funcOf_body (f : FuncDef) (body : List Instr) :
    (funcOf f body).body = f.locals.flatMap initCode ++ bodyCode f body := by
  rw [funcOf, bodyCode, List.append_assoc]

/-- The code of a function sets all slots and then runs its body. -/
structure FuncSafe (r : Ty → Word → Prop) (p : Program) (f : FuncDef) (body : List Instr) (type : Ty)
    (set set' : List String) : Prop where
  inits : CodeSafe r p (some f) [] (f.params.map (·.name)) (f.locals.flatMap initCode) [] set []
  full : Rules.slotNames f ⊆ set
  body : CodeSafe r p (some f) [] set (bodyCode f body) [] set' [r type]

variable (hr : Represents r) (hd : ∀ type, d type → ∀ v, r type v → r .unit v)
  (hw : Rules.WellTyped p) (ha : Rules.Annotated p) (hp : p.PrintsOnly d)
include hr hd hw ha hp

theorem func_safe (hf : f ∈ p.funcs) (returns : f.returns = some type)
    (hb : stmts (contextAt mode p (some f)) 0 f.body = .ok body) :
    ∃ set set', FuncSafe r p f body type set set' := by
  obtain ⟨set, inits, named⟩ := inits_safe hr f.locals (fun _ h => h) (hw.funcs f hf).inits
    (f.params.map (·.name))
  have full : Rules.slotNames f ⊆ set := by
    intro x hx
    rcases List.mem_append.1 hx with hx | hx
    · exact inits.grows hx
    · obtain ⟨v, hv, rfl⟩ := List.mem_map.1 hx
      exact named v hv
  obtain ⟨set', safe⟩ := stmts_safe hr hd hw.notHost f.body (fun _ h => Option.some.inj h ▸ full)
    (hw.funcs f hf).body (ha.funcs f hf) (hp.funcs f hf) hb
  refine ⟨set, set', inits, full, safe.append (.single (.const ?_))⟩
  rw [returns]
  exact represents_default hr type

theorem start_safe (hc : stmts (contextAt mode p none) 0 p.stmts = .ok code) :
    ∃ set after, CodeSafe r p none [] [] (startOf p.stmts code).body [] set after := by
  have full : ∀ f, (none : Option FuncDef) = some f → Rules.slotNames f ⊆ [] := nofun
  obtain ⟨set, safe⟩ := stmts_safe hr hd hw.notHost p.stmts full hw.stmts ha.stmts hp.stmts hc
  rw [startOf]
  split
  · exact ⟨set, _, safe.append (.single .getScratch)⟩
  · exact ⟨set, _, safe.append .nil⟩

end programs

end StackCode
end WordScript
