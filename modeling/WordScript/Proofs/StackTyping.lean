import Mathlib
import WordScript.Proofs.Storage

/-! Generated modules are valid.

Stack code is typed by the number of words it takes from the stack and leaves there. All values
are words of 32 bits, so a number is a whole stack type. The code inside a block, a loop or an arm
of a conditional starts and ends with an empty stack of its own, and what follows a return or a
branch may assume any stack. -/
namespace WordScript
namespace StackCode

/-- What the code of a function may refer to. -/
structure Surroundings where
  globals : List String
  /-- The functions with the number of their parameters and whether they have a result. -/
  funcs : List (String × Nat × Bool)
  slots : List String
  /-- The number of words that the function returns. -/
  results : Nat

mutual

/-- The words that an instruction takes and leaves, inside the blocks and loops of the labels. -/
inductive InstrTyped (s : Surroundings) :
    (labels : List String) → Instr → (takes leaves : Nat) → Prop
  | nop {labels : List String} : InstrTyped s labels .nop 0 0
  | const {labels : List String} {v : Int} : InstrTyped s labels (.const v) 0 1
  | getSlot {labels : List String} {x : String} (mem : x ∈ s.slots) :
      InstrTyped s labels (.get .slot x) 0 1
  | getGlobal {labels : List String} {x : String} (mem : x ∈ s.globals) :
      InstrTyped s labels (.get .global x) 0 1
  | setSlot {labels : List String} {x : String} (mem : x ∈ s.slots) :
      InstrTyped s labels (.set .slot x) 1 0
  | setGlobal {labels : List String} {x : String} (mem : x ∈ s.globals) :
      InstrTyped s labels (.set .global x) 1 0
  | op {labels : List String} {o : WordOp} : InstrTyped s labels (.op o) 2 1
  | call {labels : List String} {f : String} {params : Nat} {result : Bool}
      (mem : (f, params, result) ∈ s.funcs) :
      InstrTyped s labels (.call f) params result.toNat
  /-- What follows a return never runs. -/
  | ret {labels : List String} {below leaves : Nat} :
      InstrTyped s labels .ret (below + s.results) leaves
  /-- What follows a branch never runs. -/
  | br {labels : List String} {l : String} {takes leaves : Nat} (mem : l ∈ labels) :
      InstrTyped s labels (.br l) takes leaves
  | brIf {labels : List String} {l : String} (mem : l ∈ labels) :
      InstrTyped s labels (.brIf l) 1 0
  | block {labels : List String} {l : String} {body : List Instr}
      (inside : CodeTyped s (l :: labels) body 0 0) : InstrTyped s labels (.block l body) 0 0
  | loop {labels : List String} {l : String} {body : List Instr}
      (inside : CodeTyped s (l :: labels) body 0 0) : InstrTyped s labels (.loop l body) 0 0
  | cond {labels : List String} {thenArm elseArm : List Instr}
      (yes : CodeTyped s labels thenArm 0 0) (no : CodeTyped s labels elseArm 0 0) :
      InstrTyped s labels (.cond thenArm elseArm) 1 0

/-- The heights of the stack before and after a sequence. An instruction leaves alone what lies
below the words it takes. -/
inductive CodeTyped (s : Surroundings) :
    (labels : List String) → List Instr → (before after : Nat) → Prop
  | nil {labels : List String} {height : Nat} : CodeTyped s labels [] height height
  | cons {labels : List String} {i : Instr} {rest : List Instr} {takes leaves below after : Nat}
      (head : InstrTyped s labels i takes leaves)
      (tail : CodeTyped s labels rest (below + leaves) after) :
      CodeTyped s labels (i :: rest) (below + takes) after

end

mutual

/-- The labels of the blocks and loops in an instruction, in the order they are written in. -/
def labelsOf : Instr → List String
  | .block l body => l :: labelsIn body
  | .loop l body => l :: labelsIn body
  | .cond thenArm elseArm => labelsIn thenArm ++ labelsIn elseArm
  | _ => []

def labelsIn : List Instr → List String
  | [] => []
  | i :: rest => labelsOf i ++ labelsIn rest

end

def surroundings (m : Module Instr) (f : Func Instr) : Surroundings where
  globals := m.globals.map (·.1)
  funcs := Builtin.imports.map (fun i => (i.1, i.2, true))
    ++ m.funcs.map fun g => (g.name, g.params.length, g.result)
  slots := f.params ++ f.locals
  results := f.result.toNat

/-- A valid function: its code starts on an empty stack and ends with the result alone, and its
slots and its labels are distinct. -/
structure FuncValid (m : Module Instr) (f : Func Instr) : Prop where
  code : CodeTyped (surroundings m f) [] f.body 0 f.result.toNat
  slots : (f.params ++ f.locals).Nodup
  labels : (labelsIn f.body).Nodup

theorem CodeTyped.append (hx : CodeTyped s labels xs a b) (hy : CodeTyped s labels ys b c) :
    CodeTyped s labels (xs ++ ys) a c := by
  induction xs generalizing a with
  | nil =>
    cases hx
    exact hy
  | cons i rest ih => cases hx with
    | cons head tail => exact .cons head (ih tail)

theorem CodeTyped.single (h : InstrTyped s labels i takes leaves) (below : Nat) :
    CodeTyped s labels [i] (below + takes) (below + leaves) := .cons h .nil

theorem labelsIn_append (xs ys : List Instr) :
    labelsIn (xs ++ ys) = labelsIn xs ++ labelsIn ys := by
  induction xs with
  | nil => rfl
  | cons i rest ih => simp [labelsIn, ih]

/-- Surroundings that have what is declared at a place of a program. -/
structure Provides (s : Surroundings) (p : Program) (place : Option FuncDef) : Prop where
  globals : ∀ v ∈ p.vars, v.name ∈ s.globals
  slots : ∀ f, place = some f → ∀ x ∈ Rules.slotNames f, x ∈ s.slots
  scratch : scratch ∈ s.slots
  host : ∀ i ∈ Builtin.imports, (i.1, i.2, true) ∈ s.funcs
  user : ∀ f ∈ p.funcs, (f.name, f.params.length, true) ∈ s.funcs
  results : ∀ f, place = some f → s.results = 1

section typing

variable {s : Surroundings} {p : Program} {place : Option FuncDef} {mode : Arithmetic}
variable {span : Span}

theorem get_typed (hs : Provides s p place)
    (h : (contextAt mode p place).place span x scope = .ok pl) (labels : List String) :
    InstrTyped s labels (.get pl x) 0 1 ∧ InstrTyped s labels (.set pl x) 1 0 := by
  have hp := (place_ok.1 h).2
  rw [Context.place?] at hp
  split at hp
  · rename_i hx
    cases hp
    have mem : x ∈ s.slots := by
      cases place with
      | none => simp [contextAt] at hx
      | some f => exact hs.slots f rfl x (by simpa [contextAt] using hx)
    exact ⟨.getSlot mem, .setSlot mem⟩
  · split at hp
    · rename_i hx
      cases hp
      have mem : x ∈ s.globals := by
        obtain ⟨v, hv, rfl⟩ := List.mem_map.1 (List.contains_iff_mem.1 hx)
        exact hs.globals v hv
      exact ⟨.getGlobal mem, .setGlobal mem⟩
    · cases hp

theorem callable_mem (hs : Provides s p place) (h : Rules.Callable p f types result) :
    (f, types.length, true) ∈ s.funcs := by
  cases h with
  | abs => exact hs.host ("abs", 1) (by decide)
  | max => exact hs.host ("max", 2) (by decide)
  | min => exact hs.host ("min", 2) (by decide)
  | pow => exact hs.host ("pow", 2) (by decide)
  | @user g _ _ mem params returns =>
    have hl : types.length = g.params.length := by
      simpa using (congrArg List.length params).symm
    rw [hl]
    exact hs.user _ mem

theorem printer_mem (hs : Provides s p place) (h : callTarget span "print" [e] = .ok target) :
    (target, 1, true) ∈ s.funcs := by
  rw [callTarget, if_pos rfl] at h
  cases ht : e.type with
  | none => simp [ht, printer?, fault] at h
  | some type =>
    cases type <;> simp only [ht, printer?, Except.ok.injEq] at h <;> subst h
    · exact hs.host ("print_num", 1) (by decide)
    · exact hs.host ("print_bool", 1) (by decide)
    · exact hs.host ("print_none", 1) (by decide)

theorem unaryCode_typed (h : Rules.HasType p place (.unary span t op e) type) (labels : List String)
    (height : Nat) : CodeTyped s labels (unaryCode op) (height + 1) (height + 1) := by
  have constant : ∀ (v : Int) (o : WordOp),
      CodeTyped s labels [.const v, .op o] (height + 1) (height + 1) :=
    fun v o => (CodeTyped.single (.const) (height + 1)).append (.single .op height)
  cases h with
  | neg _ => exact constant _ _
  | not _ => exact constant _ _

section

variable (hs : Provides s p place) (hh : ∀ f ∈ p.funcs, f.name ∉ Rules.hostNames)
  (labels : List String)
include hs hh labels

mutual

theorem expr_typed :
    (e : Expr) → ∀ {type code}, Rules.HasType p place e type →
      expr (contextAt mode p place) e = .ok code →
      ∀ height, CodeTyped s labels code height (height + 1)
  | .literal l, _, code, _, h, height => by
    cases h
    exact .single .const height
  | .name span t x sc, _, code, _, h, height => by
    obtain ⟨pl, hp, rfl⟩ := expr_name_ok.1 h
    exact .single (get_typed hs hp labels).1 height
  | .unary span t op e, _, code, ht, h, height => by
    obtain ⟨c, hc, rfl⟩ := expr_unary_ok.1 h
    obtain ⟨a, ha⟩ := ht.operand
    exact (expr_typed e ha hc height).append (unaryCode_typed ht labels height)
  | .binary span t op lhs rhs, _, code, ht, h, height => by
    obtain ⟨l, r, o, hl, hr, -, rfl⟩ := expr_binary_ok.1 h
    obtain ⟨a, b, ha, hb, -⟩ := ht.operands
    have left := expr_typed lhs ha hl height
    have right := expr_typed rhs hb hr (height + 1)
    exact (left.append right).append (.single .op height)
  | .call span t f args, _, code, ht, h, height => by
    obtain ⟨c, target, hc, htarget, rfl⟩ := expr_call_ok.1 h
    cases ht with
    | print arg =>
      have given := arguments_typed _ (.cons arg .nil) hc height
      exact given.append (.single (.call (printer_mem hs htarget)) height)
    | call callee types =>
      have given := arguments_typed args types hc height
      rw [callTarget_other (callee.ne_print hh)] at htarget
      cases htarget
      rw [types.length_eq] at given
      exact given.append (.single (.call (callable_mem hs callee)) height)
  | .unknown span t, _, _, ht, _, _ => nomatch ht

theorem arguments_typed :
    (args : List Expr) → ∀ {types code}, Rules.HaveTypes p place args types →
      arguments (contextAt mode p place) args = .ok code →
      ∀ height, CodeTyped s labels code height (height + args.length)
  | [], _, code, _, h, height => by
    cases h
    exact .nil
  | e :: rest, _, code, .cons head tail, h, height => by
    obtain ⟨c, d, hc, hd, rfl⟩ := arguments_cons_ok.1 h
    have first := expr_typed e head hc height
    have others := arguments_typed rest tail hd (height + 1)
    rw [Nat.add_assoc, Nat.add_comm 1] at others
    exact first.append others

end

end

/-- Code that leaves the stack as it was, at every height. -/
def Neutral (s : Surroundings) (labels : List String) (code : List Instr) : Prop :=
  ∀ height, CodeTyped s labels code height height

theorem loopPass_typed {cond : List Instr} (hb : breakLabel n ∈ labels) (hl : loopLabel n ∈ labels)
    (hcond : ∀ height, CodeTyped s labels cond height (height + 1)) (hbody : Neutral s labels body) :
    CodeTyped s labels (loopPass n cond body) 0 0 := by
  have negated : CodeTyped s labels [.const 1, .op .xor, .brIf (breakLabel n)] 1 0 :=
    ((CodeTyped.single .const 1).append (.single .op 0)).append (.single (.brIf hb) 0)
  have again : CodeTyped s labels [.br (loopLabel n)] (0 + 0) (0 + 0) := .single (.br hl) 0
  exact (((hcond 0).append negated).append (hbody 0)).append again

theorem cond_typed {cond : List Instr}
    (hcond : ∀ height, CodeTyped s labels cond height (height + 1))
    (hthen : Neutral s labels thenArm) (helse : Neutral s labels elseArm) :
    Neutral s labels (cond ++ [.cond thenArm elseArm]) :=
  fun height => (hcond height).append (.single (.cond (hthen 0) (helse 0)) height)

variable (hs : Provides s p place) (hh : ∀ f ∈ p.funcs, f.name ∉ Rules.hostNames)
include hs hh

mutual

theorem stmt_typed :
    (st : Stmt) → ∀ {n code labels}, Rules.StmtTyped p place st →
      stmt (contextAt mode p place) n st = .ok code → Neutral s labels code
  | .pass span, _, code, labels, _, h => by
    cases h
    exact CodeTyped.single .nop
  | .assign span x sc e, _, code, labels, .assign _ value, h => by
    obtain ⟨pl, c, hp, hc, rfl⟩ := stmt_assign_ok.1 h
    exact fun height => (expr_typed hs hh labels e value hc height).append
      (.single (get_typed hs hp labels).2 height)
  | .expr span e, _, code, labels, .expr value, h => by
    obtain ⟨c, hc, rfl⟩ := stmt_expr_ok.1 h
    exact fun height => (expr_typed hs hh labels e value hc height).append
      (.single (.setSlot hs.scratch) height)
  | .ret span e, _, code, labels, .ret within _ value, h => by
    obtain ⟨c, hc, rfl⟩ := stmt_ret_ok.1 h
    intro height
    have leave : CodeTyped s labels [.ret] (0 + (height + s.results)) (0 + height) :=
      .single .ret 0
    rw [hs.results _ within, Nat.zero_add, Nat.zero_add] at leave
    exact (expr_typed hs hh labels e value hc height).append leave
  | .while span c body, n, code, labels, .while cond inside, h => by
    obtain ⟨condCode, bodyCode, hc, hb, rfl⟩ := stmt_while_ok.1 h
    have hcond := expr_typed hs hh (loopLabel n :: breakLabel n :: labels) c cond hc
    have hbody : Neutral s (loopLabel n :: breakLabel n :: labels) bodyCode :=
      block_typed body inside hb
    exact CodeTyped.single (.block (.single (.loop
      (loopPass_typed (by simp) (by simp) hcond hbody)) 0))
  | .cond span c body clauses otherwise, n, code, labels, .cond cond inside elifsTyped last, h => by
    obtain ⟨condCode, thenArm, elseArm, hc, ht, he, rfl⟩ := stmt_cond_ok.1 h
    exact cond_typed (expr_typed hs hh labels c cond hc) (block_typed body inside ht)
      (clauses_typed clauses elifsTyped
        (fun hlast => block_typed otherwise last hlast) he)
  | .unknown span, _, _, _, ht, _ => nomatch ht

theorem block_typed :
    (ss : List Stmt) → ∀ {n code labels}, Rules.BlockTyped p place ss →
      stmts (contextAt mode p place) n ss = .ok code → Neutral s labels code
  | [], _, code, labels, _, h => by
    cases h
    exact fun height => .nil
  | st :: rest, n, code, labels, .cons head tail, h => by
    obtain ⟨first, others, hf, ho, rfl⟩ := stmts_cons_ok.1 h
    exact fun height => (stmt_typed st head hf height).append
      (block_typed rest tail ho height)

theorem clauses_typed :
    (es : List Elif) → ∀ {n code labels last}, Rules.ClausesTyped p place es →
      (∀ {lastCode}, last = .ok lastCode → Neutral s labels lastCode) →
      elifs (contextAt mode p place) n last es = .ok code → Neutral s labels code
  | [], _, code, labels, last, _, hlast, h => hlast h
  | .mk span c body :: rest, n, code, labels, last, .cons cond inside tail, hlast, h => by
    obtain ⟨condCode, thenArm, elseArm, hc, ht, he, rfl⟩ := elifs_cons_ok.1 h
    exact cond_typed (expr_typed hs hh labels c cond hc) (block_typed body inside ht)
      (clauses_typed rest tail hlast he)

end

end typing

theorem breakLabel_inj : breakLabel m = breakLabel n ↔ m = n := by
  rw [breakLabel, breakLabel, String.append_right_inj]
  exact Nat.repr_inj

theorem loopLabel_inj : loopLabel m = loopLabel n ↔ m = n := by
  rw [loopLabel, loopLabel, String.append_right_inj]
  exact Nat.repr_inj

theorem breakLabel_ne_loopLabel (m n : Nat) : breakLabel m ≠ loopLabel n := by
  intro h
  have := congrArg String.toList h
  simp [breakLabel, loopLabel] at this

/-- The labels of `count` loops that are numbered from `n` on. -/
def labelsFrom (n count : Nat) : List String :=
  (List.range' n count).flatMap fun k => [breakLabel k, loopLabel k]

theorem labelsFrom_add (n a b : Nat) :
    labelsFrom n a ++ labelsFrom (n + a) b = labelsFrom n (a + b) := by
  rw [labelsFrom, labelsFrom, labelsFrom, ← List.flatMap_append, List.range'_append_1]

theorem labelsFrom_succ (n a : Nat) :
    breakLabel n :: loopLabel n :: labelsFrom (n + 1) a = labelsFrom n (a + 1) := by
  rw [labelsFrom, labelsFrom, List.range'_succ]
  rfl

theorem labelsFrom_nodup (n count : Nat) : (labelsFrom n count).Nodup := by
  rw [labelsFrom, List.nodup_flatMap]
  constructor
  · intro k _
    simp [breakLabel_ne_loopLabel]
  · refine List.Pairwise.imp ?_ List.nodup_range'
    intro i j hij
    simp [Function.onFun, List.disjoint_left, breakLabel_inj, loopLabel_inj, hij,
      breakLabel_ne_loopLabel, (breakLabel_ne_loopLabel _ _).symm]

section labels

variable {ctx : Context}

mutual

theorem expr_labels : (e : Expr) → ∀ {code}, expr ctx e = .ok code → labelsIn code = []
  | .literal l, code, h => by
    cases h
    rfl
  | .name span t x s, code, h => by
    obtain ⟨pl, -, rfl⟩ := expr_name_ok.1 h
    rfl
  | .unary span t op e, code, h => by
    obtain ⟨c, hc, rfl⟩ := expr_unary_ok.1 h
    rw [labelsIn_append, expr_labels e hc]
    cases op <;> rfl
  | .binary span t op lhs rhs, code, h => by
    obtain ⟨l, r, o, hl, hr, -, rfl⟩ := expr_binary_ok.1 h
    rw [labelsIn_append, labelsIn_append, expr_labels lhs hl, expr_labels rhs hr]
    rfl
  | .call span t f args, code, h => by
    obtain ⟨c, target, hc, -, rfl⟩ := expr_call_ok.1 h
    rw [labelsIn_append, arguments_labels args hc]
    rfl
  | .unknown span t, code, h => by
    cases h

theorem arguments_labels :
    (args : List Expr) → ∀ {code}, arguments ctx args = .ok code → labelsIn code = []
  | [], code, h => by
    cases h
    rfl
  | e :: rest, code, h => by
    obtain ⟨c, d, hc, hd, rfl⟩ := arguments_cons_ok.1 h
    rw [labelsIn_append, expr_labels e hc, arguments_labels rest hd]
    rfl

end

theorem labelsIn_cond {cond : List Instr} (h : labelsIn cond = []) :
    labelsIn (cond ++ [.cond thenArm elseArm]) = labelsIn thenArm ++ labelsIn elseArm := by
  simp [labelsIn_append, h, labelsIn, labelsOf]

mutual

theorem stmt_labels : (s : Stmt) → ∀ {n code}, stmt ctx n s = .ok code →
    labelsIn code = labelsFrom n (loops s)
  | .pass span, _, code, h => by
    cases h
    rfl
  | .assign span x s e, _, code, h => by
    obtain ⟨pl, c, -, hc, rfl⟩ := stmt_assign_ok.1 h
    rw [labelsIn_append, expr_labels e hc]
    rfl
  | .expr span e, _, code, h => by
    obtain ⟨c, hc, rfl⟩ := stmt_expr_ok.1 h
    rw [labelsIn_append, expr_labels e hc]
    rfl
  | .ret span e, _, code, h => by
    obtain ⟨c, hc, rfl⟩ := stmt_ret_ok.1 h
    rw [labelsIn_append, expr_labels e hc]
    rfl
  | .while span c body, n, code, h => by
    obtain ⟨cond, inside, hc, hb, rfl⟩ := stmt_while_ok.1 h
    have hbody := block_labels body hb
    rw [loops, ← labelsFrom_succ, ← hbody]
    simp [labelsIn, labelsOf, loopPass, labelsIn_append, expr_labels c hc]
  | .cond span c body clauses otherwise, n, code, h => by
    obtain ⟨cond, thenArm, elseArm, hc, ht, he, rfl⟩ := stmt_cond_ok.1 h
    have hbody := block_labels body ht
    have helse := clauses_labels clauses (fun hl => block_labels otherwise hl) he
    rw [labelsIn_cond (expr_labels c hc), hbody, helse, labelsFrom_add, loops,
      Nat.add_assoc]
  | .unknown span, _, code, h => by
    cases h

theorem block_labels : (ss : List Stmt) → ∀ {n code}, stmts ctx n ss = .ok code →
    labelsIn code = labelsFrom n (loopsIn ss)
  | [], _, code, h => by
    cases h
    rfl
  | s :: rest, n, code, h => by
    obtain ⟨first, others, hf, ho, rfl⟩ := stmts_cons_ok.1 h
    rw [labelsIn_append, stmt_labels s hf, block_labels rest ho, labelsFrom_add, loopsIn]

theorem clauses_labels : (es : List Elif) → ∀ {n last lastLoops code},
    (∀ {lastCode}, last = .ok lastCode →
      labelsIn lastCode = labelsFrom (n + loopsInElifs es) lastLoops) →
    elifs ctx n last es = .ok code → labelsIn code = labelsFrom n (loopsInElifs es + lastLoops)
  | [], n, last, lastLoops, code, hlast, h => by
    simpa [loopsInElifs] using hlast h
  | .mk span c body :: rest, n, last, lastLoops, code, hlast, h => by
    obtain ⟨cond, thenArm, elseArm, hc, ht, he, rfl⟩ := elifs_cons_ok.1 h
    have hbody := block_labels body ht
    have hrest := clauses_labels rest (fun hl => by
      rw [hlast hl, loopsInElifs, loopsInElif, Nat.add_assoc]) he
    rw [labelsIn_cond (expr_labels c hc), hbody, hrest, labelsFrom_add, loopsInElifs, loopsInElif,
      Nat.add_assoc]

end

end labels

section modules

variable {p : Program} {mode : Arithmetic} {gs : List (Func Instr)} {startCode : List Instr}

theorem inits_typed {vs : List VarDecl} (h : ∀ v ∈ vs, v.name ∈ s.slots) :
    Neutral s labels (vs.flatMap initCode) := by
  intro height
  induction vs with
  | nil => exact .nil
  | cons v rest ih =>
    have first : CodeTyped s labels (initCode v) height height :=
      (CodeTyped.single .const height).append (.single (.setSlot (h v List.mem_cons_self)) height)
    rw [List.flatMap_cons]
    exact first.append (ih fun u hu => h u (List.mem_cons_of_mem _ hu))

theorem labelsIn_inits (vs : List VarDecl) : labelsIn (vs.flatMap initCode) = [] := by
  induction vs with
  | nil => rfl
  | cons v rest ih =>
    rw [List.flatMap_cons, labelsIn_append, ih]
    rfl

section

variable (h : List.Forall₂ (fun f g => funcDef (contextAt mode p none) f = .ok g) p.funcs gs)
include h

theorem funcDefs_signatures :
    gs.map (fun g => (g.name, g.params.length, g.result)) =
      p.funcs.map fun f => (f.name, f.params.length, true) := by
  refine forall₂_map_eq _ _ h fun f _ g hg => ?_
  obtain ⟨body, -, rfl⟩ := funcDef_ok.1 hg
  simp [funcOf]

theorem funcDefs_names : gs.map (·.name) = p.funcs.map (·.name) := by
  simpa [Function.comp_def] using congrArg (List.map (·.1)) (funcDefs_signatures h)

theorem provides_surroundings (hscratch : scratch ∈ g.locals)
    (hslots : ∀ f, place = some f → g.result = true ∧ ∀ x ∈ Rules.slotNames f, x ∈ g.params ++ g.locals) :
    Provides (surroundings ⟨globalsOf p, gs, some (startOf p.stmts startCode)⟩ g) p place where
  globals v hv := by
    simpa [surroundings, globalsOf] using ⟨v, hv, rfl⟩
  slots f hf := (hslots f hf).2
  scratch := List.mem_append_right _ hscratch
  host i hi := List.mem_append_left _ (List.mem_map.2 ⟨i, hi, rfl⟩)
  user f hf := by
    rw [surroundings, funcDefs_signatures h]
    exact List.mem_append_right _ (List.mem_map.2 ⟨f, hf, rfl⟩)
  results f hf := by
    rw [surroundings, (hslots f hf).1]
    rfl

end

variable (hw : Rules.WellTyped p)
include hw

section

variable (h : List.Forall₂ (fun f g => funcDef (contextAt mode p none) f = .ok g) p.funcs gs)
include h

theorem funcOf_typed (hf : f ∈ p.funcs) (hb : stmts (contextAt mode p (some f)) 0 f.body = .ok body) :
    CodeTyped (surroundings ⟨globalsOf p, gs, some (startOf p.stmts startCode)⟩ (funcOf f body)) []
      (funcOf f body).body 0 1 := by
  have hp : Provides (surroundings ⟨globalsOf p, gs, some (startOf p.stmts startCode)⟩
      (funcOf f body)) p (some f) := by
    refine provides_surroundings h List.mem_cons_self ?_
    rintro _ ⟨⟩
    refine ⟨rfl, fun x hx => ?_⟩
    rcases List.mem_append.1 hx with hx | hx
    · exact List.mem_append_left _ hx
    · exact List.mem_append_right _ (List.mem_cons_of_mem _ hx)
  have declared : ∀ v ∈ f.locals, v.name ∈ Rules.slotNames f := fun v hv =>
    List.mem_append_right _ (List.mem_map.2 ⟨v, hv, rfl⟩)
  exact ((inits_typed (fun v hv => hp.slots f rfl _ (declared v hv)) 0).append
    (block_typed hp hw.notHost f.body (hw.funcs f hf).body hb 0)).append (.single .const 0)

theorem startOf_valid (hc : stmts (contextAt mode p none) 0 p.stmts = .ok startCode) :
    FuncValid ⟨globalsOf p, gs, some (startOf p.stmts startCode)⟩ (startOf p.stmts startCode) where
  code := by
    have hp : Provides (surroundings ⟨globalsOf p, gs, some (startOf p.stmts startCode)⟩
        (startOf p.stmts startCode)) p none :=
      provides_surroundings h List.mem_cons_self nofun
    have last : CodeTyped (surroundings ⟨globalsOf p, gs, some (startOf p.stmts startCode)⟩
        (startOf p.stmts startCode)) [] (if hasResult p.stmts then [.get .slot scratch] else []) 0
        (hasResult p.stmts).toNat := by
      by_cases hr : hasResult p.stmts = true
      · rw [if_pos hr, hr]
        exact .single (.getSlot hp.scratch) 0
      · rw [if_neg hr, Bool.eq_false_iff.2 hr]
        exact .nil
    exact (block_typed hp hw.notHost p.stmts hw.stmts hc 0).append last
  slots := List.nodup_singleton _
  labels := by
    rw [startOf, labelsIn_append, block_labels p.stmts hc]
    cases hasResult p.stmts <;>
      simpa [labelsIn, labelsOf] using labelsFrom_nodup 0 (loopsIn p.stmts)

theorem funcNames_nodup : (Builtin.imports.map (·.1) ++ gs.map (·.name)).Nodup := by
  rw [funcDefs_names h, List.nodup_append]
  refine ⟨by decide, hw.funcNames, ?_⟩
  intro x hx y hy heq
  obtain ⟨f, hf, rfl⟩ := List.mem_map.1 hy
  subst heq
  have host : ∀ i ∈ Builtin.imports, i.1 ∈ Rules.hostNames := by decide
  obtain ⟨i, hi, hname⟩ := List.mem_map.1 hx
  exact hw.notHost f hf (hname ▸ host i hi)

end

end modules

end StackCode

end WordScript
