import WordScript.Proofs.Calls
import WordScript.Proofs.Names

/-! The order of the functions.

All functions are declared before a body is checked, and a call finds its function by name. So a
program whose functions stand in another order is checked, lowered and run alike. Running reads the
module back from its text, where a name that opens a comment can swallow what stands after it: the
names must be words there. -/
namespace WordScript

variable {α β : Type}
variable {r : α → β → Prop}

/-- The elements of a list, taken from the given places one after the other. -/
def reorder {α : Type} (order : List Nat) (l : List α) : List α := order.filterMap (l[·]?)

def Program.reorder (order : List Nat) (p : Program) : Program :=
  { p with funcs := WordScript.reorder order p.funcs }

def StackCode.Module.reorder {β : Type} (order : List Nat) (m : StackCode.Module β) :
    StackCode.Module β :=
  { m with funcs := WordScript.reorder order m.funcs }

theorem filterMap_range (l : List α) : (List.range l.length).filterMap (l[·]?) = l := by
  induction l with
  | nil => rfl
  | cons a l ih =>
    rw [List.length_cons, List.range_succ_eq_map, ]
    simpa [Function.comp_def] using ih

theorem reorder_perm (h : order.Perm (List.range l.length)) : (reorder order l).Perm l := by
  have places := h.filterMap (l[·]?)
  rwa [filterMap_range] at places

theorem forall₂_getElem? (h : List.Forall₂ r as bs) (i : Nat) : Option.Rel r as[i]? bs[i]? := by
  induction h generalizing i with
  | nil => exact .none
  | cons head _ ih =>
    cases i with
    | zero => exact .some head
    | succ i => exact ih i

theorem forall₂_reorder (h : List.Forall₂ r as bs) (order : List Nat) :
    List.Forall₂ r (reorder order as) (reorder order bs) := by
  induction order with
  | nil => exact .nil
  | cons i order ih =>
    rw [reorder, List.filterMap_cons, reorder, List.filterMap_cons]
    have related := forall₂_getElem? h i
    revert related
    cases as[i]? <;> cases bs[i]? <;> rintro ⟨⟩
    · exact ih
    · rename_i head
      exact .cons head ih

theorem lookup_perm {l : List (String × β)} (h : l.Perm l') (hn : (l.map (·.1)).Nodup) (k : String) :
    l.lookup k = l'.lookup k := by
  have hn' : (l'.map (·.1)).Nodup := (h.map _).nodup_iff.1 hn
  apply Option.ext
  intro v
  rw [lookup_eq_some_iff_mem hn, lookup_eq_some_iff_mem hn', h.mem_iff]

theorem find?_perm [BEq β] [LawfulBEq β] {l : List α} (h : l.Perm l') (hn : (l.map name).Nodup)
    (k : β) : l.find? (name · == k) = l'.find? (name · == k) := by
  have hn' : (l'.map name).Nodup := (h.map _).nodup_iff.1 hn
  by_cases hk : k ∈ l.map name
  · obtain ⟨a, ha, rfl⟩ := List.mem_map.1 hk
    rw [Simulation.find?_name hn ha, Simulation.find?_name hn' (h.mem_iff.1 ha)]
  · have absent : ∀ a ∈ l, (name a == k) = false := fun a ha =>
      beq_eq_false_iff_ne.2 fun heq => hk (List.mem_map.2 ⟨a, ha, heq⟩)
    rw [List.find?_eq_none.2 fun a ha => by simp [absent a ha],
      List.find?_eq_none.2 fun a ha => by simp [absent a (h.mem_iff.2 ha)]]

namespace Typing

/-- Environments that find the same under every name. -/
structure Env.Agrees (env env' : Env) : Prop where
  func : env.func? = env'.func?
  var : env.var? = env'.var?
  returns : env.returns = env'.returns

mutual

theorem expr_congr (h : env.Agrees env') : ∀ e, expr env e = expr env' e
  | .literal _ => rfl
  | .name span t n s => by rw [expr, expr, h.var]
  | .unary span t op operand => by rw [expr, expr, expr_congr h operand]
  | .binary span t op lhs rhs => by rw [expr, expr, expr_congr h lhs, expr_congr h rhs]
  | .call span t f args => by
    have all := fun index types => arguments_congr h f index types args
    cases args with
    | nil => simp only [expr, h.func, all]
    | cons e rest => cases rest <;> simp only [expr, h.func, all, expr_congr h e]
  | .unknown _ _ => rfl

theorem arguments_congr (h : env.Agrees env') (f : String) : ∀ index types es,
    arguments env f index types es = arguments env' f index types es
  | _, [], _ => by rw [arguments, arguments] <;> nofun
  | _, _ :: _, [] => by rw [arguments, arguments] <;> nofun
  | index, _ :: types, e :: rest => by
    rw [arguments, arguments, expr_congr h e, arguments_congr h f (index + 1) types rest]

end

theorem condition_congr (h : env.Agrees env') (what : String) (e : Expr) :
    condition env what e = condition env' what e := by
  rw [condition, condition, expr_congr h e]

mutual

theorem stmt_congr (h : env.Agrees env') : ∀ s, stmt env s = stmt env' s
  | .pass _ => rfl
  | .assign span n s e => by rw [stmt, stmt, h.var, expr_congr h e]
  | .expr span e => by rw [stmt, stmt, expr_congr h e]
  | .ret span e => by rw [stmt, stmt, h.returns, expr_congr h e]
  | .while span c body => by
    rw [stmt, stmt, condition_congr h, stmts_congr h body]
  | .cond span c body clauses otherwise => by
    rw [stmt, stmt, condition_congr h, stmts_congr h body, elifs_congr h clauses,
      stmts_congr h otherwise]
  | .unknown _ => rfl

theorem stmts_congr (h : env.Agrees env') : ∀ ss, stmts env ss = stmts env' ss
  | [] => rfl
  | s :: rest => by rw [stmts, stmts, stmt_congr h s, stmts_congr h rest]

theorem elif_congr (h : env.Agrees env') : ∀ e, elif env e = elif env' e
  | .mk span c body => by rw [elif, elif, condition_congr h, stmts_congr h body]

theorem elifs_congr (h : env.Agrees env') : ∀ es, elifs env es = elifs env' es
  | [] => rfl
  | e :: rest => by rw [elifs, elifs, elif_congr h e, elifs_congr h rest]

end

section programs

variable {p : Program} {order : List Nat} (ho : order.Perm (List.range p.funcs.length))
include ho

theorem globalEnv_reorder (hn : (p.funcs.map (·.name)).Nodup) :
    (globalEnv (p.reorder order)).Agrees (globalEnv p) := by
  refine ⟨?_, rfl, rfl⟩
  funext x
  have entries : ((reorder order p.funcs).map entry).reverse.Perm (p.funcs.map entry).reverse :=
    (List.reverse_perm _).trans (((reorder_perm ho).map entry).trans (List.reverse_perm _).symm)
  have names : ((p.funcs.map entry).reverse.map (·.1)).Nodup := by
    rw [List.map_reverse, List.nodup_reverse, List.map_map]
    exact hn
  change List.lookup x (_ ++ _) = List.lookup x (_ ++ _)
  rw [List.lookup_append, List.lookup_append, lookup_perm entries.symm names]
  rfl

theorem funcDef_reorder (hn : (p.funcs.map (·.name)).Nodup) (f f' : FuncDef) :
    funcDef (globalEnv (p.reorder order)) f = .ok f' ↔ funcDef (globalEnv p) f = .ok f' := by
  have agrees := globalEnv_reorder ho hn
  have inside : (funcEnv (p.reorder order) f).Agrees (funcEnv p f) := ⟨agrees.func, rfl, rfl⟩
  rw [funcDef_ok, funcDef_ok, stmts_congr inside]

end programs

end Typing

section checking

variable {p : Program} {order : List Nat}

theorem Program.Known.reorder (hk : p.Known) (ho : order.Perm (List.range p.funcs.length)) :
    (p.reorder order).Known where
  vars := hk.vars
  funcs f hf := hk.funcs f ((reorder_perm ho).mem_iff.1 hf)
  stmts := hk.stmts

/-- A program that is accepted is accepted in every order of its functions, and each function gets
the same types and scopes. -/
theorem check_reorder (ho : order.Perm (List.range p.funcs.length)) (h : p.check = .ok t) :
    (p.reorder order).check = .ok (t.reorder order) := by
  obtain ⟨hr, hi, hn, hg, hl, fs, ss, hf, hs, rfl⟩ := check_ok.1 h
  have perm := reorder_perm ho
  refine check_ok.2 ⟨fun f hf => hr f (perm.mem_iff.1 hf), fun f hf => hi f (perm.mem_iff.1 hf),
    (perm.map _).nodup_iff.2 hn, hg, hl, WordScript.reorder order fs, ss, ?_, ?_, rfl⟩
  · refine (forall₂_reorder hf order).imp fun f f' hff' => ?_
    exact (Typing.funcDef_reorder ho hn f f').2 hff'
  · rw [Typing.stmts_congr (Typing.globalEnv_reorder ho hn)]
    exact hs

theorem check_of_reorder (ho : order.Perm (List.range p.funcs.length))
    (h : (p.reorder order).check = .ok t') : ∃ t, p.check = .ok t := by
  obtain ⟨hr, hi, hn, hg, hl, fs', ss, hf, hs, rfl⟩ := check_ok.1 h
  have perm := reorder_perm ho
  have names : (p.funcs.map (·.name)).Nodup := (perm.map _).nodup_iff.1 hn
  have funcs : ∀ f ∈ p.funcs, ∃ f', Typing.funcDef (Typing.globalEnv p) f = .ok f' := by
    intro f hmem
    obtain ⟨f', -, hff'⟩ := forall₂_mem_left hf (perm.mem_iff.2 hmem)
    exact ⟨f', (Typing.funcDef_reorder ho names f f').1 hff'⟩
  obtain ⟨fs, hfs⟩ := forall₂_of_forall_exists funcs
  refine ⟨_, check_ok.2 ⟨fun f hf => hr f (perm.mem_iff.2 hf), fun f hf => hi f (perm.mem_iff.2 hf),
    names, hg, hl, fs, ss, hfs, ?_, rfl⟩⟩
  rw [← Typing.stmts_congr (Typing.globalEnv_reorder ho names)]
  exact hs

end checking

/-- The code of a function does not depend on where it stands. -/
theorem toStackCode_reorder {t : Program} (order : List Nat) (h : t.toStackCode mode = .ok m) :
    (t.reorder order).toStackCode mode = .ok (m.reorder order) := by
  obtain ⟨gs, code, hgs, hc, rfl⟩ := StackCode.toStackCode_ok.1 h
  exact StackCode.toStackCode_ok.2 ⟨reorder order gs, code, forall₂_reorder hgs order, hc, rfl⟩

namespace Machine

/-- Environments that find the same function under every name. -/
structure Env.Agrees (env env' : Env) : Prop where
  find : ∀ name : Bytes, env.funcs.find? (·.name == name) = env'.funcs.find? (·.name == name)
  budget : env.budget = env'.budget

theorem exec_congr (h : env.Agrees env') (fuel : Nat) :
    (∀ depth is, seq env fuel depth is = seq env' fuel depth is) ∧
    (∀ depth i, instr env fuel depth i = instr env' fuel depth i) ∧
    (∀ depth isLoop label height body, passes env fuel depth isLoop label height body =
      passes env' fuel depth isLoop label height body) ∧
    ∀ depth f, call env fuel depth f = call env' fuel depth f := by
  induction fuel with
  | zero =>
    refine ⟨fun depth is => ?_, fun depth i => ?_, fun depth isLoop label height body => ?_,
      fun depth f => ?_⟩
    · rw [seq, seq]
    · rw [instr, instr]
    · rw [passes, passes]
    · rw [call, call]
  | succ fuel ih =>
    obtain ⟨hs, hi, hp, hc⟩ := ih
    have asked : check env = check env' := by rw [check, check, h.budget]
    refine ⟨fun depth is => ?_, fun depth i => ?_, fun depth isLoop label height body => ?_,
      fun depth f => ?_⟩
    · cases is with
      | nil => rw [seq, seq]
      | cons i is => simp only [seq, hi, hs]
    · simp only [instr, hs, hp, hc, h.find]
    · simp only [passes, asked, hs, hp]
    · simp only [call, hs]

theorem Instance.invoke_congr {inst inst' : Instance} (hx : inst.exports = inst'.exports)
    (hg : inst.globals = inst'.globals)
    (hf : ∀ name : Bytes, inst.funcs.find? (·.name == name) = inst'.funcs.find? (·.name == name))
    (fuel : Nat) (budget : Option Nat) (name : Bytes) (args : List Word) :
    (inst.invoke fuel budget name args).outcome = (inst'.invoke fuel budget name args).outcome ∧
      (inst.invoke fuel budget name args).printed = (inst'.invoke fuel budget name args).printed := by
  have same : Env.Agrees ⟨inst.funcs, budget⟩ ⟨inst'.funcs, budget⟩ := ⟨hf, rfl⟩
  have calls := (exec_congr same fuel).2.2.2 0
  rw [invoke, invoke, hx]
  cases inst'.exports.lookup name with
  | none => exact ⟨rfl, rfl⟩
  | some f =>
    dsimp only
    split
    · exact ⟨rfl, rfl⟩
    · rw [calls f, hg]
      exact ⟨rfl, rfl⟩

end Machine

namespace StackCode

open Machine

variable {m : Module Instr} {start : Func Instr} {order : List Nat}

theorem Module.Legible.reorder (h : m.Legible start)
    (ho : order.Perm (List.range m.funcs.length)) : (m.reorder order).Legible start := by
  have perm := reorder_perm ho
  refine ⟨h.starts, h.globals, h.globalNames, fun f hf => h.readable f (perm.mem_iff.1 hf),
    fun f hf => h.unexported f (perm.mem_iff.1 hf), ?_, h.entry, h.entryName, h.entryExport⟩
  exact (List.Perm.append_left _ (perm.map _)).nodup_iff.2 h.funcNames

theorem loadedName_inj {f g : Func β} (h : f.loadedName = g.loadedName) : f.name = g.name := by
  rw [Func.loadedName, Func.loadedName] at h
  split at h <;> split at h
  · simp [*]
  · exact absurd h (List.cons_ne_nil _ _).symm
  · exact absurd h (List.cons_ne_nil _ _)
  · exact key_inj.1 h

variable (h : m.Legible start) (ho : order.Perm (List.range m.funcs.length))
include h ho

theorem find?_reorder (name : Bytes) :
    (instanceOf (m.reorder order) start).funcs.find? (·.name == name) =
      (instanceOf m start).funcs.find? (·.name == name) := by
  have perm : ((m.reorder order).funcs.map loaded).Perm
      (m.funcs.map (loaded : Func Instr → Machine.Func HostFunc)) := (reorder_perm ho).map _
  -- Among the functions of the module no two have one name, whatever the top level is called.
  have names : ((m.funcs.map (loaded : Func Instr → Machine.Func HostFunc)).map (·.name)).Nodup := by
    have distinct := (List.nodup_append.1 h.funcNames).2.1
    rw [List.map_map]
    refine List.Nodup.map_on (fun f hf g hg heq => ?_) (List.Nodup.of_map _ distinct)
    exact List.inj_on_of_nodup_map distinct hf hg (loadedName_inj heq)
  simp only [instanceOf, List.find?_append]
  rw [find?_perm perm.symm names]

/-- A module runs alike in every order of its functions, also where its globals cannot be loaded. -/
theorem run_reorder (fuel : Nat) (budget : Option Nat) (name : String) :
    Machine.run fuel budget (Utf8.encode (m.reorder order).render) name =
      Machine.run fuel budget (Utf8.encode m.render) name := by
  have h' := h.reorder ho
  cases globals : Image.addFields ⟨Builtin.imports.map loadedImport, [], []⟩
      (m.globals.map globalForm) with
  | error e =>
    have failed : Image.load (Utf8.encode m.render) = .error e := by
      rw [load_fields h, globals]
      rfl
    have failed' : Image.load (Utf8.encode (m.reorder order).render) = .error e := by
      rw [load_fields h', show (m.reorder order).globals = m.globals from rfl, globals]
      rfl
    rw [Machine.run, Machine.run, failed, failed']
  | ok image =>
    rw [← List.append_nil (m.globals.map globalForm)] at globals
    have range := addFields_globals_range globals
    obtain ⟨outcome, printed⟩ := @Instance.invoke_congr (instanceOf (m.reorder order) start)
      (instanceOf m start) rfl rfl (find?_reorder h ho) fuel budget (Utf8.encode name) []
    rw [Machine.run, Machine.run, load_legible h range, load_legible h' range]
    simp only [instantiate_legible h, instantiate_legible h', outcome, printed]

end StackCode

/-- Written in another order, the functions of a program are checked and lowered to the same
functions, and the module runs alike in both kinds of arithmetic if its names are words. -/
theorem functions_in_any_order (p : Program) (hk : p.Known) (order : List Nat)
    (ho : order.Perm (List.range p.funcs.length)) :
    ((∃ t, p.check = .ok t) ↔ ∃ t, (p.reorder order).check = .ok t) ∧
    ∀ t, p.check = .ok t → (p.reorder order).check = .ok (t.reorder order) ∧
      ∀ mode, ∃ m, t.toStackCode mode = .ok m ∧
        (t.reorder order).toStackCode mode = .ok (m.reorder order) ∧
        ((∀ x ∈ p.names, StackCode.IsName x) → ∀ fuel budget name,
          Machine.run fuel budget (Utf8.encode (m.reorder order).render) name =
            Machine.run fuel budget (Utf8.encode m.render) name) := by
  refine ⟨⟨fun ⟨t, h⟩ => ⟨_, check_reorder ho h⟩, fun ⟨t, h⟩ => check_of_reorder ho h⟩, ?_⟩
  intro t h
  have checked := Rules.check_sound hk h
  refine ⟨check_reorder ho h, fun mode => ?_⟩
  obtain ⟨m, hm⟩ : ∃ m, t.toStackCode mode = .ok m :=
    StackCode.toStackCode_succeeds checked.after checked.annotated
  refine ⟨m, hm, toStackCode_reorder order hm, fun names fuel budget name => ?_⟩
  obtain ⟨gs, code, hgs, hc, rfl⟩ := StackCode.toStackCode_ok.1 hm
  have names' : ∀ x ∈ t.names, StackCode.IsName x := by
    rw [← t.names_erase, checked.same, p.names_erase]
    exact names
  have places : order.Perm (List.range gs.length) := by
    obtain ⟨fs, hff⟩ := (check_ok.1 h).2.2.2.2.2
    obtain ⟨ss, hfs, -, rfl⟩ := hff
    rwa [← hgs.length_eq, ← hfs.length_eq]
  exact StackCode.run_reorder (StackCode.module_legible names' checked.after hgs hc) places fuel
    budget name

def parity : Program :=
  let s : Span := default
  let int (n : Int) : Expr := .literal ⟨s, none, .int, n⟩
  let name (x : String) : Expr := .name s none x .unresolved
  let func (x next : String) (zero : LiteralKind) : FuncDef :=
    { span := s, name := x, params := [⟨s, "n", some .int⟩], returns := some .bool, locals := []
      body := [
        .cond s (.binary s none .eq (name "n") (int 0)) [.ret s (.literal ⟨s, none, zero, 0⟩)] [] [],
        .ret s (.call s none next [.binary s none .sub (name "n") (int 1)])] }
  ⟨[], [func "even" "odd" .isTrue, func "odd" "even" .isFalse],
    [.expr s (.call s none "even" [int 7])]⟩

theorem parity_known : parity.Known where
  vars := nofun
  funcs := by
    intro f hf
    simp only [parity, List.mem_cons, List.not_mem_nil, or_false] at hf
    rcases hf with rfl | rfl <;>
      constructor <;> simp [Stmt.AllIn, Stmt.All, Stmt.AllInElifs, Stmt.KnownNode, Expr.All,
        Expr.AllIn, Expr.KnownNode, LiteralKind.Known, BinaryOp.Known]
  stmts := by
    simp [parity, Stmt.AllIn, Stmt.All, Stmt.KnownNode, Expr.All, Expr.AllIn, Expr.KnownNode,
      LiteralKind.Known]

theorem parity_in_any_order : parity.Known ∧ [1, 0].Perm (List.range parity.funcs.length) ∧
    ∃ t m, parity.check = .ok t ∧ (parity.reorder [1, 0]).check = .ok (t.reorder [1, 0]) ∧
      t.toStackCode .signed = .ok m ∧
      (t.reorder [1, 0]).toStackCode .signed = .ok (m.reorder [1, 0]) ∧
      ∀ fuel budget name,
        Machine.run fuel budget (Utf8.encode (m.reorder [1, 0]).render) name =
          Machine.run fuel budget (Utf8.encode m.render) name := by
  have places : [1, 0].Perm (List.range parity.funcs.length) := .swap 0 1 []
  have names : ∀ x ∈ parity.names, StackCode.IsName x := by
    intro x hx
    have known : x = "even" ∨ x = "n" ∨ x = "odd" := by
      simp [parity, Program.names, Rules.slotNames] at hx
      tauto
    rcases known with rfl | rfl | rfl <;> rfl
  obtain ⟨-, same⟩ := functions_in_any_order parity parity_known [1, 0] places
  obtain ⟨checked, code⟩ := same _ rfl
  obtain ⟨m, hm, lowered, runs⟩ := code .signed
  exact ⟨parity_known, places, _, m, rfl, checked, hm, lowered, runs names⟩

namespace StackCode

theorem encode_join (texts : List String) :
    Utf8.encode (String.join texts) = texts.flatMap Utf8.encode := by
  induction texts with
  | nil => rfl
  | cons text texts ih => rw [String.join_cons, Utf8.encode_append, ih, List.flatMap_cons]

/-- The pieces that the text of an import is put together from. -/
def importPieces (f : String × Nat) : List String :=
  ["  (import \"", Builtin.source, "\" \"", f.1, "\" (func $", f.1] ++
    List.replicate f.2 " (param i32)" ++ [" (result i32)))\n"]

def Func.pieces (f : Func String) : List String :=
  ["  (func", if f.name = "" then "" else " $" ++ f.name,
    if f.exportName = "" then "" else " (export \"" ++ f.exportName ++ "\")"] ++
    f.params.map (fun p => " (param $" ++ p ++ " i32)") ++
    [if f.result then " (result i32)" else "", "\n"] ++
    f.locals.map (fun l => "    (local $" ++ l ++ " i32)\n") ++
    f.body.map (fun l => "    " ++ l ++ "\n") ++ ["  )\n"]

/-- The pieces that the text of a module is put together from. -/
def Module.pieces (m : Module String) : List String :=
  ["(module\n"] ++ Builtin.imports.flatMap importPieces ++ m.globals.map globalLine ++
    m.funcs.flatMap Func.pieces ++ (m.start.map Func.pieces).getD [] ++ [")\n"]

theorem join_flatMap (h : ∀ a, line a = String.join (pieces a)) (l : List α) :
    String.join (l.flatMap pieces) = String.join (l.map line) := by
  induction l with
  | nil => rfl
  | cons a l ih => rw [List.flatMap_cons, String.join_append, ih, List.map_cons, String.join_cons, h]

theorem join_pieces (m : Module String) : m.text = String.join m.pieces := by
  have imports (i : String × Nat) : importLine i = String.join (importPieces i) := by
    delta importLine importPieces
    simp [String.append_assoc,
      ]
  have funcs (f : Func String) : f.text = String.join f.pieces := by
    delta Func.text Func.pieces
    simp only [List.nil_append, String.join_append, String.join_cons, String.join_nil, String.append_assoc,
      String.append_empty]
  have start : ∀ f : Option (Func String),
      (f.map Func.text).getD "" = String.join ((f.map Func.pieces).getD []) := by
    rintro (_ | f)
    · rfl
    · exact funcs f
  delta Module.text Module.pieces
  simp only [List.nil_append, String.join_append, String.join_cons, String.join_nil, String.append_assoc,
    String.append_empty, join_flatMap imports, join_flatMap funcs, start]

theorem encode_render (m : Module Instr) :
    Utf8.encode m.render = (m.mapBody (Instr.linesOf 0)).pieces.flatMap Utf8.encode := by
  rw [Module.render, join_pieces, encode_join]

end StackCode

/-- Functions whose names open and close a comment in the text of a module. -/
def commentNames : Program :=
  let s : Span := default
  let int (n : Int) : Expr := .literal ⟨s, none, .int, n⟩
  let func (x : String) (n : Int) : FuncDef := ⟨s, x, [], some .int, [], [.ret s (int n)]⟩
  ⟨[], [func "a (;" 1, func "b ;)" 2], [.expr s (int 5)]⟩

theorem commentNames_known : commentNames.Known where
  vars := nofun
  funcs := by
    intro f hf
    simp only [commentNames, List.mem_cons, List.not_mem_nil, or_false] at hf
    rcases hf with rfl | rfl <;>
      constructor <;> simp [Stmt.AllIn, Stmt.All, Stmt.KnownNode, Expr.All, Expr.KnownNode,
        LiteralKind.Known]
  stmts := by
    simp [commentNames, Stmt.AllIn, Stmt.All, Stmt.KnownNode, Expr.All, Expr.KnownNode,
      LiteralKind.Known]

def commentModule : StackCode.Module StackCode.Instr :=
  let func (x : String) (n : Int) : StackCode.Func StackCode.Instr :=
    ⟨x, "", [], true, [StackCode.scratch], [.const n, .ret, .const 0]⟩
  ⟨[], [func "a (;" 1, func "b ;)" 2], some ⟨"", Builtin.startName, [], true, [StackCode.scratch],
    [.const 5, .set .slot StackCode.scratch, .get .slot StackCode.scratch]⟩⟩

/-- In one order the comment is closed and the module runs; in the other it cannot be read. -/
theorem commentNames_order_matters : commentNames.Known ∧
    [1, 0].Perm (List.range commentNames.funcs.length) ∧
    (∃ t, commentNames.check = .ok t ∧ t.toStackCode .signed = .ok commentModule) ∧
    (∃ t, (commentNames.reorder [1, 0]).check = .ok t ∧
      t.toStackCode .signed = .ok (commentModule.reorder [1, 0])) ∧
    (Machine.run 9 none (Utf8.encode commentModule.render) Builtin.startName).1.toOption =
      some (some 5) ∧
    (Machine.run 9 none (Utf8.encode (commentModule.reorder [1, 0]).render)
      Builtin.startName).1.toOption = none := by
  refine ⟨commentNames_known, .swap 0 1 [], ⟨_, rfl, rfl⟩, ⟨_, rfl, rfl⟩, ?_, ?_⟩
  · rw [StackCode.encode_render]
    decide +kernel
  · rw [StackCode.encode_render]
    decide +kernel

end WordScript
