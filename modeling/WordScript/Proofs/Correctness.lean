import WordScript.Proofs.Calls

/-! Compiled programs behave as their sources.

The module of a checked program is loaded from its text and its entry is called. What can be seen
of that run is what evaluating the program gives. -/
namespace WordScript

/-- What can be seen of a call from outside; nothing if the fuel did not suffice. -/
def Machine.Invocation.behaviour? (i : Invocation) : Option Behaviour :=
  match i.outcome with
  | .ok v => some ⟨.ok v, i.printed, fun x => i.inst.global? (Utf8.encode x)⟩
  | .error (.halt .outOfFuel) => none
  | .error e => some ⟨.error e.message, i.printed, fun x => i.inst.global? (Utf8.encode x)⟩

namespace Simulation

open Machine (Exec Settles Lasts Control seq)
open Meaning (Eval Flow)
open StackCode (key)

/-- The statements of the top level have run. Their result, if any, is in the scratch slot. -/
structure TopLeft (p : Program) (ss : List Stmt) (base : List Word) (result : Option Word)
    (w : Meaning.State) (c : Control) (s : Machine.State) : Prop where
  control : c = .next
  ready : Ready p none w s
  live : s.stack.live = base
  shown : result.isSome = hasResult ss
  value : ∀ v, result = some v → s.locals.lookup (key StackCode.scratch) = some v

section topLevel

variable {p : Program} {mode : Arithmetic} {n depth : Nat} {env : Machine.Env}
  {call : String → List Word → Eval Word}
variable {s : Machine.State}

theorem hasResult_cons (st : Stmt) (h : ∀ span e, st = .expr span e → rest ≠ []) :
    hasResult (st :: rest) = hasResult rest := by
  cases rest with
  | nil =>
    cases st with
    | expr span e => exact absurd rfl (h span e rfl)
    | _ => rfl
  | cons next rest => rw [hasResult, hasResult, List.getLast?_cons_cons]

theorem topLevel_follows (hb : env.budget = none) (hc : CallsFollow n env depth p call)
    (hs : Scoped p none) (hh : ∀ f ∈ p.funcs, f.name ∉ Rules.hostNames) (ss : List Stmt) :
    ∀ {k is w s}, Rules.BlockTyped p none ss → Stmt.AllIn Expr.Representable (fun _ => True) ss →
      StackCode.stmts (StackCode.contextAt mode p none) k ss = .ok is → Ready p none w s →
      Follows n (TopLeft p ss s.stack.live) (code env depth is) s
        ((Meaning.topLevel mode call n ss).run w) := by
  fun_induction Meaning.topLevel mode call n ss with
  | case1 =>
    intro k is w s _ _ h ready
    cases h
    exact .done (Machine.settles_nil env depth s) ⟨rfl, ready, rfl, rfl, nofun⟩
  | case2 span e =>
    intro k is w s typed hr h ready
    obtain ⟨first, others, hf, ho, rfl⟩ := StackCode.stmts_cons_ok.1 h
    obtain ⟨c, he, rfl⟩ := StackCode.stmt_expr_ok.1 hf
    cases ho
    rw [List.append_nil]
    obtain ⟨type, value⟩ : ∃ type, Rules.HasType p none e type := by
      cases typed with
      | cons head tail =>
        cases head with
        | expr value => exact ⟨_, value⟩
    refine (expr_follows hc hs hh e value hr.1.2 he ready).append fun v w' c t pushed => ?_
    cases pushed.control
    obtain ⟨t', settles, ready', live, scratch⟩ := scratch_settles pushed.ready pushed.live
    refine .done settles ⟨rfl, ready', live, rfl, ?_⟩
    rintro _ ⟨⟩
    exact scratch
  | case3 st rest hne ih =>
    intro k is w s typed hr h ready
    obtain ⟨first, others, hf, ho, rfl⟩ := StackCode.stmts_cons_ok.1 h
    cases typed with
    | cons head tail =>
      refine (stmt_follows hb hc hs hh st head hr.1 hf ready).append fun flow w' c t left => ?_
      cases left with
      | next ready' live =>
        rw [← live]
        refine (ih tail hr.2 ho ready').imp fun result w'' c' t' top => ?_
        refine ⟨top.control, top.ready, top.live, ?_, top.value⟩
        rw [top.shown, hasResult_cons st fun span e heq hnil => hne span e heq hnil]
      | ret _ _ holds =>
        obtain ⟨f, type, ⟨⟩, -⟩ := holds

theorem ready_initial (hw : Rules.WellTyped p) (visible : Visible (Meaning.initialState p) s)
    (locals : s.locals = [(key StackCode.scratch, 0)]) :
    Ready p none (Meaning.initialState p) s where
  visible := visible
  typed := by
    refine ⟨fun v hv type declared => ?_, nofun, fun _ _ => rfl⟩
    have distinct : ((Meaning.initialState p).globals.map (·.1)).Nodup := by
      simpa [Meaning.initialState, Function.comp_def] using hw.globals
    obtain ⟨type', declared', literal⟩ := hw.inits v hv
    cases declared.symm.trans declared'
    refine ⟨Meaning.literal v.init, ?_, holds_literal literal⟩
    exact (lookup_eq_some_iff_mem distinct).2 (List.mem_map.2 ⟨v, hv, rfl⟩)
  slots x hx := by
    rw [locals, lookup_cons_ite, if_neg (by rwa [StackCode.key_inj])]
    rfl
  scratch := ⟨0, by rw [locals, lookup_cons_ite, if_pos rfl]⟩

/-- The end of an entry, and the result and the state that it stands for. -/
def Matches (hasValue : Bool) (result : Option Word) (w : Meaning.State) (v : Word)
    (t : Machine.State) : Prop :=
  (if hasValue then some v else none) = result ∧ Visible w t

/-- The code of the entry has ended with its result, if any, on the stack. -/
structure Shown (p : Program) (result : Option Word) (w : Meaning.State) (c : Control)
    (s : Machine.State) : Prop where
  control : c = .next
  visible : Visible w s
  shown : result.isSome = hasResult p.stmts
  live : s.stack.live = result.toList

theorem show_settles (h : TopLeft p p.stmts [] result w c s) :
    ∃ c' t, Settles (fun fuel => Machine.resume (code env depth
        (if hasResult p.stmts then [.get .slot StackCode.scratch] else []) fuel) c) s (.ok c', t) ∧
      Shown p result w c' t := by
  cases h.control
  rw [← h.shown]
  cases result with
  | none =>
    exact ⟨.next, s, Machine.settles_nil env depth s, rfl, h.ready.visible, h.shown, h.live⟩
  | some v =>
    obtain ⟨t, settles, keeps, live⟩ := Machine.localGet_settles env depth (h.value v rfl)
    refine ⟨.next, t, code_single settles, rfl, (h.ready.keeps keeps).visible, h.shown, ?_⟩
    rw [live, h.live]
    rfl

theorem Shown.leaves (h : Shown p result w c s) (hg : g.result = hasResult p.stmts) :
    ∃ v t, Settles (fun _ => Machine.leave g caller 0 c) s (.ok v, t) ∧
      Matches (hasResult p.stmts) result w v t := by
  cases h.control
  rw [← h.shown] at hg ⊢
  cases result with
  | none =>
    obtain ⟨t, leaves, globals, printed⟩ := Machine.leave_settles_empty hg h.live
    exact ⟨0, t, Settles.of_run leaves, rfl,
      ⟨globals.trans h.visible.globals, printed.trans h.visible.printed⟩⟩
  | some v =>
    have top : s.stack.live = v :: [] ++ [] := h.live
    obtain ⟨t, leaves, globals, -, printed, -⟩ := Machine.leave_settles (c := .next) hg nofun top
    exact ⟨v, t, Settles.of_run leaves, rfl,
      ⟨globals.trans h.visible.globals, printed.trans h.visible.printed⟩⟩

theorem start_follows (hl : Linked p mode env) (hf : p.Writable) (hw : Rules.WellTyped p)
    (hc : StackCode.stmts (StackCode.contextAt mode p none) 0 p.stmts = .ok startCode)
    (visible : Visible (Meaning.initialState p) s) (live : s.stack.live = []) :
    Follows n (Matches (hasResult p.stmts))
      (fun fuel => Machine.call env fuel 0 (StackCode.loaded (StackCode.startOf p.stmts startCode)))
      s (p.run mode n) := by
  have entered : s.stack.live = [].reverse ++ [] := live
  refine enter_follows rfl (by decide) rfl entered visible fun t visible' locals live' => ?_
  have ready := ready_initial hw visible' locals
  have calls : CallsFollow n env 1 p (Meaning.call p mode n (Meaning.maxActivations - 1)) :=
    calls_follow hl hf hw rfl
  have top := topLevel_follows hl.budget calls ⟨hw.globals, nofun, nofun⟩ hw.notHost p.stmts
    hw.stmts hf.stmts hc ready
  rw [live'] at top
  -- The code of the statements is followed by what shows their result.
  have ends : Follows n (Shown p) (code env 1 (StackCode.startOf p.stmts startCode).body) t
      (p.run mode n) := by
    rw [StackCode.startOf, code_append]
    refine top.before fun result w c u left => ?_
    obtain ⟨c', u', settles, shown⟩ := show_settles left
    exact ⟨c', u', settles.delay startCode.length, shown⟩
  exact ends.before fun result w c u shown => shown.leaves rfl

end topLevel

section instances

variable {p : Program} {mode : Arithmetic} {gs : List (StackCode.Func StackCode.Instr)}
  {start : StackCode.Func StackCode.Instr}

theorem funcs_names (hl : StackCode.Module.Loadable ⟨StackCode.globalsOf p, gs, some start⟩ start) :
    (StackCode.instanceOf ⟨StackCode.globalsOf p, gs, some start⟩ start).funcs.map (·.name) =
      (Builtin.imports.map (·.1) ++ gs.map (·.name)).map key ++ [[]] := by
  have hosts : (StackCode.hosts.map StackCode.linkedImport).map (·.name) =
      (Builtin.imports.map (·.1)).map key := rfl
  have defined : (gs.map StackCode.loaded).map (fun f : Machine.Func Machine.HostFunc => f.name) =
      (gs.map (·.name)).map key := by
    rw [List.map_map, List.map_map]
    exact List.map_congr_left fun g hg => if_neg (hl.named g hg).1
  have entry : (StackCode.loaded start : Machine.Func Machine.HostFunc).name = [] :=
    if_pos hl.entryName
  rw [StackCode.instanceOf, List.map_append, List.map_append, hosts, defined, List.map_append,
    List.map_singleton, entry]

theorem linked_instance
    (h : List.Forall₂ (fun f g => StackCode.funcDef (StackCode.contextAt mode p none) f = .ok g)
      p.funcs gs)
    (hl : StackCode.Module.Loadable ⟨StackCode.globalsOf p, gs, some start⟩ start) :
    Linked p mode
      ⟨(StackCode.instanceOf ⟨StackCode.globalsOf p, gs, some start⟩ start).funcs, none⟩ := by
  have distinct : ((StackCode.instanceOf ⟨StackCode.globalsOf p, gs, some start⟩ start).funcs.map
      (·.name)).Nodup := by
    rw [funcs_names hl]
    refine List.Nodup.append (hl.funcNames.map fun a b hab => StackCode.key_inj.1 hab)
      (List.nodup_singleton _) ?_
    simp [key]
  refine ⟨rfl, fun i hi => ?_, fun f hf => ?_⟩
  · exact find?_name distinct (List.mem_append_left _ (List.mem_append_left _
      (List.mem_map_of_mem hi)))
  · obtain ⟨g, hg, hfg⟩ := forall₂_mem_left h hf
    obtain ⟨body, hb, rfl⟩ := StackCode.funcDef_ok.1 hfg
    refine ⟨body, hb, ?_⟩
    have name : (StackCode.loaded (StackCode.funcOf f body) : Machine.Func Machine.HostFunc).name =
        key f.name := if_neg (hl.named _ hg).1
    rw [← name]
    exact find?_name distinct (List.mem_append_left _ (List.mem_append_right _
      (List.mem_map_of_mem hg)))

/-- The state that the entry of a module is called in. -/
def entryState (globals : List (String × Int)) : Machine.State :=
  ⟨globals.map StackCode.loadedGlobal, ⟨[], []⟩, [], [], 0⟩

theorem visible_entryState (p : Program) :
    Visible (Meaning.initialState p) (entryState (StackCode.globalsOf p)) where
  globals := by
    rw [entryState, StackCode.globalsOf, Meaning.initialState, List.map_map, List.map_map]
    refine List.map_congr_left fun v _ => ?_
    simp [StackCode.loadedGlobal, globalOf, Literal.ofInt_encode]
  printed := rfl

def observed (hasValue : Bool) :
    Except Machine.Halt Word × Machine.State → Option Behaviour
  | (.ok v, s) =>
    some ⟨.ok (if hasValue then some v else none), s.printed.reverse,
      fun x => (s.globals.find? (·.name == key x)).map (·.value)⟩
  | (.error .outOfFuel, _) => none
  | (.error h, s) =>
    some ⟨.error h.message, s.printed.reverse,
      fun x => (s.globals.find? (·.name == key x)).map (·.value)⟩

theorem invoke_behaviour? (m : StackCode.Module StackCode.Instr)
    (hp : start.params = []) (fuel : Nat) :
    ((StackCode.instanceOf m start).invoke fuel none
        (Utf8.encode Builtin.startName) []).behaviour? =
      observed start.result ((Machine.call ⟨(StackCode.instanceOf m start).funcs, none⟩ fuel 0
        (StackCode.loaded start)).run (entryState m.globals)) := by
  have entry : (StackCode.instanceOf m start).exports.lookup (Utf8.encode Builtin.startName) =
      some (StackCode.loaded start) := by
    simp [StackCode.instanceOf]
  have arity : ¬ ([] : List Word).length ≠
      (StackCode.loaded start : Machine.Func Machine.HostFunc).params.length := by
    simp [StackCode.loaded, hp]
  have state : (⟨(StackCode.instanceOf m start).globals, ⟨([] : List Word).reverse, []⟩, [], [],
      0⟩ : Machine.State) = entryState m.globals := rfl
  rw [Machine.Instance.invoke, entry]
  simp only [if_neg arity, state]
  generalize (Machine.call _ fuel 0 (StackCode.loaded start)).run (entryState m.globals) = r
  obtain ⟨h | v, t⟩ := r
  · cases h <;> rfl
  · rfl

theorem Visible.globals_eq (h : Visible w t) :
    (fun x => (t.globals.find? (·.name == key x)).map (·.value)) = fun x => w.globals.lookup x := by
  funext x
  rw [h.globals, find?_globalOf, Option.map_map]
  exact Option.map_id_apply

end instances

section behaviours

variable {p : Program} {mode : Arithmetic} {hasValue : Bool} {c : Nat → Exec Word}
  {s : Machine.State}

theorem observed_outOfFuel (h : Machine.OutOfFuel r) : observed hasValue r = none := by
  obtain ⟨_ | _, t⟩ := r <;> cases h
  rfl

/-- Runs that follow a program settle on what it shows, or go on for as long. -/
theorem observed_of_follows (h : Follows n (Matches hasValue) c s (p.run mode n)) :
    (∃ r, Settles c s r ∧ observed hasValue r = p.behaviour? mode n) ∨
      p.behaviour? mode n = none ∧ Lasts n c s := by
  rw [Program.behaviour?]
  generalize p.run mode n = r at h
  cases h with
  | done settles holds =>
    refine .inl ⟨_, settles, ?_⟩
    rw [observed, holds.1, holds.2.globals_eq, holds.2.printed]
  | trap settles visible =>
    refine .inl ⟨_, settles, ?_⟩
    simp only [observed, visible.globals_eq, visible.printed, Machine.Halt.message, message_trapOf,
      Meaning.Halt.message]
  | lasts h => exact .inr ⟨rfl, h⟩

theorem behaviour_iff (h : ∀ n, Follows n (Matches hasValue) c s (p.run mode n)) (b : Behaviour) :
    (∃ n, p.behaviour? mode n = some b) ↔ ∃ fuel, observed hasValue ((c fuel).run s) = some b := by
  constructor
  · rintro ⟨n, hn⟩
    rcases observed_of_follows (h n) with ⟨r, settles, same⟩ | ⟨none, -⟩
    · obtain ⟨⟨least, reaches⟩, -⟩ := settles
      exact ⟨least, by rw [reaches least le_rfl, same, hn]⟩
    · rw [none] at hn
      cases hn
  · -- Evaluation with the fuel of the machine gives an end whenever the machine has one.
    rintro ⟨fuel, hfuel⟩
    have ended : ¬ Machine.OutOfFuel ((c fuel).run s) := by
      intro out
      rw [observed_outOfFuel out] at hfuel
      cases hfuel
    refine ⟨fuel, ?_⟩
    rcases observed_of_follows (h fuel) with ⟨r, settles, same⟩ | ⟨-, lasts⟩
    · rcases settles.2 fuel with reached | out
      · rw [← same, ← reached, hfuel]
      · exact absurd out ended
    · exact absurd (lasts fuel le_rfl) ended

theorem Follows.not_stuck {α : Type} {post : α → Meaning.State → Word → Machine.State → Prop}
    {r : Except Meaning.Halt α × Meaning.State} (h : Follows n post c s r) :
    r.1 ≠ .error .stuck := by
  cases h <;> nofun

end behaviours

end Simulation

open Simulation in
/-- The module of a checked program behaves as the program: it can be loaded from its text and
instantiated, evaluation of the program is never stuck, and what can be seen of a run of the entry
that ends is what can be seen of an evaluation that ends. So a program goes on for ever if and only
if its module does. -/
theorem compiled_behaviour (p t : Program) (mode : Arithmetic) (hk : p.Known) (hp : p.Writable)
    (h : p.check = .ok t) :
    ∃ m image inst, t.toStackCode mode = .ok m ∧
      Machine.Image.load (Utf8.encode m.render) = .ok image ∧ image.instantiate = .ok inst ∧
      (∀ fuel, (t.run mode fuel).1 ≠ .error .stuck) ∧
      ∀ b, (∃ fuel, t.behaviour? mode fuel = some b) ↔
        ∃ fuel, (inst.invoke fuel none (Utf8.encode Builtin.startName) []).behaviour? = some b := by
  have checked := Rules.check_sound hk h
  have hw := checked.after
  have writable : t.Writable := by
    rw [← t.writable_erase, checked.same, p.writable_erase]
    exact hp
  obtain ⟨m, hm⟩ := StackCode.toStackCode_succeeds hw checked.annotated
  obtain ⟨gs, startCode, hgs, hc, rfl⟩ := StackCode.toStackCode_ok.1 hm
  have loadable := StackCode.module_loadable writable hw hgs hc
  have follows := fun n => start_follows (n := n) (linked_instance hgs loadable) writable hw hc
    (visible_entryState t) rfl
  refine ⟨_, _, _, hm, StackCode.load_render loadable, StackCode.instantiate_imageOf loadable,
    fun n => (follows n).not_stuck, fun b => ?_⟩
  rw [behaviour_iff follows b]
  refine exists_congr fun fuel => ?_
  rw [invoke_behaviour? _ rfl]
  rfl

theorem factorial_writable : factorial.Writable where
  names := by
    have names : (factorial.names.all isIdentifier) = true := by decide
    exact List.all_eq_true.1 names
  vars := by simp [factorial, Expr.Representable]
  locals := by simp [factorial, Expr.Representable]
  funcs := by
    simp [factorial, Stmt.AllIn, Stmt.All, Stmt.AllInElifs, Expr.All, Expr.AllIn,
      Expr.Representable]
  stmts := by simp [factorial, Stmt.AllIn, Stmt.All, Expr.All, Expr.AllIn, Expr.Representable]

/-- The module of the factorial program counts down to 5, prints the factorial of that and returns
what is left. -/
theorem factorial_behaviour : factorial.Known ∧ factorial.Writable ∧
    ∃ t m image inst fuel b, factorial.check = .ok t ∧ t.toStackCode .signed = .ok m ∧
      Machine.Image.load (Utf8.encode m.render) = .ok image ∧ image.instantiate = .ok inst ∧
      (inst.invoke fuel none (Utf8.encode Builtin.startName) []).behaviour? = some b ∧
      (b.outcome.toOption, b.printed, b.global "x") = (some (some 5), ["120"], some 5) := by
  have evaluated : (factorial.check.toOption.bind fun t => (t.behaviour? .signed 6).map fun b =>
      (b.outcome.toOption, b.printed, b.global "x")) =
      some (some (some 5), ["120"], some 5) := by
    decide +kernel
  obtain ⟨t, ht⟩ : ∃ t, factorial.check = .ok t := ⟨_, rfl⟩
  rw [ht] at evaluated
  obtain ⟨b, hb, seen⟩ := Option.map_eq_some_iff.1 evaluated
  obtain ⟨m, image, inst, hm, hi, hn, -, same⟩ :=
    compiled_behaviour factorial t .signed factorial_known factorial_writable ht
  obtain ⟨fuel, hfuel⟩ := (same b).1 ⟨6, hb⟩
  exact ⟨factorial_known, factorial_writable, t, m, image, inst, fuel, b, ht, hm, hi, hn, hfuel,
    seen⟩

end WordScript
