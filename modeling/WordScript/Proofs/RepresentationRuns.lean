import WordScript.Proofs.Correctness
import WordScript.Proofs.SafeLowering

/-! What words stand for in every run of a module.

A module is loaded and its entry is called from outside, any number of times. Every point of every
such run is a point of generated code. -/
namespace WordScript
namespace Machine

/-- What goes on with the next instruction unless the run ends. -/
def Onward (x : Exec Control) : Prop := ∀ s c t, x.run s = (.ok c, t) → c = .next

theorem onward_next : Onward (pure .next) := by
  rintro s c t ⟨⟩
  rfl

theorem onward_stop (trap : Trap) : Onward (stop trap) := nofun

theorem Onward.after {α : Type} {x : Exec α} {f : α → Exec Control} (hf : ∀ a, Onward (f a)) :
    Onward (x >>= f) := by
  intro s c t h
  obtain ⟨a, u, -, h⟩ := run_bind_ok.1 h
  exact hf a u c t h

variable (env : Env) (fuel depth : Nat)

theorem onward_simple (op : Simple) (imms : List Bytes)
    (known : Op.ofName? (keyword word) = some (.simple op))
    (h : Onward (simple (keyword word) imms op)) :
    Onward (instr env fuel depth (StackCode.form word (imms.map .atom))) := by
  intro s c t run
  exact h s c t ((settles_simple env depth known imms s).eq_of_ok run)

theorem onward_call (name : Bytes) :
    Onward (instr env fuel depth (StackCode.form "call" [.atom name])) := by
  intro s c t run
  rw [show instr env fuel depth (StackCode.form "call" [.atom name]) = _ from
    congrFun (instr_form_eq env depth ofName_call (by simp) [name]) fuel] at run
  obtain ⟨k, rfl, run⟩ := later_ok run
  have rest : Onward (callNamed env k depth (keyword "call") [name]) := by
    refine Onward.after fun name => ?_
    split
    · refine Onward.after fun v => ?_
      split
      · exact Onward.after fun _ => onward_next
      · exact onward_next
    · exact onward_stop _
  exact rest s c t (seq_nil_bind_ok run)

end Machine

namespace StackCode

open Machine (Image Instance Point Reaches)
open Simulation (Scoped)

def Instr.Straight : Instr → Prop
  | .const _ | .get _ _ | .op _ | .call _ => True
  | _ => False

section straight

variable {ctx : Context}

theorem unaryCode_straight (op : UnaryOp) : ∀ i ∈ unaryCode op, i.Straight := by
  cases op <;> simp [unaryCode, Instr.Straight]

mutual

theorem expr_straight : (e : Expr) → ∀ {code}, expr ctx e = .ok code → ∀ i ∈ code, i.Straight
  | .literal l, _, h => by
    cases h
    simp [Instr.Straight]
  | .name span t x s, _, h => by
    obtain ⟨pl, -, rfl⟩ := expr_name_ok.1 h
    simp [Instr.Straight]
  | .unary span t op e, _, h => by
    obtain ⟨c, hc, rfl⟩ := expr_unary_ok.1 h
    exact List.forall_mem_append.2 ⟨expr_straight e hc, unaryCode_straight op⟩
  | .binary span t op lhs rhs, _, h => by
    obtain ⟨l, r, o, hl, hr, -, rfl⟩ := expr_binary_ok.1 h
    refine List.forall_mem_append.2 ⟨List.forall_mem_append.2 ⟨?_, ?_⟩, by simp [Instr.Straight]⟩
    · exact expr_straight lhs hl
    · exact expr_straight rhs hr
  | .call span t f args, _, h => by
    obtain ⟨c, target, hc, -, rfl⟩ := expr_call_ok.1 h
    exact List.forall_mem_append.2 ⟨arguments_straight args hc, by simp [Instr.Straight]⟩
  | .unknown span t, _, h => nomatch h

theorem arguments_straight : (args : List Expr) → ∀ {code}, arguments ctx args = .ok code →
    ∀ i ∈ code, i.Straight
  | [], _, h => by
    cases h
    simp
  | e :: rest, _, h => by
    obtain ⟨c, c', hc, hc', rfl⟩ := arguments_cons_ok.1 h
    exact List.forall_mem_append.2 ⟨expr_straight e hc, arguments_straight rest hc'⟩

end

variable {env : Machine.Env} {depth : Nat}

theorem Instr.Straight.onward {i : Instr} (h : i.Straight) (fuel : Nat) :
    Machine.Onward (Machine.instr env fuel depth i.sexpr) := by
  cases i with
  | const v =>
    refine Machine.onward_simple env fuel depth .const [_] (by decide) ?_
    refine Machine.Onward.after fun text => ?_
    split
    · exact Machine.Onward.after fun _ => Machine.onward_next
    · exact Machine.onward_stop _
  | get pl x => cases pl with
    | global =>
      refine Machine.onward_simple env fuel depth .globalGet [_] (by decide) ?_
      exact .after fun _ => .after fun _ => .after fun _ => Machine.onward_next
    | slot =>
      refine Machine.onward_simple env fuel depth .localGet [_] (by decide) ?_
      exact .after fun _ => .after fun _ => .after fun _ => Machine.onward_next
  | op o =>
    refine Machine.onward_simple env fuel depth (.op o) [] (Machine.ofName?_op o) ?_
    refine .after fun y => .after fun x => ?_
    split
    · exact .after fun _ => Machine.onward_next
    · exact Machine.onward_stop _
  | call f => exact Machine.onward_call env fuel depth (key f)
  | _ => exact h.elim

theorem straight_onward (h : ∀ i ∈ is, i.Straight) (fuel : Nat) :
    Machine.Onward (Machine.seq env fuel depth (Instr.sexprs is)) := by
  induction is generalizing fuel with
  | nil =>
    intro s c t run
    exact (Machine.seq_nil_ok run).1
  | cons i rest ih =>
    intro s c t run
    obtain ⟨k, c', u, rfl, first, run⟩ := Machine.seq_cons_ok run
    obtain rfl := (h i List.mem_cons_self).onward k s c' u first
    exact ih (fun j hj => h j (List.mem_cons_of_mem _ hj)) k u c t run

end straight

/-- A program whose code keeps what words stand for. -/
structure Faithful (r : Ty → Word → Prop) (d : Ty → Prop) (p : Program) : Prop where
  represents : Represents r
  prints : ∀ type, d type → ∀ v, r type v → r .unit v
  legible : p.Legible
  clear : ∀ f ∈ p.funcs, scratch ∉ Rules.slotNames f
  typed : Rules.WellTyped p
  annotated : Rules.Annotated p
  only : p.PrintsOnly d

section points

variable {r : Ty → Word → Prop} {d : Ty → Prop} {p : Program} {mode : Arithmetic}
  {env : Machine.Env} {place : Option FuncDef} {n : Nat} {x : Point}
  {g : Machine.Func Machine.HostFunc}
variable {f : FuncDef}

theorem Faithful.scoped (hf : Faithful r d p) (mem : f ∈ p.funcs) : Scoped p (some f) := by
  refine ⟨hf.typed.globals, ?_, ?_⟩
  · rintro _ ⟨⟩
    exact (hf.typed.funcs f mem).slots
  · rintro _ ⟨⟩
    exact hf.clear f mem

theorem Sound.globals (h : Sound r p env n x) : GlobalsKept r p x.state.globals := by
  cases h with
  | start globals _ _ => exact globals
  | seq inside => exact inside.kept.globals
  | instr inside => exact inside.kept.globals
  | passes inside => exact inside.kept.globals
  | call inside => exact inside.kept.globals
  | print inside => exact inside.kept.globals

theorem Sound.inside (h : Sound r p env n x)
    (hg : x.func = some g) : ∃ place set, Inside r p n place set x.depth x.func x.state := by
  cases h with
  | start => cases hg
  | seq inside => exact ⟨_, _, inside⟩
  | instr inside => exact ⟨_, _, inside⟩
  | passes inside => exact ⟨_, _, inside⟩
  | call inside => exact ⟨_, _, inside⟩
  | print inside => exact ⟨_, _, inside⟩

/-- The name that a function has in a module. The entry has none. -/
def frameName : Option FuncDef → Bytes
  | some f => key f.name
  | none => []

def At (place : Option FuncDef) (x : Point) : Prop := ∃ g, x.func = some g ∧ g.name = frameName place

theorem Running.name (hp : p.Legible) (h : Running p place g) : g.name = frameName place := by
  cases h with
  | user mem body => exact if_neg (hp.named _ mem)
  | start code => rfl

theorem Running.unique (hp : p.Legible) (hw : Rules.WellTyped p) (h : Running p place' g)
    (mem : ∀ f, place = some f → f ∈ p.funcs) (named : g.name = frameName place) :
    place' = place := by
  rw [h.name hp] at named
  cases h with
  | @user f mem' body => cases place with
    | none => cases named
    | some f' =>
      have same : f.name = f'.name := key_inj.1 named
      rw [List.inj_on_of_nodup_map hw.funcNames mem' (mem f' rfl) same]
  | start code => cases place with
    | none => rfl
    | some f' => cases named

theorem Sound.at (h : Sound r p env n x) (hf : Faithful r d p)
    (mem : ∀ f, place = some f → f ∈ p.funcs) (hx : At place x) :
    ∃ set, Inside r p n place set x.depth x.func x.state := by
  obtain ⟨g, func, named⟩ := hx
  obtain ⟨place', set, inside⟩ := h.inside func
  obtain ⟨g', func', running⟩ := inside.running
  cases func.symm.trans func'
  cases running.unique hf.legible hf.typed mem named
  exact ⟨set, inside⟩

theorem code_yields (hg : Guarded r p mode env) {set : List String} (names : Scoped p place)
    (kept : Kept r p place set s) (safe : CodeSafe r p place [] set code [] set [c])
    (straight : ∀ i ∈ code, i.Straight) {control : Machine.Control}
    (run : (Machine.seq env fuel depth (Instr.sexprs code)).run s = (.ok control, t)) :
    control = .next ∧ ∃ v, c v ∧ t.stack.live = v :: s.stack.live := by
  obtain rfl := straight_onward straight fuel s control t run
  cases (runs_keep hg fuel).seq safe names kept .nil rfl run with
  | next kept' fits live =>
    obtain _ | ⟨holds, _ | _⟩ := fits
    exact ⟨rfl, _, holds, live⟩

theorem hosts_names : hosts.map (·.1) = Rules.hostNames := rfl

theorem callable_user (hw : Rules.WellTyped p) (mem : f ∈ p.funcs)
    (h : Rules.Callable p name types result) (same : name = f.name) :
    f.params.map (·.type) = types.map some ∧ f.returns = some result := by
  have notHost := hw.notHost f mem
  rw [← same] at notHost
  cases h with
  | user mem' params returns =>
    rw [← List.inj_on_of_nodup_map hw.funcNames mem' mem same]
    exact ⟨params, returns⟩
  | abs => exact absurd (by decide) notHost
  | max => exact absurd (by decide) notHost
  | min => exact absurd (by decide) notHost
  | pow => exact absurd (by decide) notHost

theorem Sound.call_yields (hg : Guarded r p mode env) (hf : Faithful r d p) (h : Sound r p env n x)
    (task : x.task = .call g) (mem : f ∈ p.funcs) (named : g.name = key f.name)
    (returns : f.returns = some type)
    (run : (Machine.call env fuel x.depth g).run x.state = (.ok v, t)) : r type v := by
  cases h with
  | seq => cases task
  | instr => cases task
  | passes => cases task
  | @print _ _ _ _ _ _ target _ _ _ inside printer host =>
    cases task
    have same : target = f.name := key_inj.1 named
    refine absurd ?_ (hf.typed.notHost f mem)
    rw [← same, ← hosts_names]
    exact List.mem_map_of_mem host
  | start =>
    cases task
    cases named
  | @call _ _ _ _ _ f' types result _ _ _ inside callable found called =>
    cases task
    have same : g.name = key f' := by simpa using List.find?_some found
    have answer := (runs_keep hg fuel).call callable found called inside.kept.globals run
    obtain ⟨-, returns'⟩ := callable_user hf.typed mem callable (key_inj.1 (same ▸ named))
    cases returns.symm.trans returns'
    exact answer.holds

theorem Sound.enters (hf : Faithful r d p) (h : Sound r p env n x) (mem : f ∈ p.funcs)
    (task : x.task = .call (loaded (funcOf f body))) (enter : Machine.Starts env x y) :
    ∃ s, y = ⟨x.depth + 1, some (loaded (funcOf f body)),
      .seq (Instr.sexprs (funcOf f body).body), s⟩ ∧
        Kept r p (some f) (f.params.map (·.name)) s ∧ ∃ type, f.returns = some type := by
  have name : (loaded (funcOf f body) : Machine.Func Machine.HostFunc).name = key f.name :=
    if_neg (hf.legible.named f mem)
  cases h with
  | seq => cases task
  | instr => cases task
  | passes => cases task
  | print => cases congrArg (·.code) (Machine.Task.call.inj task)
  | @start _ code =>
    have same : loaded (startOf p.stmts code) = loaded (funcOf f body) := Machine.Task.call.inj task
    rw [← same] at name
    cases name
  | @call _ _ _ _ _ f' types result _ _ _ inside callable found called =>
    cases task
    have found' : (loaded (funcOf f body) : Machine.Func Machine.HostFunc).name = key f' := by
      simpa using List.find?_some found
    obtain ⟨params, returns⟩ :=
      callable_user hf.typed mem callable (key_inj.1 (found'.symm.trans name))
    cases enter with
    | enter code pops =>
      cases code
      obtain ⟨rfl, keeps, -⟩ := called.pops params pops
      exact ⟨_, rfl, kept_entered (hf.scoped mem) params called.holds
        (keeps.globals.symm ▸ inside.kept.globals) body, result, returns⟩

theorem printer?_unique (h : printer? (some a) = printer? (some b)) : a = b := by
  cases a <;> cases b <;> simp [printer?] at h ⊢

theorem Sound.prints (hw : Rules.WellTyped p) (h : Sound r p env n x) (task : x.task = .call g)
    (printer : printer? (some type) = some target) (named : g.name = key target) :
    ∃ v base, x.state.stack.live = v :: base ∧ r type v := by
  cases h with
  | seq => cases task
  | instr => cases task
  | passes => cases task
  | start =>
    cases task
    cases named
  | @print _ _ _ _ _ type' target' _ _ _ inside printer' host holds live =>
    cases task
    obtain rfl : target' = target := key_inj.1 named
    cases printer?_unique (printer'.trans printer.symm)
    exact ⟨_, _, live, holds⟩
  | @call _ _ _ _ _ f' types result _ _ _ inside callable found called =>
    cases task
    have same : g.name = key f' := by simpa using List.find?_some found
    obtain rfl : f' = target := key_inj.1 (same.symm.trans named)
    cases callable with
    | user mem params returns =>
      refine absurd ?_ (hw.notHost _ mem)
      cases type <;> rw [← Option.some.inj printer] <;> decide
    | _ => cases type <;> simp [printer?] at printer

end points

section instances

variable {r : Ty → Word → Prop} {p : Program} {mode : Arithmetic} {d : Ty → Prop}
  {m : Module Instr} {image : Image} {inst i : Instance} {budget : Option Nat} {x : Point}

/-- The instance of a module that was generated and loaded. -/
structure Runnable (p : Program) (mode : Arithmetic) (inst : Instance) (gs : List (Func Instr))
    (code : List Instr) : Prop where
  funcs : List.Forall₂ (fun f g => funcDef (contextAt mode p none) f = .ok g) p.funcs gs
  start : stmts (contextAt mode p none) 0 p.stmts = .ok code
  loadable : Module.Loadable ⟨globalsOf p, gs, some (startOf p.stmts code)⟩ (startOf p.stmts code)
  eq : inst = instanceOf ⟨globalsOf p, gs, some (startOf p.stmts code)⟩ (startOf p.stmts code)

theorem runnable (hp : p.Legible) (hw : Rules.WellTyped p) (hm : p.toStackCode mode = .ok m)
    (hl : Image.load (Utf8.encode m.render) = .ok image) (hi : image.instantiate = .ok inst) :
    ∃ gs code, Runnable p mode inst gs code := by
  obtain ⟨gs, code, hgs, hc, rfl⟩ := toStackCode_ok.1 hm
  -- The text was loaded, so the initial values of the globals are words.
  have range := load_range (module_legible hp.names hw hgs hc) hl
  have loadable := legible_loadable hp hw (fun v hv => range _ (List.mem_map_of_mem hv)) hgs hc
  refine ⟨gs, code, hgs, hc, loadable, ?_⟩
  cases (load_render loadable).symm.trans hl
  exact (Except.ok.inj ((instantiate_imageOf loadable).symm.trans hi)).symm

theorem legible_instance (mode : Arithmetic) (hp : p.Legible) (hw : Rules.WellTyped p)
    (hr : ∀ v ∈ p.vars, (Expr.literal v.init).Representable)
    (hgs : List.Forall₂ (fun f g => funcDef (contextAt mode p none) f = .ok g) p.funcs gs)
    (hc : stmts (contextAt mode p none) 0 p.stmts = .ok code) :
    ∃ image, Image.load (Utf8.encode
        (Module.render ⟨globalsOf p, gs, some (startOf p.stmts code)⟩)) = .ok image ∧
      image.instantiate =
        .ok (instanceOf ⟨globalsOf p, gs, some (startOf p.stmts code)⟩ (startOf p.stmts code)) := by
  have range : ∀ v ∈ p.vars, -2147483648 ≤ v.init.encode ∧ v.init.encode < 4294967296 := by
    intro v hv
    obtain ⟨type, -, literal⟩ := hw.inits v hv
    exact Literal.encode_range literal (hr v hv)
  have loadable := legible_loadable hp hw range hgs hc
  exact ⟨_, load_render loadable, instantiate_imageOf loadable⟩

theorem runs_of_legible (hp : p.Legible) (hw : Rules.WellTyped p) (hm : p.toStackCode mode = .ok m)
    (hr : ∀ v ∈ p.vars, (Expr.literal v.init).Representable) :
    ∃ image inst, Image.load (Utf8.encode m.render) = .ok image ∧ image.instantiate = .ok inst := by
  obtain ⟨gs, code, hgs, hc, rfl⟩ := toStackCode_ok.1 hm
  obtain ⟨image, hload, hinst⟩ := legible_instance mode hp hw hr hgs hc
  exact ⟨image, _, hload, hinst⟩

variable {gs : List (Func Instr)} {code : List Instr}

section

variable (h : Runnable p mode inst gs code) (hf : Faithful r d p)
include h hf

theorem Runnable.guarded (budget : Option Nat) : Guarded r p mode ⟨inst.funcs, budget⟩ := by
  have linked := Simulation.linked_instance h.funcs h.loadable
  rw [← h.eq] at linked
  refine ⟨hf.represents, linked.host, fun f mem => ?_, fun f mem => hf.scoped mem⟩
  obtain ⟨body, hb, found⟩ := linked.user f mem
  refine ⟨body, found, fun type returns => ?_⟩
  obtain ⟨set, set', safe⟩ :=
    func_safe hf.represents hf.prints hf.typed hf.annotated hf.only mem returns hb
  rw [funcOf_body]
  exact ⟨set', safe.inits.append safe.body⟩

theorem Runnable.globals : GlobalsKept r p inst.globals := by
  intro v hv type declared
  obtain ⟨type', declared', literal⟩ := hf.typed.inits v hv
  cases declared.symm.trans declared'
  refine ⟨_, ?_, represents_literal hf.represents literal⟩
  have distinct : (inst.globals.map (·.name)).Nodup := by
    rw [h.eq]
    simpa [instanceOf, globalsOf, loadedGlobal, Function.comp_def] using
      hf.typed.globals.map fun a b (hab : key a = key b) => key_inj.1 hab
  have mem : loadedGlobal (v.name, v.init.encode) ∈ inst.globals := by
    rw [h.eq]
    exact List.mem_map_of_mem (List.mem_map_of_mem hv)
  exact Simulation.find?_name distinct mem

theorem Runnable.visits {globals : List Machine.Global} (kept : GlobalsKept r p globals)
    (hx : Instance.Visits { inst with globals } budget x) : Sound r p ⟨inst.funcs, budget⟩ 0 x := by
  obtain ⟨name, f, args, found, arity, reach⟩ := hx
  obtain ⟨set, after, safe⟩ :=
    start_safe hf.represents hf.prints hf.typed hf.annotated hf.only h.start
  obtain rfl : f = loaded (startOf p.stmts code) := by
    rw [h.eq] at found
    simp only [instanceOf, List.lookup_cons] at found
    split at found
    · exact (Option.some.inj found).symm
    · cases found
  have begins : Sound r p ⟨inst.funcs, budget⟩ 0
      (Instance.entry { inst with globals } (loaded (startOf p.stmts code)) args) :=
    .start kept ⟨hf.typed.globals, by simp, by simp⟩ safe
  exact begins.reaches (h.guarded hf budget) reach

theorem Runnable.becomes (hi : inst.Becomes i) :
    ∃ globals, i = { inst with globals } ∧ GlobalsKept r p globals := by
  induction hi with
  | same => exact ⟨inst.globals, rfl, h.globals hf⟩
  | call _ fuel budget name args ih =>
    obtain ⟨globals, rfl, kept⟩ := ih
    rcases Instance.invoke_inst { inst with globals } fuel budget name args with same | ⟨x, hx, same⟩
    · exact ⟨globals, same, kept⟩
    · exact ⟨x.state.globals, same, (h.visits hf kept hx).globals⟩

theorem Runnable.sound (hi : inst.Becomes i) (hx : i.Visits budget x) :
    Guarded r p mode ⟨i.funcs, budget⟩ ∧ Sound r p ⟨i.funcs, budget⟩ 0 x := by
  obtain ⟨globals, rfl, kept⟩ := h.becomes hf hi
  exact ⟨h.guarded hf budget, h.visits hf kept hx⟩

end

theorem Faithful.runs (hf : Faithful r d p) (mode : Arithmetic) :
    ∃ m, p.toStackCode mode = .ok m ∧
      ((∀ v ∈ p.vars, (Expr.literal v.init).Representable) →
        ∃ image inst, Image.load (Utf8.encode m.render) = .ok image ∧
          image.instantiate = .ok inst) ∧
      ∀ image inst, Image.load (Utf8.encode m.render) = .ok image → image.instantiate = .ok inst →
        ∀ i, inst.Becomes i → ∀ budget x, i.Visits budget x →
          Guarded r p mode ⟨i.funcs, budget⟩ ∧ Sound r p ⟨i.funcs, budget⟩ 0 x := by
  obtain ⟨m, hm⟩ : ∃ m, p.toStackCode mode = .ok m := toStackCode_succeeds hf.typed hf.annotated
  refine ⟨m, hm, runs_of_legible hf.legible hf.typed hm, ?_⟩
  intro image inst hload hinst i hi budget x hx
  obtain ⟨gs, code, h⟩ := runnable hf.legible hf.typed hm hload hinst
  exact h.sound hf hi hx

theorem faithful_of_check (hr : Represents r) (hd : ∀ type, d type → ∀ v, r type v → r .unit v)
    (hk : p.Known) (h : p.check = .ok t) (hl : p.Legible)
    (hs : ∀ f ∈ p.funcs, scratch ∉ Rules.slotNames f) (ho : t.PrintsOnly d) : Faithful r d t := by
  have checked := Rules.check_sound hk h
  refine ⟨hr, hd, ?_, ?_, checked.after, checked.annotated, ho⟩
  · rw [← Program.legible_erase, checked.same, Program.legible_erase]
    exact hl
  · intro f' hf'
    obtain ⟨f, hf, hff⟩ := forall₂_mem_right (Rules.check_funcs h).1 hf'
    rw [Rules.slotNames_eq hff]
    exact hs f hf

end instances

end StackCode
end WordScript
