import WordScript.Proofs.Calls
import WordScript.Proofs.Reachability

/-! What the words of a run stand for.

The machine computes with words and knows no types. Code is described by the conditions that the
words on its stack meet, and by the variables of the running function that are set already. The
description is kept by every run of the code, so it holds at every point that a run passes
through. -/
namespace WordScript

/-- The words that stand for values of a type: all words may be integers, truth values are made by
comparisons and negation, and there is a word for `None`. -/
structure Represents (r : Ty → Word → Prop) : Prop where
  int : ∀ v, r .int v
  truth : ∀ b, r .bool (Word.ofBool b)
  negation : ∀ v, r .bool v → r .bool (v ^^^ 1)
  none : r .unit (BitVec.intMin 32)

namespace StackCode

open Machine (Control)

/-- Conditions on the words of a stack, the top first. -/
abbrev Layout := List (Word → Prop)

def Layout.Fits (l : Layout) (ws : List Word) : Prop := List.Forall₂ (fun c v => c v) l ws

/-- Words that meet a condition stand for values of a type. -/
def Means (r : Ty → Word → Prop) (type : Ty) (c : Word → Prop) : Prop := ∀ v, c v → r type v

mutual

/-- The layouts of the stack before and after an instruction, inside the blocks and loops of the
labels, and the slots that are set before and after it. -/
inductive InstrSafe (r : Ty → Word → Prop) (p : Program) (place : Option FuncDef) :
    (labels set : List String) → Instr → (before : Layout) → (set' : List String) →
      (after : Layout) → Prop
  | nop {labels set : List String} {st : Layout} : InstrSafe r p place labels set .nop st set st
  | const {labels set : List String} {st : Layout} {c : Word → Prop} {v : Int}
      (holds : c (BitVec.ofInt 32 v)) :
      InstrSafe r p place labels set (.const v) st set (c :: st)
  | getSlot {labels set : List String} {st : Layout} {c : Word → Prop} {f : FuncDef} {x : String}
      {type : Ty} (within : place = some f) (declared : Rules.Declares f x type) (ready : x ∈ set)
      (meets : ∀ v, r type v → c v) :
      InstrSafe r p place labels set (.get .slot x) st set (c :: st)
  | getScratch {labels set : List String} {st : Layout} :
      InstrSafe r p place labels set (.get .slot scratch) st set ((fun _ => True) :: st)
  | getGlobal {labels set : List String} {st : Layout} {c : Word → Prop} {v : VarDecl} {type : Ty}
      (mem : v ∈ p.vars) (declared : v.type = some type) (meets : ∀ u, r type u → c u) :
      InstrSafe r p place labels set (.get .global v.name) st set (c :: st)
  | setSlot {labels set : List String} {st : Layout} {c : Word → Prop} {f : FuncDef} {x : String}
      {type : Ty} (within : place = some f) (declared : Rules.Declares f x type)
      (means : Means r type c) :
      InstrSafe r p place labels set (.set .slot x) (c :: st) (x :: set) st
  | setScratch {labels set : List String} {st : Layout} {c : Word → Prop} :
      InstrSafe r p place labels set (.set .slot scratch) (c :: st) set st
  | setGlobal {labels set : List String} {st : Layout} {c : Word → Prop} {v : VarDecl} {type : Ty}
      (mem : v ∈ p.vars) (declared : v.type = some type) (means : Means r type c) :
      InstrSafe r p place labels set (.set .global v.name) (c :: st) set st
  | op {labels set : List String} {st : Layout} {a b c : Word → Prop} {o : WordOp}
      (result : ∀ x y v, a x → b y → o.eval x y = .ok v → c v) :
      InstrSafe r p place labels set (.op o) (b :: a :: st) set (c :: st)
  | call {labels set : List String} {st given : Layout} {c : Word → Prop} {f : String}
      {types : List Ty} {result : Ty} (callee : Rules.Callable p f types result)
      (means : List.Forall₂ (Means r) types given) (meets : ∀ v, r result v → c v) :
      InstrSafe r p place labels set (.call f) (given.reverse ++ st) set (c :: st)
  /-- The functions that print return their argument. -/
  | print {labels set : List String} {st : Layout} {c c' : Word → Prop} {target : String} {type : Ty}
      (printer : printer? (some type) = some target) (means : Means r type c)
      (meets : ∀ v, c v → c' v) :
      InstrSafe r p place labels set (.call target) (c :: st) set (c' :: st)
  /-- What follows a return never runs. -/
  | ret {labels set : List String} {st after : Layout} {c : Word → Prop} {f : FuncDef} {type : Ty}
      (within : place = some f) (returns : f.returns = some type) (means : Means r type c) :
      InstrSafe r p place labels set .ret (c :: st) set after
  /-- What follows a branch never runs. -/
  | br {labels set : List String} {before after : Layout} {l : String} (mem : l ∈ labels) :
      InstrSafe r p place labels set (.br l) before set after
  | brIf {labels set : List String} {st : Layout} {c : Word → Prop} {l : String} (mem : l ∈ labels) :
      InstrSafe r p place labels set (.brIf l) (c :: st) set st
  | block {labels set set' : List String} {st : Layout} {l : String} {body : List Instr}
      (inside : CodeSafe r p place (l :: labels) set body [] set' []) :
      InstrSafe r p place labels set (.block l body) st set st
  | loop {labels set set' : List String} {st : Layout} {l : String} {body : List Instr}
      (inside : CodeSafe r p place (l :: labels) set body [] set' []) :
      InstrSafe r p place labels set (.loop l body) st set st
  | cond {labels set set₁ set₂ : List String} {st : Layout} {c : Word → Prop}
      {thenArm elseArm : List Instr} (yes : CodeSafe r p place labels set thenArm [] set₁ [])
      (no : CodeSafe r p place labels set elseArm [] set₂ []) :
      InstrSafe r p place labels set (.cond thenArm elseArm) (c :: st) set st

/-- Layouts and slots before and after a sequence. -/
inductive CodeSafe (r : Ty → Word → Prop) (p : Program) (place : Option FuncDef) :
    (labels set : List String) → List Instr → (before : Layout) → (set' : List String) →
      (after : Layout) → Prop
  | nil {labels set : List String} {st : Layout} : CodeSafe r p place labels set [] st set st
  | cons {labels set set₁ set₂ : List String} {i : Instr} {rest : List Instr}
      {before between after : Layout} (head : InstrSafe r p place labels set i before set₁ between)
      (tail : CodeSafe r p place labels set₁ rest between set₂ after) :
      CodeSafe r p place labels set (i :: rest) before set₂ after

end

section code

variable {r : Ty → Word → Prop} {p : Program} {place : Option FuncDef}
  {labels set set₁ set₂ : List String} {before between after : Layout}

theorem CodeSafe.append (hx : CodeSafe r p place labels set xs before set₁ between)
    (hy : CodeSafe r p place labels set₁ ys between set₂ after) :
    CodeSafe r p place labels set (xs ++ ys) before set₂ after := by
  induction xs generalizing set before with
  | nil =>
    cases hx
    exact hy
  | cons i rest ih => cases hx with
    | cons head tail => exact .cons head (ih tail)

theorem CodeSafe.single (h : InstrSafe r p place labels set i before set₁ after) :
    CodeSafe r p place labels set [i] before set₁ after := .cons h .nil

theorem InstrSafe.grows (h : InstrSafe r p place labels set i before set₁ after) : set ⊆ set₁ := by
  cases h with
  | setSlot => exact List.subset_cons_self _ _
  | _ => exact fun _ hx => hx

theorem CodeSafe.grows (h : CodeSafe r p place labels set is before set₁ after) : set ⊆ set₁ := by
  induction is generalizing set before with
  | nil =>
    cases h
    exact fun _ hx => hx
  | cons i rest ih => cases h with
    | cons head tail => exact fun _ hx => ih tail (head.grows hx)

end code

/-- The globals stand for values of their types. -/
def GlobalsKept (r : Ty → Word → Prop) (p : Program) (gs : List Machine.Global) : Prop :=
  ∀ v ∈ p.vars, ∀ type, v.type = some type →
    ∃ u, gs.find? (·.name == key v.name) = some ⟨key v.name, true, u⟩ ∧ r type u

/-- The slots that are set stand for values of their types. A slot is zero until then. -/
def SlotsKept (r : Ty → Word → Prop) (place : Option FuncDef) (set : List String)
    (locals : List (Bytes × Word)) : Prop :=
  ∀ f, place = some f → ∀ x type, Rules.Declares f x type →
    ∃ u, locals.lookup (key x) = some u ∧ (r type u ∨ u = 0 ∧ x ∉ set)

/-- A state of the machine inside a function. -/
structure Kept (r : Ty → Word → Prop) (p : Program) (place : Option FuncDef) (set : List String)
    (s : Machine.State) : Prop where
  globals : GlobalsKept r p s.globals
  slots : SlotsKept r place set s.locals
  scratch : ∃ u, s.locals.lookup (key scratch) = some u

section states

open Simulation (Scoped lookup_setSlot)

variable {r : Ty → Word → Prop} {p : Program} {place : Option FuncDef} {set set' : List String}
  {s t : Machine.State}

section

variable (h : Kept r p place set s)
include h

theorem Kept.keeps (hk : Machine.Keeps s t) : Kept r p place set t where
  globals := hk.globals.symm ▸ h.globals
  slots := hk.locals.symm ▸ h.slots
  scratch := hk.locals.symm ▸ h.scratch

theorem Kept.mono (sub : set' ⊆ set) : Kept r p place set' s where
  globals := h.globals
  slots f hf x type declared := by
    obtain ⟨u, found, meaning⟩ := h.slots f hf x type declared
    exact ⟨u, found, meaning.imp_right fun zero => ⟨zero.1, fun hx => zero.2 (sub hx)⟩⟩
  scratch := h.scratch

theorem Kept.setSlot (hc : Scoped p place) (within : place = some f)
    (declared : Rules.Declares f x type) (hv : r type v) (globals : t.globals = s.globals)
    (locals : t.locals = Machine.setSlot (key x) v s.locals) : Kept r p place (x :: set) t where
  globals := globals.symm ▸ h.globals
  slots f' hf' y type' declared' := by
    cases within.symm.trans hf'
    rw [locals, lookup_setSlot]
    by_cases hy : y = x
    · subst hy
      obtain ⟨u, found, -⟩ := h.slots f within y type declared
      rw [if_pos rfl, found, Simulation.declares_unique (hc.slots f within) declared' declared]
      exact ⟨v, rfl, .inl hv⟩
    · obtain ⟨u, found, meaning⟩ := h.slots f within y type' declared'
      rw [if_neg (by rwa [key_inj]), found]
      refine ⟨u, rfl, meaning.imp_right fun zero => ⟨zero.1, ?_⟩⟩
      simp [hy, zero.2]
  scratch := by
    obtain ⟨u, found⟩ := h.scratch
    refine ⟨u, ?_⟩
    rw [locals, lookup_setSlot, if_neg, found]
    rw [key_inj]
    rintro rfl
    exact hc.clear f within (mem_slotNames declared)

theorem Kept.setScratch (hc : Scoped p place) (globals : t.globals = s.globals)
    (locals : t.locals = Machine.setSlot (key StackCode.scratch) v s.locals) :
    Kept r p place set t where
  globals := globals.symm ▸ h.globals
  slots f within x type declared := by
    have other : x ≠ StackCode.scratch := by
      rintro rfl
      exact hc.clear f within (mem_slotNames declared)
    rw [locals, lookup_setSlot, if_neg (by rwa [key_inj])]
    exact h.slots f within x type declared
  scratch := by
    obtain ⟨u, found⟩ := h.scratch
    refine ⟨v, ?_⟩
    rw [locals, lookup_setSlot, found]
    rfl

end

theorem find?_setGlobal (gs : List Machine.Global) (x k : Bytes) (v : Word) :
    (gs.map fun g => if g.name == k then { g with value := v } else g).find? (·.name == x) =
      (gs.find? (·.name == x)).map fun g => if g.name == k then { g with value := v } else g := by
  rw [List.find?_map]
  congr 2
  funext g
  by_cases hg : g.name = k <;> simp [hg]

theorem Kept.setGlobal (h : Kept r p place set s) (hc : Scoped p place) (mem : d ∈ p.vars)
    (declared : d.type = some type) (hv : r type v)
    (globals : t.globals = s.globals.map fun g => if g.name == key d.name then { g with value := v } else g)
    (locals : t.locals = s.locals) : Kept r p place set t where
  globals d' mem' type' declared' := by
    obtain ⟨u, found, meaning⟩ := h.globals d' mem' type' declared'
    rw [globals, find?_setGlobal, found]
    by_cases same : d'.name = d.name
    · obtain rfl := List.inj_on_of_nodup_map hc.globals mem' mem same
      cases declared.symm.trans declared'
      exact ⟨v, by simp, hv⟩
    · exact ⟨u, by simp [key_inj, same], meaning⟩
  slots := locals.symm ▸ h.slots
  scratch := locals.symm ▸ h.scratch

end states

/-- How a piece of code is left. Below its own words the stack is as it was. -/
inductive Ends (r : Ty → Word → Prop) (p : Program) (place : Option FuncDef)
    (labels set set' : List String) (after : Layout) (base : List Word) :
    Control → Machine.State → Prop
  | next {t : Machine.State} {ws : List Word} (kept : Kept r p place set' t) (fits : after.Fits ws)
      (live : t.stack.live = ws ++ base) : Ends r p place labels set set' after base .next t
  | branch {t : Machine.State} {ws : List Word} {l : String} (mem : l ∈ labels)
      (kept : Kept r p place set t) (live : t.stack.live = ws ++ base) :
      Ends r p place labels set set' after base (.branch (key l)) t
  | ret {t : Machine.State} {ws : List Word} {v : Word} (kept : Kept r p place set t)
      (result : ∃ f type, place = some f ∧ f.returns = some type ∧ r type v)
      (live : t.stack.live = v :: ws ++ base) :
      Ends r p place labels set set' after base .ret t

/-- The machine knows the functions of a program, and their code keeps what words stand for. -/
structure Guarded (r : Ty → Word → Prop) (p : Program) (mode : Arithmetic) (env : Machine.Env) :
    Prop where
  represents : Represents r
  host : ∀ i ∈ hosts, env.funcs.find? (·.name == key i.1) = some (linkedImport i)
  user : ∀ f ∈ p.funcs, ∃ body,
    env.funcs.find? (·.name == key f.name) = some (loaded (funcOf f body)) ∧
      ∀ type, f.returns = some type → ∃ set, CodeSafe r p (some f) [] (f.params.map (·.name))
        (funcOf f body).body [] set [r type]
  names : ∀ f ∈ p.funcs, Simulation.Scoped p (some f)

/-- A state of the machine at a call: the arguments lie on the stack. -/
structure Called (r : Ty → Word → Prop) (types : List Ty) (base args : List Word)
    (s : Machine.State) : Prop where
  live : s.stack.live = args.reverse ++ base
  holds : List.Forall₂ r types args

/-- A call has returned: all but the globals is as it was before the arguments were pushed. -/
structure Answered (r : Ty → Word → Prop) (p : Program) (result : Ty) (base : List Word)
    (s t : Machine.State) (v : Word) : Prop where
  holds : r result v
  live : t.stack.live = base
  globals : GlobalsKept r p t.globals
  locals : t.locals = s.locals

/-- Runs with an amount of fuel keep what words stand for. -/
structure RunsKeep (r : Ty → Word → Prop) (p : Program) (env : Machine.Env) (fuel : Nat) : Prop where
  seq {place : Option FuncDef} {labels set set' : List String} {is : List Instr}
    {before after : Layout} {depth : Nat} {s t : Machine.State} {ws base : List Word} {c : Control}
    (safe : CodeSafe r p place labels set is before set' after) (names : Simulation.Scoped p place)
    (kept : Kept r p place set s) (fits : before.Fits ws) (live : s.stack.live = ws ++ base)
    (run : (Machine.seq env fuel depth (Instr.sexprs is)).run s = (.ok c, t)) :
    Ends r p place labels set set' after base c t
  instr {place : Option FuncDef} {labels set set' : List String} {i : Instr}
    {before after : Layout} {depth : Nat} {s t : Machine.State} {ws base : List Word} {c : Control}
    (safe : InstrSafe r p place labels set i before set' after) (names : Simulation.Scoped p place)
    (kept : Kept r p place set s) (fits : before.Fits ws) (live : s.stack.live = ws ++ base)
    (run : (Machine.instr env fuel depth i.sexpr).run s = (.ok c, t)) :
    Ends r p place labels set set' after base c t
  passes {place : Option FuncDef} {labels set set' : List String} {body : List Instr} {l : String}
    {isLoop : Bool} {depth : Nat} {s t : Machine.State} {base : List Word} {c : Control}
    (safe : CodeSafe r p place (l :: labels) set body [] set' [])
    (names : Simulation.Scoped p place) (kept : Kept r p place set s) (live : s.stack.live = base)
    (run : (Machine.passes env fuel depth isLoop (some (key l)) base.length
      (Instr.sexprs body)).run s = (.ok c, t)) :
    Ends r p place labels set set [] base c t
  call {f : String} {types : List Ty} {result : Ty} {g : Machine.Func Machine.HostFunc}
    {depth : Nat} {s t : Machine.State} {base args : List Word} {v : Word}
    (callee : Rules.Callable p f types result)
    (found : env.funcs.find? (·.name == key f) = some g) (called : Called r types base args s)
    (globals : GlobalsKept r p s.globals)
    (run : (Machine.call env fuel depth g).run s = (.ok v, t)) :
    Answered r p result base s t v

section runs

open Machine (Settles)
open Simulation (Scoped)

variable {r : Ty → Word → Prop} {p : Program} {mode : Arithmetic} {env : Machine.Env}
  {place : Option FuncDef} {labels set set' : List String} {before after st : Layout}
  {fuel depth : Nat} {s t : Machine.State} {ws base : List Word} {c : Control}
variable {types : List Ty} {us args : List Word} {f : FuncDef} {result : Ty} {v : Word}
  {g : Machine.Func Machine.HostFunc}

theorem Layout.Fits.split (h : Layout.Fits (xs ++ ys) ws) :
    ∃ us vs, ws = us ++ vs ∧ xs.Fits us ∧ ys.Fits vs := by
  induction xs generalizing ws with
  | nil => exact ⟨[], ws, rfl, .nil, h⟩
  | cons c xs ih =>
    cases h with
    | cons head tail =>
      obtain ⟨us, vs, rfl, hu, hv⟩ := ih tail
      exact ⟨_ :: us, vs, rfl, .cons head hu, hv⟩

theorem holds_of_fits {given : Layout} (means : List.Forall₂ (Means r) types given)
    (fits : given.Fits us) : List.Forall₂ r types us := by
  induction means generalizing us with
  | nil =>
    cases fits
    exact .nil
  | cons head _ ih =>
    cases fits with
    | cons first others => exact .cons (head _ first) (ih others)

theorem called_of_fits {given : Layout} (means : List.Forall₂ (Means r) types given)
    (fits : Layout.Fits (given.reverse ++ st) ws) (live : s.stack.live = ws ++ base) :
    ∃ args us, Called r types (us ++ base) args s ∧ st.Fits us := by
  obtain ⟨us, vs, rfl, pushed, fits⟩ := fits.split
  have args : given.Fits us.reverse := by
    rw [Layout.Fits, ← List.forall₂_reverse_iff, List.reverse_reverse]
    exact pushed
  refine ⟨us.reverse, vs, ⟨?_, holds_of_fits means args⟩, fits⟩
  rw [live, List.reverse_reverse, List.append_assoc]

theorem Ends.above (h : Ends r p place labels set set' [] (ws ++ base) c t) (fits : st.Fits ws)
    (sub : set ⊆ set') : Ends r p place labels set set st base c t := by
  cases h with
  | next kept none live =>
    cases none
    exact .next (kept.mono sub) fits live
  | @branch _ us _ mem kept live =>
    have live : t.stack.live = (us ++ ws) ++ base := by rw [live, List.append_assoc]
    exact .branch mem kept live
  | @ret _ us v kept result live =>
    have live : t.stack.live = v :: (us ++ ws) ++ base := by simp [live]
    exact .ret kept result live

theorem const_ok {v : Int} (h : (Machine.instr env fuel depth (Instr.const v).sexpr).run s =
    (.ok c, t)) : c = .next ∧ Machine.Keeps s t ∧ t.stack.live = BitVec.ofInt 32 v :: s.stack.live := by
  have value := Machine.constant?_toString_eq v
  split at value
  · obtain ⟨u, settles, keeps, live⟩ := Machine.const_settles env depth (s := s) value
    cases settles.eq_of_ok h
    exact ⟨rfl, keeps, live⟩
  · have known : Machine.Op.ofName? (Machine.keyword "i32.const") = some (.simple .const) := by decide
    have settles := Machine.settles_simple env depth known [Utf8.encode (toString v)] s
    have stops : (Machine.simple (Machine.keyword "i32.const") [Utf8.encode (toString v)] .const).run s =
        (.error (.trap (.constant (Utf8.encode (toString v)))), s) := by
      simp only [Machine.simple, Machine.immediate, pure_bind, value]
      rfl
    rw [stops] at settles
    cases settles.eq_of_ok h

theorem Guarded.found (hg : Guarded r p mode env) {f : String}
    (h : Rules.Callable p f types result) :
    ∃ g, env.funcs.find? (·.name == key f) = some g ∧ g.result = true := by
  cases h with
  | abs => exact ⟨_, hg.host ("abs", .abs) (by decide), rfl⟩
  | max => exact ⟨_, hg.host ("max", .max) (by decide), rfl⟩
  | min => exact ⟨_, hg.host ("min", .min) (by decide), rfl⟩
  | pow => exact ⟨_, hg.host ("pow", .pow) (by decide), rfl⟩
  | user mem _ _ =>
    obtain ⟨body, found, -⟩ := hg.user _ mem
    exact ⟨_, found, rfl⟩

theorem op_ok (live : s.stack.live = y :: x :: us)
    (h : (Machine.instr env fuel depth (Instr.op o).sexpr).run s = (.ok c, t)) :
    ∃ v, o.eval x y = .ok v ∧ c = .next ∧ Machine.Keeps s t ∧ t.stack.live = v :: us := by
  cases value : o.eval x y with
  | ok v =>
    obtain ⟨u, settles, keeps, live'⟩ := Machine.op_settles env depth live value
    cases settles.eq_of_ok h
    exact ⟨v, rfl, rfl, keeps, live'⟩
  | error fault =>
    obtain ⟨u, settles, -⟩ := Machine.op_traps env depth live value
    cases settles.eq_of_ok h

theorem print_ok (hg : Guarded r p mode env) (printer : printer? (some type) = some target)
    (live : s.stack.live = v :: us)
    (h : (Machine.instr env fuel depth (Instr.call target).sexpr).run s = (.ok c, t)) :
    c = .next ∧ t.globals = s.globals ∧ t.locals = s.locals ∧ t.stack.live = v :: us := by
  obtain ⟨host, mem, reads, reply⟩ := Simulation.printer_host printer
  obtain ⟨k, w, u, rfl, call, rfl, rfl⟩ := Machine.instr_call_ok (hg.host _ mem) rfl h
  have single : s.stack.live = [v].reverse ++ us := live
  obtain ⟨u', settles, globals, locals, -, live'⟩ := Machine.call_imported_settles env depth
    (f := linkedImport (target, host)) rfl rfl (by simp [linkedImport, reads]) single (reply v)
  cases settles.eq_of_ok call
  exact ⟨rfl, globals, locals, congrArg (v :: ·) live'⟩

theorem instr_keeps (hg : Guarded r p mode env) (ih : RunsKeep r p env fuel)
    (safe : InstrSafe r p place labels set i before set' after) (names : Scoped p place)
    (kept : Kept r p place set s) (fits : before.Fits ws) (live : s.stack.live = ws ++ base)
    (run : (Machine.instr env (fuel + 1) depth i.sexpr).run s = (.ok c, t)) :
    Ends r p place labels set set' after base c t := by
  cases safe with
  | nop =>
    cases (Machine.nop_settles env depth).eq_of_ok run
    exact .next kept fits live
  | const holds =>
    obtain ⟨rfl, keeps, live'⟩ := const_ok run
    exact .next (kept.keeps keeps) (.cons holds fits) (by rw [live', live]; rfl)
  | getSlot within declared ready meets =>
    obtain ⟨u, found, meaning⟩ := kept.slots _ within _ _ declared
    obtain ⟨t', settles, keeps, live'⟩ := Machine.localGet_settles env depth found
    cases settles.eq_of_ok run
    have holds := meets u (meaning.resolve_right fun zero => zero.2 ready)
    exact .next (kept.keeps keeps) (.cons holds fits) (by rw [live', live]; rfl)
  | getScratch =>
    obtain ⟨u, found⟩ := kept.scratch
    obtain ⟨t', settles, keeps, live'⟩ := Machine.localGet_settles env depth found
    cases settles.eq_of_ok run
    exact .next (kept.keeps keeps) (.cons trivial fits) (by rw [live', live]; rfl)
  | getGlobal mem declared meets =>
    obtain ⟨u, found, meaning⟩ := kept.globals _ mem _ declared
    obtain ⟨t', settles, keeps, live'⟩ := Machine.globalGet_settles env depth found
    cases settles.eq_of_ok run
    exact .next (kept.keeps keeps) (.cons (meets u meaning) fits) (by rw [live', live]; rfl)
  | setSlot within declared means =>
    cases fits with
    | cons holds fits =>
      obtain ⟨u, found, -⟩ := kept.slots _ within _ _ declared
      obtain ⟨t', settles, globals, locals, -, live'⟩ := Machine.localSet_settles env depth live found
      cases settles.eq_of_ok run
      exact .next (kept.setSlot names within declared (means _ holds) globals locals) fits live'
  | setScratch =>
    cases fits with
    | cons holds fits =>
      obtain ⟨u, found⟩ := kept.scratch
      obtain ⟨t', settles, globals, locals, -, live'⟩ := Machine.localSet_settles env depth live found
      cases settles.eq_of_ok run
      exact .next (kept.setScratch names globals locals) fits live'
  | setGlobal mem declared means =>
    cases fits with
    | cons holds fits =>
      obtain ⟨u, found, -⟩ := kept.globals _ mem _ declared
      obtain ⟨t', settles, globals, locals, -, live'⟩ :=
        Machine.globalSet_settles env depth live found rfl
      cases settles.eq_of_ok run
      exact .next (kept.setGlobal names mem declared (means _ holds) globals locals) fits live'
  | op result =>
    obtain _ | ⟨second, _ | ⟨first, fits⟩⟩ := fits
    obtain ⟨v, value, rfl, keeps, live'⟩ := op_ok live run
    exact .next (kept.keeps keeps) (.cons (result _ _ v first second value) fits) live'
  | call callee means meets =>
    obtain ⟨args, us, called, fits⟩ := called_of_fits means fits live
    obtain ⟨g, found, result⟩ := hg.found callee
    obtain ⟨k, v, u, ⟨⟩, call, rfl, rfl⟩ := Machine.instr_call_ok found result run
    obtain ⟨holds, live', globals, locals⟩ := ih.call callee found called kept.globals call
    refine .next ⟨globals, ?_, ?_⟩ (.cons (meets v holds) fits) (congrArg (v :: ·) live')
    · exact locals.symm ▸ kept.slots
    · exact locals.symm ▸ kept.scratch
  | print printer means meets =>
    cases fits with
    | cons holds fits =>
      obtain ⟨rfl, globals, locals, live'⟩ := print_ok hg printer live run
      refine .next ⟨globals.symm ▸ kept.globals, ?_, ?_⟩ (.cons (meets _ holds) fits) live'
      · exact locals.symm ▸ kept.slots
      · exact locals.symm ▸ kept.scratch
  | ret within returns means =>
    cases fits with
    | cons holds fits =>
      cases (Machine.return_settles env depth).eq_of_ok run
      exact .ret kept ⟨_, _, within, returns, means _ holds⟩ live
  | br mem =>
    cases (Machine.br_settles env depth _).eq_of_ok run
    exact .branch mem kept live
  | brIf mem =>
    cases fits with
    | cons holds fits =>
      obtain ⟨t', settles, keeps, live'⟩ := Machine.brIf_settles env depth (key _) live
      cases settles.eq_of_ok run
      split
      · exact .next (kept.keeps keeps) fits live'
      · exact .branch mem (kept.keeps keeps) live'
  | block inside =>
    obtain ⟨k, ⟨⟩, run⟩ := Machine.instr_passes_ok false Machine.ofName_block run
    have height : s.stack.height = (ws ++ base).length := congrArg List.length live
    rw [height] at run
    exact (ih.passes inside names kept live run).above fits fun _ hx => hx
  | loop inside =>
    obtain ⟨k, ⟨⟩, run⟩ := Machine.instr_passes_ok true Machine.ofName_loop run
    have height : s.stack.height = (ws ++ base).length := congrArg List.length live
    rw [height] at run
    exact (ih.passes inside names kept live run).above fits fun _ hx => hx
  | cond yes no =>
    cases fits with
    | @cons _ v _ ws holds fits =>
      obtain ⟨k, v', u, ⟨⟩, pops, run⟩ := Machine.instr_cond_ok run
      obtain ⟨u', pops', keeps, live'⟩ := Machine.run_pop live
      cases pops.symm.trans pops'
      have inside := kept.keeps keeps
      split at run
      · exact (ih.seq no names inside .nil live' run).above fits no.grows
      · exact (ih.seq yes names inside .nil live' run).above fits yes.grows

theorem seq_keeps (ih : RunsKeep r p env fuel)
    (safe : CodeSafe r p place labels set is before set' after) (names : Scoped p place)
    (kept : Kept r p place set s) (fits : before.Fits ws) (live : s.stack.live = ws ++ base)
    (run : (Machine.seq env (fuel + 1) depth (Instr.sexprs is)).run s = (.ok c, t)) :
    Ends r p place labels set set' after base c t := by
  cases safe with
  | nil =>
    obtain ⟨rfl, rfl⟩ := Machine.seq_nil_ok run
    exact .next kept fits live
  | cons head tail =>
    obtain ⟨k, d, u, ⟨⟩, first, run⟩ := Machine.seq_cons_ok run
    cases ih.instr head names kept fits live first with
    | next kept' fits' live' =>
      cases ih.seq tail names kept' fits' live' run with
      | next kept fits live => exact .next kept fits live
      | branch mem kept live => exact .branch mem (kept.mono head.grows) live
      | ret kept result live => exact .ret (kept.mono head.grows) result live
    | branch mem kept' live' =>
      cases run
      exact .branch mem kept' live'
    | ret kept' result live' =>
      cases run
      exact .ret kept' result live'

theorem passes_keep (ih : RunsKeep r p env fuel)
    (safe : CodeSafe r p place (l :: labels) set body [] set' []) (names : Scoped p place)
    (kept : Kept r p place set s) (live : s.stack.live = base)
    (run : (Machine.passes env (fuel + 1) depth isLoop (some (key l)) base.length (Instr.sexprs body)).run s = (.ok c, t)) :
    Ends r p place labels set set [] base c t := by
  obtain ⟨k, d, u, v, ⟨⟩, checks, inside, run⟩ := Machine.passes_ok run
  obtain ⟨keeps, stack⟩ := Machine.check_ok env checks
  have live' : u.stack.live = [] ++ base := by rw [stack, live, List.nil_append]
  cases ih.seq safe names (kept.keeps keeps) .nil live' inside with
  | next kept' fits' live' =>
    cases run
    exact .next (kept'.mono safe.grows) fits' live'
  | ret kept' result live' =>
    cases run
    exact .ret kept' result live'
  | @branch _ us l' mem kept' live' =>
    rw [Machine.repass] at run
    split at run
    · -- A branch to the label ends a block and starts a loop again, both on the stack as it was.
      obtain ⟨v', cuts, keeps', live''⟩ := Machine.run_cut live'
      obtain ⟨_, v'', cuts', run⟩ := Machine.run_bind_ok.1 run
      cases cuts.symm.trans cuts'
      cases isLoop with
      | true => exact ih.passes safe names (kept'.keeps keeps') live'' run
      | false =>
        cases run
        exact .next (kept'.keeps keeps') .nil live''
    · rename_i other
      cases run
      rcases List.mem_cons.1 mem with rfl | mem
      · exact absurd rfl other
      · exact .branch mem kept' live'

theorem hostCall_keeps (hr : Represents r) (reads : i.2.reads = types.length)
    (called : Called r types base args s) (globals : GlobalsKept r p s.globals)
    (run : (Machine.call env fuel depth (linkedImport i)).run s = (.ok v, t)) :
    Answered r p .int base s t v := by
  have count : i.2.reads = args.length := reads.trans called.holds.length_eq
  obtain ⟨reply, replies⟩ : ∃ reply, i.2.reply? args = some reply := by
    rw [← Option.isSome_iff_exists, Machine.HostFunc.reply?_isSome, count]
    simp
  obtain ⟨t', settles, globals', locals, -, live⟩ := Machine.call_imported_settles env depth
    (f := linkedImport i) rfl rfl (by simp [linkedImport, count]) called.live replies
  cases settles.eq_of_ok run
  exact ⟨hr.int _, live, globals'.symm ▸ globals, locals⟩

theorem lookup_map_const {xs : List String} (h : x ∈ xs) (v : Word) :
    (xs.map (·, v)).lookup x = some v := by
  induction xs with
  | nil => cases h
  | cons y xs ih =>
    rw [List.map_cons, Simulation.lookup_cons_ite]
    split
    · rfl
    · rename_i other
      exact ih ((List.mem_cons.1 h).resolve_left other)

section

variable (names : Scoped p (some f)) (params : f.params.map (·.type) = types.map some)
  (holds : List.Forall₂ r types args)
include names params holds

theorem slots_entered :
    SlotsKept r (some f) (f.params.map (·.name))
      ((Simulation.slotsOf f args).map fun entry => (key entry.1, entry.2)) := by
  obtain ⟨paramNames, localNames, disjoint⟩ := List.nodup_append.1 (names.slots f rfl)
  rintro _ ⟨⟩ x type declares
  rw [Simulation.lookup_map_key, Simulation.slotsOf, List.lookup_append]
  cases declares with
  | @param a _ mem declared =>
    obtain ⟨v, given, meaning⟩ := Simulation.mem_zip_of_param params holds mem declared
    have keys := Simulation.paramKeys (Simulation.length_args params holds)
    have other : a.name ∉ ((scratch :: f.locals.map (·.name)).map (·, (0 : Word))).map (·.1) := by
      have param : a.name ∈ f.params.map (·.name) := List.mem_map_of_mem mem
      intro h
      rcases List.mem_cons.1 h with h | h
      · have h : a.name = scratch := h
        exact names.clear f rfl (h ▸ List.mem_append_left _ param)
      · exact disjoint _ param _ (by simpa using h) rfl
    rw [Simulation.lookup_eq_none other, Simulation.lookup_reverse (keys.symm ▸ paramNames), (lookup_eq_some_iff_mem (by rwa [keys])).2 given]
    exact ⟨v, rfl, .inl meaning⟩
  | @var v _ mem declared =>
    rw [lookup_map_const (List.mem_cons_of_mem _ (List.mem_map_of_mem mem))]
    refine ⟨0, rfl, .inr ⟨rfl, fun h => ?_⟩⟩
    exact disjoint _ h _ (List.mem_map_of_mem mem) rfl

theorem kept_entered (globals : GlobalsKept r p s.globals) (body : List Instr) :
    Kept r p (some f) (f.params.map (·.name)) { s with
      locals := Machine.initialLocals (loaded (funcOf f body)) ((funcOf f body).locals.map key)
        args } := by
  refine ⟨globals, ?_, ?_⟩
  · rw [Simulation.initialLocals_eq]
    exact slots_entered names params holds
  · refine ⟨0, ?_⟩
    rfl

end

theorem Called.pops (h : Called r types base args s)
    (params : f.params.map (·.type) = types.map some)
    (run : (Machine.popMany (loaded (funcOf f body) : Machine.Func Machine.HostFunc).params.length).run s = (.ok args', t)) :
    args' = args ∧ Machine.Keeps s t ∧ t.stack.live = base := by
  have count : (loaded (funcOf f body) : Machine.Func Machine.HostFunc).params.length =
      args.length := by
    simpa [loaded, funcOf] using Simulation.length_args params h.holds
  obtain ⟨t', run', keeps, live⟩ := Machine.run_popMany h.live
  rw [count] at run
  cases run.symm.trans run'
  exact ⟨rfl, keeps, live⟩

variable (hg : Guarded r p mode env)
include hg

theorem userCall_keeps (ih : RunsKeep r p env fuel) (mem : f ∈ p.funcs)
    (params : f.params.map (·.type) = types.map some) (returns : f.returns = some result)
    (found : env.funcs.find? (·.name == key f.name) = some g) (called : Called r types base args s)
    (globals : GlobalsKept r p s.globals)
    (run : (Machine.call env (fuel + 1) depth g).run s = (.ok v, t)) :
    Answered r p result base s t v := by
  obtain ⟨body, found', safe⟩ := hg.user f mem
  cases found'.symm.trans found
  obtain ⟨set, safe⟩ := safe result returns
  obtain ⟨k, args', c, u, w, ⟨⟩, -, pops, inside, leaves⟩ := Machine.call_defined_ok rfl run
  obtain ⟨rfl, keeps, live⟩ := called.pops params pops
  have entered := kept_entered (hg.names f mem) params called.holds
    (keeps.globals.symm ▸ globals) body
  have height : u.stack.height = base.length := congrArg List.length live
  rw [height, keeps.locals] at leaves
  -- The code of the function is left with the result on top, by a return or at its end.
  have left : ∃ top, (∀ l, c ≠ .branch l) ∧ GlobalsKept r p w.globals ∧
      ∃ x, r result x ∧ w.stack.live = x :: top ++ base := by
    cases ih.seq safe (hg.names f mem) entered .nil live inside with
    | next kept fits live' =>
      obtain _ | ⟨holds, _ | _⟩ := fits
      exact ⟨[], nofun, kept.globals, _, holds, live'⟩
    | branch mem => cases mem
    | ret kept holds live' =>
      obtain ⟨_, type, ⟨⟩, returns', holds⟩ := holds
      cases returns.symm.trans returns'
      exact ⟨_, nofun, kept.globals, _, holds, live'⟩
  obtain ⟨top, control, globals', x, holds, live'⟩ := left
  obtain ⟨t', leaves', globals'', locals, -, live''⟩ :=
    Machine.leave_settles (f := loaded (funcOf f body)) rfl control live'
  cases leaves.symm.trans leaves'
  exact ⟨holds, live'', globals''.symm ▸ globals', locals⟩

theorem call_keeps (ih : RunsKeep r p env fuel) {f : String}
    (callee : Rules.Callable p f types result) (found : env.funcs.find? (·.name == key f) = some g)
    (called : Called r types base args s) (globals : GlobalsKept r p s.globals)
    (run : (Machine.call env (fuel + 1) depth g).run s = (.ok v, t)) :
    Answered r p result base s t v := by
  cases callee with
  | abs =>
    cases (hg.host ("abs", .abs) (by decide)).symm.trans found
    exact hostCall_keeps hg.represents rfl called globals run
  | max =>
    cases (hg.host ("max", .max) (by decide)).symm.trans found
    exact hostCall_keeps hg.represents rfl called globals run
  | min =>
    cases (hg.host ("min", .min) (by decide)).symm.trans found
    exact hostCall_keeps hg.represents rfl called globals run
  | pow =>
    cases (hg.host ("pow", .pow) (by decide)).symm.trans found
    exact hostCall_keeps hg.represents rfl called globals run
  | user mem params returns => exact userCall_keeps hg ih mem params returns found called globals run

theorem runs_keep (fuel : Nat) : RunsKeep r p env fuel := by
  induction fuel with
  | zero =>
    constructor
    · intros
      rename_i run
      rw [Machine.seq] at run
      cases run
    · intros
      rename_i run
      rw [Machine.instr] at run
      cases run
    · intros
      rename_i run
      rw [Machine.passes] at run
      cases run
    · intros
      rename_i run
      rw [Machine.call] at run
      cases run
  | succ fuel ih => exact ⟨seq_keeps ih, instr_keeps hg ih, passes_keep ih, call_keeps hg ih⟩

end runs

end StackCode
end WordScript
