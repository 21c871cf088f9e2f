import Mathlib.Logic.Relation
import WordScript.Proofs.Effects

/-! The points of a run.

The machine runs code by functions that call one another. What such a function is asked to do is a
task. A task starts others, each in the state that the machine is in by then, so a run passes
through the points that can be reached from the call that it begins with. -/
namespace WordScript
namespace Machine

/-- What the machine has to do. -/
inductive Task
  | seq (code : List Sexpr)
  | instr (form : Sexpr)
  | passes (isLoop : Bool) (label : Option Bytes) (height : Nat) (body : List Sexpr)
  | call (f : Func HostFunc)

/-- A task that the machine sets about, and the state it is in then. -/
structure Point where
  /-- The depth of nested calls. -/
  depth : Nat
  /-- The function whose code runs; there is none at a call from outside. -/
  func : Option (Func HostFunc)
  task : Task
  state : State

/-- A task starts another one. What comes before it inside the task has run to its end. -/
inductive Starts (env : Env) : Point → Point → Prop
  | first {d : Nat} {f : Option (Func HostFunc)} {i : Sexpr} {rest : List Sexpr} {s : State} :
      Starts env ⟨d, f, .seq (i :: rest), s⟩ ⟨d, f, .instr i, s⟩
  | rest {d : Nat} {f : Option (Func HostFunc)} {i : Sexpr} {rest : List Sexpr} {s t : State}
      {fuel : Nat} (done : (instr env fuel d i).run s = (.ok .next, t)) :
      Starts env ⟨d, f, .seq (i :: rest), s⟩ ⟨d, f, .seq rest, t⟩
  | block {d : Nat} {f : Option (Func HostFunc)} {i : Sexpr} {s : State}
      (op : Op.ofName? i.head = some .block) :
      Starts env ⟨d, f, .instr i, s⟩ ⟨d, f, .passes false (splitLabel i.operands).1 s.stack.height
        (splitLabel i.operands).2, s⟩
  | loop {d : Nat} {f : Option (Func HostFunc)} {i : Sexpr} {s : State}
      (op : Op.ofName? i.head = some .loop) :
      Starts env ⟨d, f, .instr i, s⟩ ⟨d, f, .passes true (splitLabel i.operands).1 s.stack.height
        (splitLabel i.operands).2, s⟩
  | test {d : Nat} {f : Option (Func HostFunc)} {i : Sexpr} {s : State}
      (op : Op.ofName? i.head = some .cond) :
      Starts env ⟨d, f, .instr i, s⟩ ⟨d, f, .seq (tests i), s⟩
  | arm {d : Nat} {f : Option (Func HostFunc)} {i : Sexpr} {s t u : State} {fuel : Nat} {v : Word}
      (op : Op.ofName? i.head = some .cond)
      (done : (seq env fuel d (tests i)).run s = (.ok .next, t)) (pops : pop.run t = (.ok v, u)) :
      Starts env ⟨d, f, .instr i, s⟩ ⟨d, f, .seq (arm (if v = 0 then keyword "else" else
        keyword "then") (splitLabel i.operands).2), u⟩
  | operands {d : Nat} {f : Option (Func HostFunc)} {i : Sexpr} {s : State}
      (head : i.head.isEmpty = false) (op : ∀ o ∈ [.block, .loop, .cond], Op.ofName? i.head ≠ some o) :
      Starts env ⟨d, f, .instr i, s⟩ ⟨d, f, .seq (inner i), s⟩
  | call {d : Nat} {f : Option (Func HostFunc)} {i : Sexpr} {s t : State} {fuel : Nat}
      {name : Bytes} {g : Func HostFunc} (op : Op.ofName? i.head = some .call)
      (done : (seq env fuel d (inner i)).run s = (.ok .next, t))
      (callee : immediates i = [name])
      (found : env.funcs.find? (·.name == name) = some g) :
      Starts env ⟨d, f, .instr i, s⟩ ⟨d, f, .call g, t⟩
  | pass {d : Nat} {f : Option (Func HostFunc)} {isLoop : Bool} {label : Option Bytes} {height : Nat}
      {body : List Sexpr} {s t : State} (checks : (check env).run s = (.ok (), t)) :
      Starts env ⟨d, f, .passes isLoop label height body, s⟩ ⟨d, f, .seq body, t⟩
  | again {d : Nat} {f : Option (Func HostFunc)} {label : Bytes} {height fuel : Nat}
      {body : List Sexpr} {s t u v : State} (checks : (check env).run s = (.ok (), t))
      (done : (seq env fuel d body).run t = (.ok (.branch label), u))
      (cuts : (cut height).run u = (.ok (), v)) :
      Starts env ⟨d, f, .passes true (some label) height body, s⟩
        ⟨d, f, .passes true (some label) height body, v⟩
  | enter {d : Nat} {f : Option (Func HostFunc)} {g : Func HostFunc} {locals : List Bytes}
      {body : List Sexpr} {s t : State} {args : List Word} (code : g.code = .defined locals body)
      (pops : (popMany g.params.length).run s = (.ok args, t)) (shallow : d < maxDepth) :
      Starts env ⟨d, f, .call g, s⟩
        ⟨d + 1, some g, .seq body, { t with locals := initialLocals g locals args }⟩

abbrev Reaches (env : Env) : Point → Point → Prop := Relation.ReflTransGen (Starts env)

/-! ### The globals at the end of a run

Nothing happens to the globals between two points, so a run leaves them as they are at one of its
points, whatever way it ends. -/

section globals

variable {env : Env} {α β : Type}
variable {s t : State} {fuel d : Nat} {f : Option (Func HostFunc)}

def Passes (env : Env) (x : Point) (gs : List Global) : Prop :=
  ∃ y, Reaches env x y ∧ y.state.globals = gs

theorem Passes.here (x : Point) : Passes env x x.state.globals := ⟨x, .refl, rfl⟩

theorem Passes.of_eq (h : gs = x.state.globals) : Passes env x gs := ⟨x, .refl, h.symm⟩

theorem Passes.step (h : Starts env x y) (hy : Passes env y gs) : Passes env x gs := by
  obtain ⟨z, reach, same⟩ := hy
  exact ⟨z, .head h reach, same⟩

theorem bind_ends {f : α → Exec β} {c : List Global → Prop}
    (hx : ∀ e t, x.run s = (.error e, t) → c t.globals)
    (hf : ∀ a t, x.run s = (.ok a, t) → c ((f a).run t).2.globals) :
    c ((x >>= f).run s).2.globals := by
  rw [run_bind]
  rcases hr : x.run s with ⟨e | a, t⟩
  · exact hx e t hr
  · exact hf a t hr

/-- Runs with an amount of fuel leave the globals as they are at a point they pass through. -/
structure EndsPassed (env : Env) (fuel : Nat) : Prop where
  seq (d : Nat) (f : Option (Func HostFunc)) (code : List Sexpr) (s : State) :
    Passes env ⟨d, f, .seq code, s⟩ ((seq env fuel d code).run s).2.globals
  instr (d : Nat) (f : Option (Func HostFunc)) (i : Sexpr) (s : State) :
    (∃ t, (instr env fuel d i).run s = (.ok .next, t)) ∨
      Passes env ⟨d, f, .instr i, s⟩ ((instr env fuel d i).run s).2.globals
  passes (d : Nat) (f : Option (Func HostFunc)) (isLoop : Bool) (label : Option Bytes)
    (height : Nat) (body : List Sexpr) (s : State) :
    Passes env ⟨d, f, .passes isLoop label height body, s⟩
      ((passes env fuel d isLoop label height body).run s).2.globals
  call (d : Nat) (f : Option (Func HostFunc)) (g : Func HostFunc) (s : State) :
    Passes env ⟨d, f, .call g, s⟩ ((call env fuel d g).run s).2.globals

theorem seq_passes (ih : EndsPassed env fuel) (d : Nat) (f : Option (Func HostFunc))
    (code : List Sexpr) (s : State) :
    Passes env ⟨d, f, .seq code, s⟩ ((seq env (fuel + 1) d code).run s).2.globals := by
  cases code with
  | nil =>
    rw [seq]
    exact .of_eq rfl
  | cons i rest =>
    rw [seq]
    have first := ih.instr d f i s
    refine bind_ends (fun e t hr => ?_) (fun c t hr => ?_) <;> rw [hr] at first
    · obtain ⟨_, ⟨⟩⟩ | ends := first
      exact .step .first ends
    · cases c with
      | next => exact .step (.rest hr) (ih.seq d f rest t)
      | branch l =>
        obtain ⟨_, ⟨⟩⟩ | ends := first
        exact .step .first ends
      | ret =>
        obtain ⟨_, ⟨⟩⟩ | ends := first
        exact .step .first ends

theorem passes_passes (ih : EndsPassed env fuel) (d : Nat) (f : Option (Func HostFunc))
    (isLoop : Bool) (label : Option Bytes) (height : Nat) (body : List Sexpr) (s : State) :
    Passes env ⟨d, f, .passes isLoop label height body, s⟩
      ((passes env (fuel + 1) d isLoop label height body).run s).2.globals := by
  rw [passes]
  refine bind_ends (fun e t hr => .of_eq (calm_check.tame.same hr)) (fun _ t checks => ?_)
  have ends : Passes env ⟨d, f, .passes isLoop label height body, s⟩
      ((seq env fuel d body).run t).2.globals := .step (.pass checks) (ih.seq d f body t)
  refine bind_ends (fun e u hr => ?_) (fun c u hr => ?_) <;> rw [hr] at ends
  · exact ends
  · cases c with
    | next => exact ends
    | ret => exact ends
    | branch l =>
      dsimp only
      split
      · subst label
        refine bind_ends (fun e v hv => ?_) (fun _ v cuts => ?_)
        · rw [(tame_cut height).same hv]
          exact ends
        · cases isLoop with
          | true => exact .step (.again checks hr cuts) (ih.passes d f true (some l) height body v)
          | false =>
            rw [← (tame_cut height).same cuts] at ends
            exact ends
      · exact ends

theorem call_passes (ih : EndsPassed env fuel) (d : Nat) (f : Option (Func HostFunc))
    (g : Func HostFunc) (s : State) :
    Passes env ⟨d, f, .call g, s⟩ ((call env (fuel + 1) d g).run s).2.globals := by
  cases call_step env d g with
  | imported host code run =>
    rw [run]
    exact .of_eq (((calm_popMany _).tame.bind fun _ => tame_answer g host _).frames s).globals
  | tooDeep deep locals body code run =>
    rw [run]
    exact .of_eq (((calm_popMany _).bind fun _ => calm_stop _).frames s).globals
  | defined shallow locals body code run =>
    rw [run]
    refine bind_ends (fun e t hr => .of_eq ((calm_popMany _).tame.same hr)) (fun args t pops => ?_)
    have ends : Passes env ⟨d, f, .call g, s⟩ ((seq env fuel (d + 1) body).run
        { t with locals := initialLocals g locals args }).2.globals :=
      .step (.enter code pops shallow) (ih.seq _ _ _ _)
    refine bind_ends (x := seq env fuel (d + 1) body)
      (s := { t with locals := initialLocals g locals args })
      (f := leave g t.locals t.stack.height) (fun e u hr => ?_) (fun c u hr => ?_)
    · rw [hr] at ends
      exact ends
    · rw [hr] at ends
      rw [((tame_leave g t.locals t.stack.height c).frames u).globals]
      exact ends

theorem operands_end (ih : EndsPassed env fuel) (start : Starts env x ⟨d, f, .seq code, s⟩)
    (hr : ∀ t, (seq env fuel d code).run s = (.ok .next, t) → Passes env x t.globals → (∃ u, rest.run t = (.ok .next, u)) ∨ Passes env x (rest.run t).2.globals) :
    (∃ t, (seq env fuel d code >>= resume rest).run s = (.ok .next, t)) ∨
      Passes env x ((seq env fuel d code >>= resume rest).run s).2.globals := by
  have ends : Passes env x ((seq env fuel d code).run s).2.globals := .step start (ih.seq _ _ _ _)
  rw [run_bind]
  rcases hs : (seq env fuel d code).run s with ⟨e | c, t⟩ <;> rw [hs] at ends
  · exact .inr ends
  · cases c with
    | next => exact hr t hs ends
    | branch l => exact .inr ends
    | ret => exact .inr ends

theorem callNamed_ends (ih : EndsPassed env fuel) (op : Op.ofName? i.head = some .call)
    (done : (seq env fuel d (inner i)).run s = (.ok .next, t))
    (ht : Passes env ⟨d, f, .instr i, s⟩ t.globals) :
    (∃ u, (callNamed env fuel d i.head (immediates i)).run t = (.ok .next, u)) ∨
      Passes env ⟨d, f, .instr i, s⟩
        ((callNamed env fuel d i.head (immediates i)).run t).2.globals := by
  rcases names : immediates i with _ | ⟨name, _ | _⟩
  · exact .inr ht
  · cases found : env.funcs.find? (·.name == name) with
    | none =>
      simp only [callNamed, immediate, pure_bind, found]
      exact .inr ht
    | some g =>
      have ends : Passes env ⟨d, f, .instr i, s⟩ ((call env fuel d g).run t).2.globals :=
        .step (.call op done names found) (ih.call _ _ _ _)
      simp only [callNamed, immediate, pure_bind, found, run_bind]
      rcases hr : (call env fuel d g).run t with ⟨e | v, u⟩ <;> rw [hr] at ends
      · exact .inr ends
      · cases g.result <;> exact .inl ⟨_, rfl⟩
  · exact .inr ht

theorem choose_ends (ih : EndsPassed env fuel) (op : Op.ofName? i.head = some .cond)
    (done : (seq env fuel d (tests i)).run s = (.ok .next, t))
    (ht : Passes env ⟨d, f, .instr i, s⟩ t.globals) :
    Passes env ⟨d, f, .instr i, s⟩ ((choose env fuel d i).run t).2.globals := by
  refine bind_ends (fun e u hr => ?_) (fun v u pops => ?_)
  · rw [calm_pop.tame.same hr]
    exact ht
  have ends : Passes env ⟨d, f, .instr i, s⟩ ((seq env fuel d (arm (if v = 0 then
      keyword "else" else keyword "then") (splitLabel i.operands).2)).run u).2.globals :=
    .step (.arm op done pops) (ih.seq _ _ _ _)
  refine bind_ends (fun e u hr => nomatch hr) (fun h u' hr => ?_)
  cases hr
  refine bind_ends (fun e w hr => ?_) (fun c w hr => ?_) <;> rw [hr] at ends
  · exact ends
  · cases c with
    | next => exact ends
    | ret => exact ends
    | branch l =>
      dsimp only
      split
      · rw [(((tame_cut _).bind fun _ => (calm_pure _).tame).frames w).globals]
        exact ends
      · exact ends

theorem perform_ends (ih : EndsPassed env fuel)
    (done : (seq env fuel d (inner i)).run s = (.ok .next, t))
    (ht : Passes env ⟨d, f, .instr i, s⟩ t.globals) :
    (∃ u, (perform env fuel d i.head (immediates i)).run t = (.ok .next, u)) ∨
      Passes env ⟨d, f, .instr i, s⟩
        ((perform env fuel d i.head (immediates i)).run t).2.globals := by
  rw [perform]
  split
  · rename_i o _
    rcases (simple_tidy i.head (immediates i) o).settled t with next | same
    · exact .inl next
    · exact .inr (same ▸ ht)
  · exact callNamed_ends ih ‹_› done ht
  · exact .inr ht

theorem instr_passes (ih : EndsPassed env fuel) (d : Nat) (f : Option (Func HostFunc)) (i : Sexpr)
    (s : State) :
    (∃ t, (instr env (fuel + 1) d i).run s = (.ok .next, t)) ∨
      Passes env ⟨d, f, .instr i, s⟩ ((instr env (fuel + 1) d i).run s).2.globals := by
  cases instr_step env d i with
  | formless head run =>
    rw [run]
    exact .inr (.of_eq rfl)
  | passes isLoop head op run =>
    rw [run]
    cases isLoop with
    | false => exact .inr (.step (.block op) (ih.passes d f false _ _ _ s))
    | true => exact .inr (.step (.loop op) (ih.passes d f true _ _ _ s))
  | cond head op run =>
    rw [run]
    exact operands_end ih (.test op) fun t done ht => .inr (choose_ends ih op done ht)
  | plain head op run =>
    rw [run]
    exact operands_end ih (.operands head op) fun t done ht => perform_ends ih done ht

theorem ends_passed (env : Env) (fuel : Nat) : EndsPassed env fuel := by
  induction fuel with
  | zero =>
    constructor
    · intro d f code s
      rw [seq]
      exact .of_eq rfl
    · intro d f i s
      rw [instr]
      exact .inr (.of_eq rfl)
    · intro d f isLoop label height body s
      rw [passes]
      exact .of_eq rfl
    · intro d f g s
      rw [call]
      exact .of_eq rfl
  | succ fuel ih => exact ⟨seq_passes ih, instr_passes ih, passes_passes ih, call_passes ih⟩

end globals

section forms

open StackCode (key form arms)

variable {env : Env} {d : Nat} {f : Option (Func HostFunc)} {s t : State} {y : Point}

theorem Settles.eq_of_ok {α : Type} {c : Nat → Exec α} {r : Except Halt α × State} {a : α}
    (h : Settles c s r) (hr : (c fuel).run s = (.ok a, t)) : r = (.ok a, t) := by
  rcases h.2 fuel with same | out
  · exact same.symm.trans hr
  · rw [hr] at out
    cases out

theorem seq_nil_ok (h : (seq env fuel d []).run s = (.ok c, t)) : c = .next ∧ t = s := by
  cases (settles_nil env d s).eq_of_ok h
  exact ⟨rfl, rfl⟩

theorem starts_simple (op : Simple) (imms : List Bytes)
    (known : Op.ofName? (keyword word) = some (.simple op))
    (h : Starts env ⟨d, f, .instr (form word (imms.map .atom)), s⟩ y) : y = ⟨d, f, .seq [], s⟩ := by
  cases h with
  | operands _ _ => rw [inner_form]
  | block op => cases known.symm.trans op
  | loop op => cases known.symm.trans op
  | test op => cases known.symm.trans op
  | arm op => cases known.symm.trans op
  | call op => cases known.symm.trans op

theorem starts_call (h : Starts env ⟨d, f, .instr (form "call" [.atom name]), s⟩ y) :
    y = ⟨d, f, .seq [], s⟩ ∨
      ∃ g, env.funcs.find? (·.name == name) = some g ∧ y = ⟨d, f, .call g, s⟩ := by
  have known := ofName_call
  have nothing : inner (form "call" [.atom name]) = [] := inner_form "call" [name]
  cases h with
  | operands _ _ => exact .inl (by rw [nothing])
  | call op done callee found =>
    obtain ⟨-, rfl⟩ := seq_nil_ok done
    cases callee
    exact .inr ⟨_, found, rfl⟩
  | block op => cases known.symm.trans op
  | loop op => cases known.symm.trans op
  | test op => cases known.symm.trans op
  | arm op => cases known.symm.trans op

theorem starts_passes (isLoop : Bool)
    (known : Op.ofName? (keyword word) = some (if isLoop then .loop else .block))
    (h : Starts env ⟨d, f, .instr (form word (.atom (key label) :: body)), s⟩ y) :
    y = ⟨d, f, .passes isLoop (some (key label)) s.stack.height body, s⟩ := by
  cases h with
  | block op =>
    cases isLoop with
    | false => rfl
    | true => cases known.symm.trans op
  | loop op =>
    cases isLoop with
    | false => cases known.symm.trans op
    | true => rfl
  | test op => cases isLoop <;> cases known.symm.trans op
  | arm op => cases isLoop <;> cases known.symm.trans op
  | operands _ op => exact absurd known (op _ (by cases isLoop <;> simp))
  | call op => cases isLoop <;> cases known.symm.trans op

theorem starts_cond (h : Starts env ⟨d, f, .instr (form "if" (arms yes no)), s⟩ y) :
    y = ⟨d, f, .seq [], s⟩ ∨
      ∃ v u, pop.run s = (.ok v, u) ∧ y = ⟨d, f, .seq (if v = 0 then no else yes), u⟩ := by
  have known := ofName_cond
  cases h with
  | test _ => exact .inl (by rw [tests_form])
  | @arm _ _ _ _ t u _ v _ done pops =>
    rw [tests_form] at done
    obtain ⟨-, rfl⟩ := seq_nil_ok done
    exact .inr ⟨v, u, pops, congrArg (fun code => (⟨d, f, .seq code, u⟩ : Point))
      (arm_arms v yes no)⟩
  | block op => cases known.symm.trans op
  | loop op => cases known.symm.trans op
  | operands _ op => exact absurd known (op _ (by simp))
  | call op => cases known.symm.trans op

end forms

namespace Instance

/-- The point that a call from outside begins with. -/
def entry (inst : Instance) (f : Func HostFunc) (args : List Word) : Point where
  depth := 0
  func := none
  task := .call f
  state := ⟨inst.globals, ⟨args.reverse, []⟩, [], [], 0⟩

/-- The points that a call from outside can pass through. -/
def Visits (inst : Instance) (budget : Option Nat) (x : Point) : Prop :=
  ∃ name f args, inst.exports.lookup name = some f ∧ args.length = f.params.length ∧
    Reaches ⟨inst.funcs, budget⟩ (inst.entry f args) x

/-- What becomes of an instance by calls from outside, however they end. -/
inductive Becomes (inst : Instance) : Instance → Prop
  | same : Becomes inst inst
  | call {i : Instance} (before : Becomes inst i) (fuel : Nat) (budget : Option Nat) (name : Bytes)
      (args : List Word) : Becomes inst (i.invoke fuel budget name args).inst

/-- A call from outside leaves an instance unchanged, or with globals that it has passed through. -/
theorem invoke_inst (inst : Instance) (fuel : Nat) (budget : Option Nat) (name : Bytes)
    (args : List Word) :
    (inst.invoke fuel budget name args).inst = inst ∨ ∃ x, inst.Visits budget x ∧
      (inst.invoke fuel budget name args).inst = { inst with globals := x.state.globals } := by
  rw [invoke]
  cases found : inst.exports.lookup name with
  | none => exact .inl rfl
  | some f =>
    by_cases arity : args.length = f.params.length
    · obtain ⟨x, reach, same⟩ := (ends_passed ⟨inst.funcs, budget⟩ fuel).call 0 none f
        (inst.entry f args).state
      refine .inr ⟨x, ⟨name, f, args, found, arity, reach⟩, ?_⟩
      simp only [if_neg (not_not.2 arity), same]
      rfl
    · simp [arity]

end Instance

end Machine
end WordScript
