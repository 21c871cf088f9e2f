import WordScript.Proofs.Execution

/-! What the steps of the machine change.

Only an instruction that sets a global changes the globals, and then the next instruction follows.
No step takes a slot of the stack back that it has filled, or a check that it has made. What is true
of all steps and of sequences of them is true of every run, by induction on the fuel. -/
namespace WordScript
namespace Machine

variable {s t : Stack}

def Stack.filled (s : Stack) : Nat := s.live.length + s.stale.length

theorem Stack.height_le_filled (s : Stack) : s.height ≤ s.filled := Nat.le_add_right _ _

theorem Stack.filled_push (s : Stack) (v : Word) : s.filled ≤ (s.push v).filled := by
  simp only [filled, push, List.length_cons, List.length_tail]
  omega

theorem Stack.filled_pop (h : s.pop? = some (v, t)) : t.filled = s.filled := by
  rcases s with ⟨_ | ⟨w, live⟩, stale⟩
  · cases h
  · cases h
    simp only [filled, List.length_cons]
    omega

theorem Stack.filled_popMany (h : s.popMany? n = some (vs, t)) : t.filled = s.filled := by
  rw [popMany?] at h
  split at h
  · cases h
    simp only [filled, List.length_append, List.length_reverse, List.length_take,
      List.length_drop] at *
    omega
  · cases h

theorem Stack.filled_cut (h : s.cut? n = some t) : t.filled = s.filled := by
  simp only [cut?] at h
  split at h
  · cases h
    simp only [filled, List.length_append, List.length_reverse, List.length_take,
      List.length_drop] at *
    omega
  · cases h

theorem Stack.cut?_isSome (s : Stack) (n : Nat) : (s.cut? n).isSome ↔ n ≤ s.filled := by
  simp only [cut?, filled, height, List.length_take]
  split
  · simp only [Option.isSome_some, true_iff]
    omega
  · simp only [Option.isSome_none, Bool.false_eq_true, false_iff]
    omega

section effects

variable {env : Env} {α β : Type}
variable {s t u : State} {x : Exec α} {f : α → Exec β}

/-- The slots filled and the checks made by a state are still there in a later one. -/
structure Grows (s t : State) : Prop where
  slots : s.stack.filled ≤ t.stack.filled
  checks : s.checks ≤ t.checks

theorem Grows.refl (s : State) : Grows s s := ⟨Nat.le_refl _, Nat.le_refl _⟩

theorem Grows.trans (h : Grows s t) (k : Grows t u) : Grows s u :=
  ⟨Nat.le_trans h.slots k.slots, Nat.le_trans h.checks k.checks⟩

/-- A later state with the same globals. -/
structure Frames (s t : State) : Prop extends Grows s t where
  globals : t.globals = s.globals

theorem Frames.refl (s : State) : Frames s s := ⟨.refl s, rfl⟩

theorem Frames.trans (h : Frames s t) (k : Frames t u) : Frames s u :=
  ⟨h.toGrows.trans k.toGrows, k.globals.trans h.globals⟩

theorem Frames.of_eq (slots : t.stack.filled = s.stack.filled) (checks : t.checks = s.checks)
    (globals : t.globals = s.globals) : Frames s t :=
  ⟨⟨Nat.le_of_eq slots.symm, Nat.le_of_eq checks.symm⟩, globals⟩

theorem run_bind_keeps {r : State → State → Prop} (trans : ∀ {s t u}, r s t → r t u → r s u)
    (hx : ∀ s, r s (x.run s).2) (hf : ∀ a s, r s ((f a).run s).2) (s : State) :
    r s ((x >>= f).run s).2 := by
  have first := hx s
  rw [run_bind]
  rcases hr : x.run s with ⟨e | a, t⟩ <;> rw [hr] at first
  · exact first
  · exact trans first (hf a t)

theorem run_bind_error (fails : ((x >>= f).run s).1 = .error h) :
    (x.run s).1 = .error h ∨ ∃ a t, ((f a).run t).1 = .error h := by
  rw [run_bind] at fails
  rcases hr : x.run s with ⟨e | a, t⟩ <;> rw [hr] at fails
  · exact .inl (by cases fails; rfl)
  · exact .inr ⟨a, t, fails⟩

/-- What takes back neither slots nor checks, however it ends. -/
def Steady (x : Exec α) : Prop := ∀ s, Grows s (x.run s).2

theorem Steady.grows (hx : Steady x) (h : x.run s = (r, t)) : Grows s t := by
  have := hx s
  rwa [h] at this

/-- What takes nothing back, leaves the globals alone and uses no fuel. -/
structure Tame (x : Exec α) : Prop where
  frames (s : State) : Frames s (x.run s).2
  prompt (s : State) : ¬ OutOfFuel (x.run s)

theorem Tame.steady (hx : Tame x) : Steady x := fun s => (hx.frames s).toGrows

theorem Tame.same (hx : Tame x) (h : x.run s = (r, t)) : t.globals = s.globals := by
  rw [← (hx.frames s).globals, h]

theorem Tame.bind (hx : Tame x) (hf : ∀ a, Tame (f a)) : Tame (x >>= f) := by
  refine ⟨run_bind_keeps .trans hx.frames fun a => (hf a).frames, fun s out => ?_⟩
  rcases run_bind_error out with out | ⟨a, t, out⟩
  · exact hx.prompt s out
  · exact (hf a).prompt t out

/-- What takes nothing back, leaves the globals alone and fails by a trap only. -/
structure Calm (x : Exec α) : Prop where
  frames (s : State) : Frames s (x.run s).2
  traps {s : State} {h : Halt} (fails : (x.run s).1 = .error h) : ∃ t, h = .trap t

theorem Calm.tame (hx : Calm x) : Tame x := by
  refine ⟨hx.frames, fun s out => ?_⟩
  obtain ⟨t, ht⟩ := hx.traps out
  cases ht

theorem Calm.steady (hx : Calm x) : Steady x := hx.tame.steady

theorem Calm.bind (hx : Calm x) (hf : ∀ a, Calm (f a)) : Calm (x >>= f) := by
  refine ⟨run_bind_keeps .trans hx.frames fun a => (hf a).frames, fun fails => ?_⟩
  rcases run_bind_error fails with fails | ⟨a, t, fails⟩
  · exact hx.traps fails
  · exact (hf a).traps fails

theorem calm_pure (a : α) : Calm (pure a : Exec α) := ⟨.refl, nofun⟩
theorem calm_get : Calm (get : Exec State) := ⟨.refl, nofun⟩
theorem calm_height : Calm height := ⟨.refl, nofun⟩

theorem calm_stop (t : Trap) : Calm (stop t : Exec α) :=
  ⟨.refl, fun fails => ⟨t, (Except.error.inj fails).symm⟩⟩

theorem calm_modify {f : State → State} (h : ∀ s, Frames s (f s)) : Calm (modify f) := ⟨h, nofun⟩

theorem calm_setLocals (f : State → List (Bytes × Word)) :
    Calm (modify fun s => { s with locals := f s }) := calm_modify fun _ => .of_eq rfl rfl rfl

theorem calm_push (v : Word) : Calm (push v) :=
  calm_modify fun s => ⟨⟨s.stack.filled_push v, Nat.le_refl _⟩, rfl⟩

theorem Calm.of_run
    (h : ∀ s, (∃ t, x.run s = (.error (.trap t), s)) ∨ ∃ a t, x.run s = (.ok a, t) ∧ Frames s t) :
    Calm x := by
  refine ⟨fun s => ?_, fun {s e} fails => ?_⟩ <;> obtain ⟨t, run⟩ | ⟨a, t, run, frames⟩ := h s
  · exact run ▸ .refl s
  · exact run ▸ frames
  · rw [run] at fails
    exact ⟨t, (Except.error.inj fails).symm⟩
  · rw [run] at fails
    cases fails

theorem calm_pop : Calm pop := by
  refine .of_run fun s => ?_
  simp only [pop, run_bind, run_get]
  cases h : s.stack.pop? with
  | none => exact .inl ⟨_, rfl⟩
  | some p => exact .inr ⟨_, _, rfl, .of_eq (Stack.filled_pop h) rfl rfl⟩

theorem calm_popMany (n : Nat) : Calm (popMany n) := by
  refine .of_run fun s => ?_
  simp only [popMany, run_bind, run_get]
  cases h : s.stack.popMany? n with
  | none => exact .inl ⟨_, rfl⟩
  | some p => exact .inr ⟨_, _, rfl, .of_eq (Stack.filled_popMany h) rfl rfl⟩

theorem calm_check : Calm (check env) := by
  have counts : Calm (modify fun s : State => { s with checks := s.checks + 1 }) :=
    calm_modify fun _ => ⟨⟨Nat.le_refl _, Nat.le_succ _⟩, rfl⟩
  rw [check]
  cases env.budget with
  | none => exact counts
  | some n =>
    refine calm_get.bind fun s => ?_
    split
    · exact (calm_stop _).bind fun _ => counts
    · exact counts

theorem calm_immediate (op : Bytes) (imms : List Bytes) : Calm (immediate op imms) := by
  unfold immediate
  split
  · exact calm_pure _
  · exact calm_stop _

theorem calm_getLocal (x : Bytes) : Calm (getLocal x) := by
  refine calm_get.bind fun s => ?_
  cases s.locals.lookup x
  · exact calm_stop _
  · exact calm_pure _

theorem calm_getGlobal (x : Bytes) : Calm (getGlobal x) := by
  refine calm_get.bind fun s => ?_
  cases s.globals.find? (·.name == x)
  · exact calm_stop _
  · exact calm_pure _

theorem calm_next (v : Word) : Calm (push v >>= fun _ => pure Control.next) :=
  (calm_push v).bind fun _ => calm_pure _

/-- What fails by a trap only and leaves the globals alone unless the next instruction follows. -/
structure Tidy (x : Exec Control) : Prop where
  steady : Steady x
  traps {s : State} {h : Halt} (fails : (x.run s).1 = .error h) : ∃ t, h = .trap t
  settled (s : State) : (∃ t, x.run s = (.ok .next, t)) ∨ (x.run s).2.globals = s.globals

theorem Calm.tidy {x : Exec Control} (h : Calm x) : Tidy x :=
  ⟨h.steady, h.traps, fun s => .inr (h.frames s).globals⟩

theorem Calm.bind_tidy {f : α → Exec Control} (hx : Calm x) (hf : ∀ a, Tidy (f a)) :
    Tidy (x >>= f) := by
  refine ⟨run_bind_keeps .trans hx.steady fun a => (hf a).steady, fun fails => ?_, fun s => ?_⟩
  · rcases run_bind_error fails with fails | ⟨a, t, fails⟩
    · exact hx.traps fails
    · exact (hf a).traps fails
  · have same := (hx.frames s).globals
    rw [run_bind]
    rcases hr : x.run s with ⟨e | a, t⟩ <;> rw [hr] at same
    · exact .inr same
    · exact ((hf a).settled t).imp_right (·.trans same)

theorem setGlobal_tidy (x : Bytes) (v : Word) : Tidy (setGlobal x v >>= fun _ => pure .next) :=
  ⟨fun _ => ⟨Nat.le_refl _, Nat.le_refl _⟩, nofun, fun _ => .inl ⟨_, rfl⟩⟩

theorem simple_tidy (op : Bytes) (imms : List Bytes) (o : Simple) : Tidy (simple op imms o) := by
  have imm := calm_immediate op imms
  cases o with
  | nop | ret => exact (calm_pure _).tidy
  | unreachable => exact (calm_stop _).tidy
  | drop => exact (calm_pop.bind fun _ => calm_pure _).tidy
  | br => exact (imm.bind fun _ => calm_pure _).tidy
  | brIf => exact (imm.bind fun _ => calm_pop.bind fun _ => calm_pure _).tidy
  | const =>
    refine imm.bind_tidy fun text => ?_
    cases constant? text with
    | none => exact (calm_stop _).tidy
    | some v => exact (calm_next v).tidy
  | localGet => exact (imm.bind fun x => (calm_getLocal x).bind calm_next).tidy
  | localSet =>
    exact (imm.bind fun x => (calm_getLocal x).bind fun _ => calm_pop.bind fun v =>
      (calm_setLocals _).bind fun _ => calm_pure _).tidy
  | localTee =>
    exact (calm_pop.bind fun v => imm.bind fun x => (calm_getLocal x).bind fun _ =>
      (calm_setLocals _).bind fun _ => calm_next v).tidy
  | globalGet => exact (imm.bind fun x => (calm_getGlobal x).bind fun g => calm_next g.value).tidy
  | globalSet =>
    refine imm.bind_tidy fun x => (calm_getGlobal x).bind_tidy fun g => ?_
    split
    · exact calm_pop.bind_tidy fun v => setGlobal_tidy x v
    · exact (calm_stop _).tidy
  | eqz => exact (calm_pop.bind fun v => calm_next _).tidy
  | op o =>
    refine calm_pop.bind_tidy fun rhs => calm_pop.bind_tidy fun lhs => ?_
    cases o.eval lhs rhs with
    | error fault => exact (calm_stop _).tidy
    | ok v => exact (calm_next v).tidy

theorem tame_crash : Tame (throw .crash : Exec α) := ⟨.refl, fun _ => nofun⟩

theorem tame_cut (n : Nat) : Tame (cut n) := by
  constructor <;> intro s <;> simp only [cut, run_bind, run_get] <;> cases h : s.stack.cut? n
  · exact .refl s
  · exact .of_eq (Stack.filled_cut h) rfl rfl
  · rintro ⟨⟩
  · rintro ⟨⟩

theorem tame_answer (f : Func HostFunc) (host : HostFunc) (args : List Word) :
    Tame (answer f host args) := by
  rw [answer]
  cases host.reply? args with
  | none => exact tame_crash
  | some reply => exact ⟨fun _ => .of_eq rfl rfl rfl, fun _ out => by cases out⟩

theorem tame_leave (f : Func HostFunc) (caller : List (Bytes × Word)) (before : Nat)
    (c : Control) : Tame (leave f caller before c) := by
  have ends (v : Word) : Tame (cut before >>= fun _ =>
      modify (fun s => { s with locals := caller }) >>= fun _ => pure v) :=
    (tame_cut before).bind fun _ => ((calm_setLocals _).bind fun _ => calm_pure v).tame
  cases c with
  | branch l => exact (calm_stop _).tame
  | next | ret =>
    unfold leave
    dsimp only
    split
    · refine calm_get.tame.bind fun s => ?_
      split
      · refine calm_height.tame.bind fun h => ?_
        split
        · exact (calm_stop _).tame.bind ends
        · exact (calm_pure _).tame.bind ends
      · exact (calm_stop _).tame.bind ends
    · exact (calm_pure _).tame.bind ends

end effects

/-- A relation between runs that holds of every step and passes to sequences of them. -/
structure Lifts (r : (α : Type) → Exec α → Exec α → Prop) : Prop where
  steady {α : Type} {x : Exec α} (h : Steady x) : r α x x
  bind {α β : Type} {x y : Exec α} {f g : α → Exec β} (hx : r α x y)
    (hf : ∀ a, r β (f a) (g a)) : r β (x >>= f) (y >>= g)
  outOfFuel {α : Type} (x : Exec α) : r α (throw .outOfFuel) x

/-- Runs with an amount of fuel are related to those with one more piece of it. -/
structure Related (r : (α : Type) → Exec α → Exec α → Prop) (env : Env) (fuel : Nat) : Prop where
  seq (d : Nat) (code : List Sexpr) : r _ (seq env fuel d code) (seq env (fuel + 1) d code)
  instr (d : Nat) (i : Sexpr) : r _ (instr env fuel d i) (instr env (fuel + 1) d i)
  passes (d : Nat) (isLoop : Bool) (label : Option Bytes) (height : Nat) (body : List Sexpr) :
    r _ (passes env fuel d isLoop label height body)
      (passes env (fuel + 1) d isLoop label height body)
  call (d : Nat) (f : Func HostFunc) : r _ (call env fuel d f) (call env (fuel + 1) d f)

section related

variable {r : (α : Type) → Exec α → Exec α → Prop} (lifts : Lifts r)

include lifts

theorem Lifts.tame {α : Type} {x : Exec α} (h : Tame x) : r α x x := lifts.steady h.steady

theorem Lifts.calm {α : Type} {x : Exec α} (h : Calm x) : r α x x := lifts.steady h.steady

theorem Lifts.pure {α : Type} (a : α) : r α (pure a) (pure a) := lifts.calm (calm_pure a)

theorem Lifts.resume (hx : r _ x y) (hr : r _ rest rest') :
    r _ (x >>= resume rest) (y >>= resume rest') := by
  refine lifts.bind hx fun c => ?_
  cases c with
  | next => exact hr
  | branch l => exact lifts.pure _
  | ret => exact lifts.pure _

theorem Lifts.caught [Decidable c] {x : Exec Control} (h : r _ x y) (height : Nat) (l : Bytes) :
    r _ (if c then cut height >>= fun _ => x else Pure.pure (.branch l))
      (if c then cut height >>= fun _ => y else Pure.pure (.branch l)) := by
  split
  · exact lifts.bind (lifts.tame (tame_cut height)) fun _ => h
  · exact lifts.pure _

theorem Lifts.repass {height : Nat}
    (h : r _ (passes env fuel d isLoop label height body) (passes env fuel' d isLoop label height body'))
    (c : Control) :
    r _ (repass env fuel d isLoop label height body c)
      (repass env fuel' d isLoop label height body' c) := by
  cases c with
  | next | ret => exact lifts.pure _
  | branch l =>
    refine lifts.caught ?_ height l
    split
    · exact h
    · exact lifts.pure _

variable {env : Env} {fuel : Nat} (ih : Related r env fuel)

include ih

theorem Lifts.choose (d : Nat) (i : Sexpr) :
    r _ (choose env fuel d i) (choose env (fuel + 1) d i) := by
  refine lifts.bind (lifts.calm calm_pop) fun v => lifts.bind (lifts.calm calm_height) fun h => ?_
  refine lifts.bind (ih.seq d _) fun c => ?_
  cases c with
  | next | ret => exact lifts.pure _
  | branch l => exact lifts.caught (lifts.pure _) h l

theorem Lifts.callNamed (d : Nat) (op : Bytes) (imms : List Bytes) :
    r _ (callNamed env fuel d op imms) (callNamed env (fuel + 1) d op imms) := by
  refine lifts.bind (lifts.calm (calm_immediate op imms)) fun name => ?_
  cases env.funcs.find? (·.name == name) with
  | none => exact lifts.calm (calm_stop _)
  | some f =>
    refine lifts.bind (ih.call d f) fun v => lifts.calm ?_
    split
    · exact calm_next v
    · exact calm_pure _

theorem Lifts.perform (d : Nat) (op : Bytes) (imms : List Bytes) :
    r _ (perform env fuel d op imms) (perform env (fuel + 1) d op imms) := by
  unfold Machine.perform
  split
  · exact lifts.steady (simple_tidy op imms _).steady
  · exact lifts.callNamed ih d op imms
  · exact lifts.calm (calm_stop _)

theorem Lifts.enter (d : Nat) (f : Func HostFunc) (locals : List Bytes) (body : List Sexpr)
    (args : List Word) : r _ (enter env fuel d f locals body args)
      (enter env (fuel + 1) d f locals body args) := by
  refine lifts.bind (lifts.calm calm_get) fun s => ?_
  refine lifts.bind (lifts.calm (calm_setLocals _)) fun _ => ?_
  refine lifts.bind (lifts.calm calm_height) fun before => ?_
  exact lifts.bind (ih.seq _ body) fun c => lifts.tame (tame_leave f _ before c)

theorem Related.succ : Related r env (fuel + 1) := by
  constructor
  · intro d code
    cases code with
    | nil =>
      rw [Machine.seq, Machine.seq]
      exact lifts.pure _
    | cons i rest =>
      rw [seq_cons_succ, seq_cons_succ]
      exact lifts.resume (ih.instr d i) (ih.seq d rest)
  · intro d i
    cases instr_step env d i with
    | formless head run =>
      rw [run, run]
      exact lifts.calm (calm_stop _)
    | passes isLoop head op run =>
      rw [run, run]
      exact lifts.bind (lifts.calm calm_height) fun h => ih.passes d isLoop _ h _
    | cond head op run =>
      rw [run, run]
      exact lifts.resume (ih.seq d _) (lifts.choose ih d i)
    | plain head op run =>
      rw [run, run]
      exact lifts.resume (ih.seq d _) (lifts.perform ih d _ _)
  · intro d isLoop label height body
    rw [passes_succ, passes_succ]
    refine lifts.bind (lifts.calm calm_check) fun _ => lifts.bind (ih.seq d body) fun c => ?_
    exact lifts.repass (ih.passes d isLoop label height body) c
  · intro d f
    cases call_step env d f with
    | imported host code run =>
      rw [run, run]
      exact lifts.bind (lifts.calm (calm_popMany _)) fun args => lifts.tame (tame_answer f host args)
    | tooDeep deep locals body code run =>
      rw [run, run]
      exact lifts.bind (lifts.calm (calm_popMany _)) fun _ => lifts.calm (calm_stop _)
    | defined shallow locals body code run =>
      rw [run, run]
      exact lifts.bind (lifts.calm (calm_popMany _)) (lifts.enter ih d f locals body)

omit ih in
theorem related_runs (env : Env) (fuel : Nat) : Related r env fuel := by
  induction fuel with
  | zero =>
    constructor <;> intros
    · rw [seq]; exact lifts.outOfFuel _
    · rw [instr]; exact lifts.outOfFuel _
    · rw [passes]; exact lifts.outOfFuel _
    · rw [call]; exact lifts.outOfFuel _
  | succ fuel ih => exact ih.succ lifts

end related

theorem steady_lifts : Lifts fun _ x _ => Steady x where
  steady h := h
  bind hx hf := run_bind_keeps .trans hx hf
  outOfFuel _ := .refl

theorem steady_runs (env : Env) (fuel : Nat) : Related (fun _ x _ => Steady x) env fuel :=
  related_runs steady_lifts env fuel

section fuel

variable {α β : Type}

/-- A run is out of fuel or has the same end as another one. -/
def Prolongs (x y : Exec α) : Prop := ∀ s, OutOfFuel (x.run s) ∨ y.run s = x.run s

theorem Prolongs.refl (x : Exec α) : Prolongs x x := fun _ => .inr rfl

theorem Prolongs.bind {f : α → Exec β} (hx : Prolongs x y) (hf : ∀ a, Prolongs (f a) (g a)) :
    Prolongs (x >>= f) (y >>= g) := by
  intro s
  rcases hx s with out | same
  · exact .inl out.bind
  · rw [run_bind, run_bind, same]
    rcases x.run s with ⟨e | a, t⟩
    · exact .inr rfl
    · exact hf a t

theorem prolongs_lifts : Lifts fun _ x y => Prolongs x y where
  steady _ := .refl _
  bind := .bind
  outOfFuel _ _ := .inl rfl

/-- Runs with one more piece of fuel have the same end unless the fuel was too little. -/
theorem more_fuel (env : Env) (fuel : Nat) : Related (fun _ x y => Prolongs x y) env fuel :=
  related_runs prolongs_lifts env fuel

theorem call_stable {s : State} (h : ¬ OutOfFuel ((call env least d f).run s)) (fuel : Nat)
    (more : least ≤ fuel) : (call env fuel d f).run s = (call env least d f).run s := by
  induction more with
  | refl => rfl
  | step more ih =>
    rcases (more_fuel env _).call d f s with out | same
    · rw [ih] at out
      exact absurd out h
    · exact same.trans ih

end fuel

end Machine
end WordScript
