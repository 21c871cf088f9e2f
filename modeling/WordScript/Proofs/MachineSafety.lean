import WordScript.Proofs.Reachability
import WordScript.Proofs.Shape

/-! What no run of the machine does.

A height at which the stack has stood can be cut to ever after, because no slot of the stack is
taken back. What is left to crash on is an imported function that is declared with fewer parameters
than the host function reads. -/
namespace WordScript
namespace Machine

/-- A function that is not imported with fewer parameters than the host function reads. -/
def Func.Supplied (f : Func HostFunc) : Prop :=
  ∀ host, f.code = .imported host → host.reads ≤ f.params.length

def Intact {α : Type} (x : Exec α) (s : State) : Prop := (x.run s).1 ≠ .error .crash

section intact

variable {env : Env} {α β : Type} {x : Exec α} {f : α → Exec β} {s : State}

theorem Intact.bind (hx : Intact x s) (hf : ∀ a t, x.run s = (.ok a, t) → Intact (f a) t) :
    Intact (x >>= f) s := by
  rw [Intact, run_bind]
  rcases hr : x.run s with ⟨e | a, t⟩
  · rw [Intact, hr] at hx
    intro crash
    cases crash
    exact hx rfl
  · exact hf a t hr

theorem Calm.intact (hx : Calm x) (s : State) : Intact x s := by
  intro crash
  obtain ⟨t, ht⟩ := hx.traps crash
  cases ht

theorem Tidy.intact {x : Exec Control} (hx : Tidy x) (s : State) : Intact x s := by
  intro crash
  obtain ⟨t, ht⟩ := hx.traps crash
  cases ht

theorem Steady.intact_bind (steady : Steady x) (hx : Intact x s)
    (hf : ∀ a t, Grows s t → Intact (f a) t) : Intact (x >>= f) s :=
  hx.bind fun a t h => hf a t (steady.grows h)

theorem Calm.intact_bind (hx : Calm x) (hf : ∀ a t, Grows s t → Intact (f a) t) :
    Intact (x >>= f) s :=
  hx.steady.intact_bind (hx.intact s) hf

theorem intact_cut (h : n ≤ s.stack.filled) : Intact (cut n) s := by
  obtain ⟨t, ht⟩ := Option.isSome_iff_exists.1 ((s.stack.cut?_isSome n).2 h)
  simp only [Intact, cut, run_bind, run_get, ht]
  rintro ⟨⟩

theorem length_popMany (h : (popMany n).run s = (.ok args, t)) : args.length = n := by
  simp only [popMany, run_bind, run_get, Stack.popMany?] at h
  split at h
  · rename_i popped
    split at popped
    · cases popped
      cases h
      simp only [List.length_reverse, List.length_take, Stack.height] at *
      omega
    · cases popped
  · cases h

theorem intact_answer {f : Func HostFunc} (h : host.reads ≤ args.length) (s : State) :
    Intact (answer f host args) s := by
  have replies := host.reply?_isSome args
  rw [decide_eq_true h] at replies
  obtain ⟨reply, hr⟩ := Option.isSome_iff_exists.1 replies
  simp only [answer, hr]
  rintro ⟨⟩

/-- A function can be left once its body has run: the height to cut the stack to is one at which
the stack has stood. -/
theorem intact_leave (f : Func HostFunc) (caller : List (Bytes × Word)) (c : Control)
    (h : before ≤ s.stack.filled) : Intact (leave f caller before c) s := by
  have ends (v : Word) (t : State) (grows : Grows s t) : Intact (cut before >>= fun _ =>
      modify (fun s => { s with locals := caller }) >>= fun _ => pure v) t :=
    (intact_cut (Nat.le_trans h grows.slots)).bind fun _ _ _ => nofun
  cases c with
  | branch l => exact (calm_stop _).intact s
  | next | ret =>
    unfold leave
    dsimp only
    split
    · refine calm_get.intact_bind fun u t ht => ?_
      split
      · refine calm_height.intact_bind fun n t' ht' => ?_
        split
        · exact (calm_stop _).intact_bind fun v t'' ht'' => ends v t'' ((ht.trans ht').trans ht'')
        · exact (calm_pure _).intact_bind fun v t'' ht'' => ends v t'' ((ht.trans ht').trans ht'')
      · exact (calm_stop _).intact_bind fun v t' ht' => ends v t' (ht.trans ht')
    · exact (calm_pure _).intact_bind ends

/-- Runs with an amount of fuel do not crash; a block or a loop may rely on the height it is to cut
the stack to. -/
structure IntactRuns (env : Env) (fuel : Nat) : Prop where
  seq (d : Nat) (code : List Sexpr) (s : State) : Intact (seq env fuel d code) s
  instr (d : Nat) (i : Sexpr) (s : State) : Intact (instr env fuel d i) s
  passes (d : Nat) (isLoop : Bool) (label : Option Bytes) {height : Nat} (body : List Sexpr)
    {s : State} (h : height ≤ s.stack.filled) :
    Intact (passes env fuel d isLoop label height body) s
  call (d : Nat) {f : Func HostFunc} (h : f.Supplied) (s : State) : Intact (call env fuel d f) s

variable {fuel : Nat} (ih : IntactRuns env fuel)

include ih

theorem intact_resume (d : Nat) (code : List Sexpr) (hr : ∀ t, Intact rest t) (s : State) :
    Intact (seq env fuel d code >>= resume rest) s := by
  refine (ih.seq d code s).bind fun c t _ => ?_
  cases c with
  | next => exact hr t
  | branch l => exact nofun
  | ret => exact nofun

theorem intact_seq (d : Nat) (code : List Sexpr) (s : State) :
    Intact (seq env (fuel + 1) d code) s := by
  cases code with
  | nil =>
    rw [seq]
    exact nofun
  | cons i rest =>
    rw [seq_cons_succ]
    refine (ih.instr d i s).bind fun c t _ => ?_
    cases c with
    | next => exact ih.seq d rest t
    | branch l => exact nofun
    | ret => exact nofun

theorem intact_passes (d : Nat) (isLoop : Bool) (label : Option Bytes) {height : Nat}
    (body : List Sexpr) {s : State} (h : height ≤ s.stack.filled) :
    Intact (passes env (fuel + 1) d isLoop label height body) s := by
  rw [passes_succ]
  refine calm_check.intact_bind fun _ t ht => ?_
  refine ((steady_runs env fuel).seq d body).intact_bind (ih.seq d body t) fun c u hu => ?_
  cases c with
  | next | ret => rintro ⟨⟩
  | branch l =>
    rw [repass]
    split
    · refine (tame_cut height).steady.intact_bind (intact_cut ?_) fun _ v hv => ?_
      · exact Nat.le_trans h (ht.trans hu).slots
      · split
        · exact ih.passes d isLoop label body (Nat.le_trans h ((ht.trans hu).trans hv).slots)
        · rintro ⟨⟩
    · rintro ⟨⟩

theorem intact_call (d : Nat) {f : Func HostFunc} (supplied : f.Supplied) (s : State) :
    Intact (call env (fuel + 1) d f) s := by
  cases call_step env d f with
  | imported host code run =>
    rw [run]
    refine ((calm_popMany _).intact s).bind fun args t popped => intact_answer ?_ t
    rw [length_popMany popped]
    exact supplied host code
  | tooDeep deep locals body code run =>
    rw [run]
    exact ((calm_popMany _).bind fun _ => calm_stop _).intact s
  | defined shallow locals body code run =>
    rw [run]
    refine ((calm_popMany _).intact s).bind fun args t popped => ?_
    refine calm_get.intact_bind fun _ u hu => ?_
    refine Intact.bind (x := modify _) nofun fun _ v hv => ?_
    refine Intact.bind (x := height) nofun fun before w hw => ?_
    cases hw
    refine ((steady_runs env fuel).seq (d + 1) body).intact_bind (ih.seq _ body _) fun c x hx => ?_
    exact intact_leave f _ c (Nat.le_trans (Stack.height_le_filled _) hx.slots)

theorem intact_choose (d : Nat) (i : Sexpr) (s : State) : Intact (choose env fuel d i) s := by
  refine calm_pop.intact_bind fun v t _ => ?_
  refine Intact.bind (x := height) nofun fun h u hu => ?_
  cases hu
  refine ((steady_runs env fuel).seq d _).intact_bind (ih.seq d _ t) fun c w hw => ?_
  cases c with
  | next | ret => exact nofun
  | branch l =>
    dsimp only
    split
    · refine (intact_cut ?_).bind fun _ _ _ => nofun
      exact Nat.le_trans (Stack.height_le_filled _) hw.slots
    · exact nofun

section

variable (supplied : ∀ f ∈ env.funcs, f.Supplied) (d : Nat)
include supplied d

theorem intact_callNamed (op : Bytes) (imms : List Bytes) (s : State) :
    Intact (callNamed env fuel d op imms) s := by
  refine (calm_immediate op imms).intact_bind fun name t _ => ?_
  cases found : env.funcs.find? (·.name == name) with
  | none => exact nofun
  | some f =>
    refine (ih.call d (supplied f (List.mem_of_find?_eq_some found)) t).bind fun v u _ => ?_
    split <;> exact nofun

theorem intact_perform (op : Bytes) (imms : List Bytes) (s : State) :
    Intact (perform env fuel d op imms) s := by
  unfold perform
  split
  · exact (simple_tidy op imms _).intact s
  · exact intact_callNamed ih supplied d op imms s
  · rintro ⟨⟩

theorem intact_instr (i : Sexpr) (s : State) : Intact (instr env (fuel + 1) d i) s := by
  cases instr_step env d i with
  | formless head run =>
    rw [run]
    exact nofun
  | passes isLoop head op run =>
    rw [run]
    exact ih.passes d isLoop _ _ s.stack.height_le_filled
  | cond head op run =>
    rw [run]
    exact intact_resume ih d _ (intact_choose ih d i) s
  | plain head op run =>
    rw [run]
    exact intact_resume ih d _ (intact_perform ih supplied d _ _) s

end

omit ih in
theorem intact_runs (supplied : ∀ f ∈ env.funcs, f.Supplied) (fuel : Nat) :
    IntactRuns env fuel := by
  induction fuel with
  | zero =>
    constructor <;> intros
    · rw [seq]; exact nofun
    · rw [instr]; exact nofun
    · rw [passes]; exact nofun
    · rw [call]; exact nofun
  | succ fuel ih =>
    exact ⟨intact_seq ih, intact_instr ih supplied, intact_passes ih, intact_call ih⟩

end intact

namespace Image

/-- What is exported are functions of the module. -/
def Closed (m : Image) : Prop := ∀ e ∈ m.exports, e.2 ∈ m.funcs

/-- Every imported function that the host provides is declared with as many parameters as the host
function reads. -/
def Supplied (m : Image) : Prop :=
  ∀ f ∈ m.funcs, ∀ i host, f.code = .imported i → HostFunc.find? i = some host →
    host.reads ≤ f.params.length

variable {m m' : Image} {s : Sexpr}

section

variable (h : m.Closed)
include h

theorem addFunc_closed (added : m.addFunc d code = .ok m') : m'.Closed := by
  rw [addFunc] at added
  split at added
  · cases added
  · cases added
    intro e he
    rcases List.mem_append.1 he with old | new
    · exact List.mem_append_left _ (h e old)
    · obtain ⟨n, -, rfl⟩ := List.mem_map.1 new
      exact List.mem_append_right _ (List.mem_singleton.2 rfl)

theorem addImport_closed (added : m.addImport s = .ok m') : m'.Closed := by
  rw [addImport] at added
  split at added
  · split at added
    · obtain ⟨source, -, added⟩ := bind_eq_ok.1 added
      obtain ⟨name, -, added⟩ := bind_eq_ok.1 added
      obtain ⟨d, -, added⟩ := bind_eq_ok.1 added
      exact addFunc_closed h added
    · cases added
  · cases added

theorem addDefined_closed (added : m.addDefined s = .ok m') : m'.Closed := by
  obtain ⟨⟨d, body⟩, -, added⟩ := bind_eq_ok.1 added
  exact addFunc_closed h added

theorem addGlobal_closed (added : m.addGlobal s = .ok m') : m'.Closed := by
  rw [addGlobal] at added
  split at added
  · split at added
    · obtain ⟨isMutable, -, added⟩ := bind_eq_ok.1 added
      split at added
      · split at added
        · split at added
          · cases added
            exact h
          · cases added
        · cases added
      · cases added
    · cases added
  · cases added

theorem addField_closed (added : m.addField s = .ok m') : m'.Closed := by
  rw [addField] at added
  split at added
  · exact addImport_closed h added
  · split at added
    · exact addGlobal_closed h added
    · split at added
      · exact addDefined_closed h added
      · cases added

theorem addFields_closed (added : m.addFields fields = .ok m') : m'.Closed := by
  induction fields generalizing m with
  | nil =>
    cases added
    exact h
  | cons s rest ih =>
    obtain ⟨m₁, first, added⟩ := bind_eq_ok.1 added
    exact ih (addField_closed h first) added

end

theorem load_closed (loaded : load text = .ok m) : m.Closed := by
  rw [load] at loaded
  split at loaded
  · cases loaded
  · split at loaded
    · exact addFields_closed (m := Image.empty) (fun _ none => nomatch none) loaded
    · cases loaded
  · cases loaded

end Image

theorem Func.link_supplied {f : Func Import} (linked : f.link = .ok g)
    (h : ∀ i host, f.code = .imported i → HostFunc.find? i = some host → host.reads ≤ f.params.length) :
    g.Supplied := by
  rw [Func.link] at linked
  split at linked
  · cases linked
    exact nofun
  · rename_i i code
    split at linked
    · rename_i host found
      cases linked
      rintro _ ⟨⟩
      exact h i host code found
    · cases linked

theorem linkAll_supplied (linked : linkAll fs = .ok gs)
    (h : ∀ f ∈ fs, ∀ i host, f.code = .imported i → HostFunc.find? i = some host → host.reads ≤ f.params.length) :
    ∀ g ∈ gs, g.Supplied := by
  induction fs generalizing gs with
  | nil =>
    cases linked
    exact nofun
  | cons f rest ih =>
    obtain ⟨g, first, linked⟩ := bind_eq_ok.1 linked
    obtain ⟨gs', others, linked⟩ := bind_eq_ok.1 linked
    cases linked
    rintro g' (_ | ⟨_, hg⟩)
    · exact Func.link_supplied first (h f (.head _))
    · exact ih others (fun f' hf => h f' (.tail _ hf)) g' hg

theorem linkExports_supplied (linked : linkExports es = .ok gs)
    (h : ∀ e ∈ es, ∀ i host, e.2.code = .imported i → HostFunc.find? i = some host → host.reads ≤ e.2.params.length) :
    ∀ e ∈ gs, e.2.Supplied := by
  induction es generalizing gs with
  | nil =>
    cases linked
    exact nofun
  | cons e rest ih =>
    obtain ⟨g, first, linked⟩ := bind_eq_ok.1 linked
    obtain ⟨gs', others, linked⟩ := bind_eq_ok.1 linked
    cases linked
    rintro e' (_ | ⟨_, he⟩)
    · exact Func.link_supplied first (h e (.head _))
    · exact ih others (fun e' he => h e' (.tail _ he)) e' he

namespace Instance

variable {inst i : Instance}

/-- The functions of an instance and its exports are supplied. -/
structure Supplied (inst : Instance) : Prop where
  funcs : ∀ f ∈ inst.funcs, f.Supplied
  exports : ∀ e ∈ inst.exports, e.2.Supplied

theorem supplied_of_instantiate {m : Image} (closed : m.Closed) (supplied : m.Supplied)
    (h : m.instantiate = .ok inst) : inst.Supplied := by
  obtain ⟨funcs, linked, h⟩ := bind_eq_ok.1 h
  split at h
  · cases h
  · obtain ⟨exports, exported, h⟩ := bind_eq_ok.1 h
    cases h
    exact ⟨linkAll_supplied linked supplied,
      linkExports_supplied exported fun e he => supplied e.2 (closed e he)⟩

theorem invoke_inst_funcs (inst : Instance) (fuel : Nat) (budget : Option Nat) (name : Bytes)
    (args : List Word) : (inst.invoke fuel budget name args).inst.funcs = inst.funcs ∧
      (inst.invoke fuel budget name args).inst.exports = inst.exports := by
  obtain same | ⟨x, -, same⟩ := inst.invoke_inst fuel budget name args <;> rw [same] <;>
    exact ⟨rfl, rfl⟩

theorem Becomes.same_funcs (h : inst.Becomes i) :
    i.funcs = inst.funcs ∧ i.exports = inst.exports := by
  induction h with
  | same => exact ⟨rfl, rfl⟩
  | call before fuel budget name args ih =>
    obtain ⟨funcs, exports⟩ := invoke_inst_funcs _ fuel budget name args
    exact ⟨funcs.trans ih.1, exports.trans ih.2⟩

theorem Supplied.becomes (h : inst.Supplied) (becomes : inst.Becomes i) : i.Supplied := by
  obtain ⟨funcs, exports⟩ := becomes.same_funcs
  exact ⟨funcs ▸ h.funcs, exports ▸ h.exports⟩

/-- The end of a call from outside, by the end of the run that it starts. -/
def conclude (inst : Instance) (f : Func HostFunc) (r : Except Halt Word × State) : Invocation where
  outcome := (r.1.map fun v => if f.result then some v else none).mapError .halt
  printed := r.2.printed.reverse
  inst := { inst with globals := r.2.globals }

theorem invoke_eq (found : inst.exports.lookup name = some f)
    (arity : args.length = f.params.length) (fuel : Nat) (budget : Option Nat) :
    inst.invoke fuel budget name args =
      inst.conclude f ((call ⟨inst.funcs, budget⟩ fuel 0 f).run (inst.entry f args).state) := by
  simp only [invoke, found, if_neg (not_not.2 arity), entry]
  rcases (call ⟨inst.funcs, budget⟩ fuel 0 f).run _ with ⟨_ | _, t⟩ <;> rfl

theorem Supplied.invoke_ne_crash (h : inst.Supplied) (fuel : Nat) (budget : Option Nat)
    (name : Bytes) (args : List Word) :
    (inst.invoke fuel budget name args).outcome ≠ .error (.halt .crash) := by
  cases found : inst.exports.lookup name with
  | none =>
    simp only [invoke, found]
    rintro ⟨⟩
  | some f =>
    by_cases arity : args.length = f.params.length
    · obtain ⟨before, after, split, -⟩ := List.lookup_eq_some_iff.1 found
      have supplied : f.Supplied := h.exports (name, f) (by simp [split])
      have intact := (@intact_runs ⟨inst.funcs, budget⟩ h.funcs fuel).call 0 supplied
        (inst.entry f args).state
      rw [invoke_eq found arity]
      rcases hr : (call ⟨inst.funcs, budget⟩ fuel 0 f).run (inst.entry f args).state with ⟨e | v, t⟩
      · rw [Intact, hr] at intact
        intro crash
        cases crash
        exact intact rfl
      · rintro ⟨⟩
    · simp only [invoke, found, if_pos arity]
      rintro ⟨⟩

theorem Supplied.invoke_ends_or_runs_on (h : inst.Supplied) (budget : Option Nat) (name : Bytes)
    (args : List Word) :
    (∃ least last, (∀ fuel ≥ least, inst.invoke fuel budget name args = last) ∧
      last.outcome ≠ .error (.halt .crash) ∧ last.outcome ≠ .error (.halt .outOfFuel)) ∨
    ∀ fuel, (inst.invoke fuel budget name args).outcome = .error (.halt .outOfFuel) := by
  have whole (least : Nat) (last : Invocation)
      (same : ∀ fuel ≥ least, inst.invoke fuel budget name args = last)
      (fuelled : last.outcome ≠ .error (.halt .outOfFuel)) :
      ∃ least last, (∀ fuel ≥ least, inst.invoke fuel budget name args = last) ∧
        last.outcome ≠ .error (.halt .crash) ∧ last.outcome ≠ .error (.halt .outOfFuel) :=
    ⟨least, last, same, same least (Nat.le_refl _) ▸ h.invoke_ne_crash least budget name args, fuelled⟩
  cases found : inst.exports.lookup name with
  | none =>
    refine .inl (whole 0 ⟨.error (.noExport name), [], inst⟩ (fun fuel _ => ?_) (by rintro ⟨⟩))
    simp only [invoke, found]
  | some f =>
    by_cases arity : args.length = f.params.length
    · by_cases ends : ∃ least,
          ¬ OutOfFuel ((call ⟨inst.funcs, budget⟩ least 0 f).run (inst.entry f args).state)
      · obtain ⟨least, ends⟩ := ends
        refine .inl (whole least (inst.conclude f
          ((call ⟨inst.funcs, budget⟩ least 0 f).run (inst.entry f args).state))
          (fun fuel more => ?_) ?_)
        · rw [invoke_eq found arity, call_stable ends fuel more]
        · rw [conclude]
          rcases hr : (call ⟨inst.funcs, budget⟩ least 0 f).run (inst.entry f args).state with
            ⟨e | v, t⟩
          · rw [hr] at ends
            intro out
            cases out
            exact ends rfl
          · rintro ⟨⟩
      · refine .inr fun fuel => ?_
        have out := not_not.1 fun h => ends ⟨fuel, h⟩
        rw [invoke_eq found arity, conclude, out]
        rfl
    · refine .inl (whole 0 ⟨.error (.arity name f.params.length args.length), [], inst⟩
        (fun fuel _ => ?_) (by rintro ⟨⟩))
      simp only [invoke, found, if_pos arity]

end Instance

end Machine
end WordScript
