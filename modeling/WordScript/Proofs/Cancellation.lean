import WordScript.Proofs.MachineSafety

/-! Cancelled runs end.

A run that is cancelled after a number of checks comes to an end whatever the module does. Calls
nest no deeper than the machine allows; between two calls the code that is left gets smaller, but
for a loop that starts again, and a loop starts again only past a check. So the measure is the depth
left, then the size of the code, then the checks left. -/
namespace WordScript
namespace Machine

section ends

variable {α β : Type} {c : Nat → Exec α} {s : State}
variable {x : Exec α} {d : Nat → α → Exec β}

def Ends (c : Nat → Exec α) (s : State) : Prop := ∃ r, Settles c s r ∧ ¬ OutOfFuel r

theorem Tame.ends (h : Tame x) (s : State) : Ends (fun _ => x) s :=
  ⟨_, .const x s, h.prompt s⟩

theorem Calm.ends (h : Calm x) (s : State) : Ends (fun _ => x) s := h.tame.ends s

theorem Tidy.ends {x : Exec Control} (h : Tidy x) (s : State) : Ends (fun _ => x) s := by
  refine ⟨_, .const x s, fun out => ?_⟩
  obtain ⟨t, ht⟩ := h.traps out
  cases ht

theorem Ends.step {x : Nat → Exec α} (zero : c 0 = throw .outOfFuel)
    (succ : ∀ fuel, c (fuel + 1) = x fuel) (h : Ends x s) : Ends c s := by
  obtain ⟨r, settles, out⟩ := h
  exact ⟨r, eq_later zero succ ▸ settles.later, out⟩

theorem Ends.bind (h : Ends c s)
    (hd : ∀ fuel a t, (c fuel).run s = (.ok a, t) → Ends (fun fuel => d fuel a) t) :
    Ends (fun fuel => c fuel >>= d fuel) s := by
  obtain ⟨⟨e | a, t⟩, settles, out⟩ := h
  · refine ⟨(.error e, t), settles.bind_error, fun out' => ?_⟩
    cases out'
    exact out rfl
  · obtain ⟨least, hl⟩ := settles.1
    obtain ⟨r, next, out'⟩ := hd least a t (hl least (Nat.le_refl _))
    exact ⟨r, settles.bind next, out'⟩

theorem Calm.ends_bind (h : Calm x)
    (hd : ∀ a t, x.run s = (.ok a, t) → Ends (fun fuel => d fuel a) t) :
    Ends (fun fuel => x >>= d fuel) s :=
  (h.ends s).bind fun _ a t => hd a t

end ends

section sizes

theorem sizeOf_filter_le (p : Sexpr → Bool) (xs : List Sexpr) :
    sizeOf (xs.filter p) ≤ sizeOf xs := by
  induction xs with
  | nil => exact Nat.le_refl _
  | cons x rest ih =>
    rw [List.filter_cons]
    split <;> simp only [List.cons.sizeOf_spec] <;> omega

theorem sizeOf_operands_le (i : Sexpr) : sizeOf i.operands ≤ sizeOf i := by
  rcases i with t | _ | ⟨x, rest⟩
  · simp [Sexpr.operands, Sexpr.items]
  · simp [Sexpr.operands, Sexpr.items]
  · simp only [Sexpr.operands, Sexpr.items, List.tail_cons, Sexpr.list.sizeOf_spec,
      List.cons.sizeOf_spec]
    omega

theorem sizeOf_operands_lt {i : Sexpr} (head : i.head.isEmpty = false) :
    sizeOf i.operands < sizeOf i := by
  rcases i with t | _ | ⟨x, rest⟩
  · cases head
  · cases head
  · simp only [Sexpr.operands, Sexpr.items, List.tail_cons, Sexpr.list.sizeOf_spec,
      List.cons.sizeOf_spec]
    omega

theorem sizeOf_splitLabel_le (xs : List Sexpr) : sizeOf (splitLabel xs).2 ≤ sizeOf xs := by
  cases xs with
  | nil => exact Nat.le_refl _
  | cons x rest =>
    rw [splitLabel]
    split
    · simp only [List.cons.sizeOf_spec]
      omega
    · exact Nat.le_refl _

theorem sizeOf_arm_le (kind : Bytes) (items : List Sexpr) : sizeOf (arm kind items) ≤ sizeOf items := by
  rw [arm]
  cases last : (items.filter (·.head == kind)).getLast? with
  | none =>
    cases items
    · exact Nat.le_refl _
    · simp only [Option.map_none, Option.getD_none, List.nil.sizeOf_spec, List.cons.sizeOf_spec]
      omega
  | some i =>
    have mem : i ∈ items := (List.mem_filter.1 (List.mem_of_getLast? last)).1
    exact Nat.le_trans (sizeOf_operands_le i) (Nat.le_of_lt (List.sizeOf_lt_of_mem mem))

end sizes

section runs

variable {env : Env} {n d : Nat}

theorem check_counts (budget : env.budget = some n) (h : (check env).run s = (.ok (), t)) :
    s.checks < n ∧ t.checks = s.checks + 1 := by
  simp only [check, budget, run_bind, run_get] at h
  split at h
  · cases h
  · rename_i go
    cases h
    exact ⟨Nat.not_le.1 go, rfl⟩

theorem resume_ends (hs : Ends (fun fuel => seq env fuel d code) s) (hr : ∀ t, Ends rest t) :
    Ends (fun fuel => seq env fuel d code >>= resume (rest fuel)) s := by
  refine hs.bind fun _ c t _ => ?_
  cases c with
  | next => exact hr t
  | branch l => exact (calm_pure _).ends t
  | ret => exact (calm_pure _).ends t

/-- A block or a loop comes to an end if its body does: each time it starts again a check is
gone. -/
theorem passes_ends (budget : env.budget = some n) (isLoop : Bool) (label : Option Bytes)
    (height : Nat) (hb : ∀ s, Ends (fun fuel => seq env fuel d body) s) (s : State) :
    Ends (fun fuel => passes env fuel d isLoop label height body) s := by
  induction left : n - s.checks using Nat.strongRecOn generalizing s with
  | ind k ih =>
    refine .step (by rw [passes]) (fun fuel => passes_succ fuel isLoop label height body) ?_
    refine calm_check.ends_bind fun _ t checked => ?_
    obtain ⟨some_left, counted⟩ := check_counts budget checked
    refine (hb t).bind fun fuel c u ran => ?_
    have grown := ((steady_runs env fuel).seq d body).grows ran
    cases c with
    | next => exact (calm_pure _).ends u
    | ret => exact (calm_pure _).ends u
    | branch l =>
      simp only [repass]
      split
      · refine ((tame_cut height).ends u).bind fun _ _ v cut => ?_
        have kept := (tame_cut height).steady.grows cut
        split
        · refine ih (n - v.checks) ?_ v rfl
          have := Nat.le_trans grown.checks kept.checks
          omega
        · exact (calm_pure _).ends v
      · exact (calm_pure _).ends u

section code

variable (budget : env.budget = some n)
  (calls : ∀ f s, Ends (fun fuel => call env fuel d f) s)

include calls

theorem callNamed_settles (op : Bytes) (imms : List Bytes) (s : State) :
    Ends (fun fuel => callNamed env fuel d op imms) s := by
  refine (calm_immediate op imms).ends_bind fun name t _ => ?_
  cases env.funcs.find? (·.name == name) with
  | none => exact (calm_stop _).ends t
  | some f =>
    refine (calls f t).bind fun _ v u _ => ?_
    split
    · exact (calm_next v).ends u
    · exact (calm_pure _).ends u

theorem perform_settles (op : Bytes) (imms : List Bytes) (s : State) :
    Ends (fun fuel => perform env fuel d op imms) s := by
  unfold perform
  split
  · exact (simple_tidy op imms _).ends s
  · exact callNamed_settles calls op imms s
  · exact (calm_stop _).ends s

include budget

theorem instr_ends
    (smaller : ∀ code : List Sexpr, sizeOf code < sizeOf i → ∀ s, Ends (fun fuel => seq env fuel d code) s)
    (s : State) : Ends (fun fuel => instr env fuel d i) s := by
  have smaller_items (head : i.head.isEmpty = false) : sizeOf (splitLabel i.operands).2 < sizeOf i :=
    Nat.lt_of_le_of_lt (sizeOf_splitLabel_le i.operands) (sizeOf_operands_lt head)
  cases instr_step env d i with
  | formless head run => exact .step (by rw [instr]) run ((calm_stop _).ends s)
  | passes isLoop head op run =>
    refine .step (by rw [instr]) run (calm_height.ends_bind fun h t _ => ?_)
    exact passes_ends budget isLoop _ h (smaller _ (smaller_items head)) t
  | cond head op run =>
    refine .step (by rw [instr]) run (resume_ends (smaller (tests i) ?_ s) fun t => ?_)
    · exact Nat.lt_of_le_of_lt (sizeOf_filter_le _ _) (smaller_items head)
    refine calm_pop.ends_bind fun v t' _ => calm_height.ends_bind fun h u _ => ?_
    have arm_ends := smaller (arm (if v = 0 then keyword "else" else keyword "then")
      (splitLabel i.operands).2) (Nat.lt_of_le_of_lt (sizeOf_arm_le _ _) (smaller_items head))
    refine (arm_ends u).bind fun _ c w _ => ?_
    cases c with
    | next => exact (calm_pure _).ends w
    | ret => exact (calm_pure _).ends w
    | branch l =>
      dsimp only
      split
      · exact ((tame_cut h).bind fun _ => (calm_pure _).tame).ends w
      · exact (calm_pure _).ends w
  | plain head op run =>
    refine .step (by rw [instr]) run (resume_ends (smaller (inner i) ?_ s)
      (perform_settles calls i.head (immediates i)))
    exact Nat.lt_of_le_of_lt (sizeOf_filter_le _ _) (sizeOf_operands_lt head)

theorem seq_ends (code : List Sexpr) (s : State) : Ends (fun fuel => seq env fuel d code) s := by
  induction size : sizeOf code using Nat.strongRecOn generalizing code s with
  | ind k ih =>
    subst size
    cases code with
    | nil => exact ⟨_, settles_nil env d s, nofun⟩
    | cons i rest =>
      have i_lt : sizeOf i < sizeOf (i :: rest) := by
        simp only [List.cons.sizeOf_spec]
        omega
      have rest_lt : sizeOf rest < sizeOf (i :: rest) := by
        simp only [List.cons.sizeOf_spec]
        omega
      refine .step (by rw [seq]) (fun fuel => seq_cons_succ env d fuel i rest) ?_
      have first := instr_ends budget calls (fun code small t =>
        ih _ (Nat.lt_trans small i_lt) code t rfl) s
      refine first.bind fun _ c t _ => ?_
      cases c with
      | next => exact ih _ rest_lt rest t rfl
      | branch l => exact (calm_pure _).ends t
      | ret => exact (calm_pure _).ends t

end code

/-- Calls come to an end: induction on the depth that is left. -/
theorem call_ends (budget : env.budget = some n) (f : Func HostFunc) (s : State) :
    Ends (fun fuel => call env fuel d f) s := by
  induction left : maxDepth - d using Nat.strongRecOn generalizing d f s with
  | ind left ih =>
    cases call_step env d f with
    | imported host code run =>
      exact .step (by rw [call]) run ((calm_popMany _).ends_bind fun args t _ =>
        (tame_answer f host args).ends t)
    | tooDeep deep locals body code run =>
      exact .step (by rw [call]) run ((calm_popMany _).ends_bind fun _ t _ => (calm_stop _).ends t)
    | defined shallow locals body code run =>
      have body_ends := seq_ends budget (fun g u => ih _ (by omega) g u rfl : ∀ g u,
        Ends (fun fuel => call env fuel (d + 1) g) u) body
      refine .step (by rw [call]) run ((calm_popMany _).ends_bind fun args t _ => ?_)
      refine calm_get.ends_bind fun _ u _ => (calm_setLocals _).ends_bind fun _ v _ => ?_
      refine calm_height.ends_bind fun before w _ => ?_
      exact (body_ends w).bind fun _ c x _ => (tame_leave f _ before c).ends x

end runs

/-- **A call from outside that is cancelled comes to an end.** Whatever the module does, there is an
amount of fuel from which on the call has the same end: a result, a trap, which may be that it was
cancelled, or a crash. It crashes only if the module imports a function with fewer parameters than
the host function reads. -/
theorem cancelled_call_ends {text : Bytes} {image : Image} {inst i : Instance} {name : Bytes}
    {f : Func HostFunc} {args : List Word} (loaded : Image.load text = .ok image)
    (linked : image.instantiate = .ok inst) (becomes : inst.Becomes i)
    (found : i.exports.lookup name = some f) (arity : args.length = f.params.length) (n : Nat) :
    ∃ least last, (∀ fuel ≥ least, i.invoke fuel (some n) name args = last) ∧
      ((∃ v, last.outcome = .ok (if f.result then some v else none)) ∨
        (∃ t, last.outcome = .error (.halt (.trap t))) ∨
        last.outcome = .error (.halt .crash) ∧ ¬ image.Supplied) := by
  have ends : Ends (fun fuel => call ⟨i.funcs, some n⟩ fuel 0 f) (i.entry f args).state :=
    call_ends rfl f _
  obtain ⟨r, ⟨⟨least, reached⟩, -⟩, fuelled⟩ := ends
  have same (fuel : Nat) (enough : fuel ≥ least) :
      i.invoke fuel (some n) name args = i.conclude f r := by
    rw [Instance.invoke_eq found arity, reached fuel enough]
  refine ⟨least, _, same, ?_⟩
  obtain ⟨_ | v, s⟩ := r
  · rename_i e
    cases e with
    | trap t => exact .inr (.inl ⟨t, rfl⟩)
    | outOfFuel => exact absurd rfl fuelled
    | crash =>
      refine .inr (.inr ⟨rfl, fun supplied => ?_⟩)
      have safe := (Instance.supplied_of_instantiate (Image.load_closed loaded) supplied
        linked).becomes becomes
      refine safe.invoke_ne_crash least (some n) name args ?_
      rw [same least (Nat.le_refl _)]
      rfl
  · exact .inl ⟨v, rfl⟩

/-- A function that branches to the start of its loop for ever. -/
def spinning {σ : Type} : Func σ :=
  ⟨keyword "$f", [], false, .defined [] [.list [.atom (keyword "loop"), .atom (keyword "$l"),
    .list [.atom (keyword "br"), .atom (keyword "$l")]]]⟩

theorem spinning_call_ends :
    Image.load (Utf8.encode "(module (func $f (export \"f\") (loop $l (br $l))))") =
      .ok ⟨[spinning], [], [(keyword "f", spinning)]⟩ ∧
    Image.instantiate ⟨[spinning], [], [(keyword "f", spinning)]⟩ =
      .ok ⟨[spinning], [(keyword "f", spinning)], []⟩ ∧
    ∃ least last, (∀ fuel ≥ least, Instance.invoke ⟨[spinning], [(keyword "f", spinning)], []⟩ fuel
        (some 3) (keyword "f") [] = last) ∧
      ((∃ v : Word, last.outcome = .ok (if (spinning : Func HostFunc).result then some v else none)) ∨
        (∃ t, last.outcome = .error (.halt (.trap t))) ∨
        last.outcome = .error (.halt .crash) ∧
          ¬ Image.Supplied ⟨[spinning], [], [(keyword "f", spinning)]⟩) := by
  have loaded : Image.load (Utf8.encode "(module (func $f (export \"f\") (loop $l (br $l))))") =
      .ok ⟨[spinning], [], [(keyword "f", spinning)]⟩ := rfl
  exact ⟨loaded, rfl, cancelled_call_ends loaded rfl .same rfl rfl 3⟩

/-- An import of the larger of two numbers that declares one of them. -/
def narrowMax {σ : Type} (source : σ) : Func σ := ⟨keyword "$m", [[]], true, .imported source⟩

/-- A call that is neither answered nor trapped: the host function reads an argument that the
module does not pass. -/
theorem narrowMax_call_crashes :
    ∃ image inst, Image.load (Utf8.encode ("(module (import \"imports\" \"max\" " ++
        "(func $m (export \"f\") (param i32) (result i32))))")) = .ok image ∧
      image.instantiate = .ok inst ∧ inst.exports.lookup (keyword "f") = some (narrowMax .max) ∧
      ∀ fuel n, (inst.invoke (fuel + 1) (some n) (keyword "f") [3]).outcome =
        .error (.halt .crash) := by
  refine ⟨⟨[narrowMax ⟨keyword "imports", keyword "max"⟩], [],
      [(keyword "f", narrowMax ⟨keyword "imports", keyword "max"⟩)]⟩,
    ⟨[narrowMax .max], [(keyword "f", narrowMax .max)], []⟩, rfl, rfl, rfl, fun fuel n => ?_⟩
  rw [Instance.invoke_eq (f := narrowMax .max) rfl rfl, call]
  rfl

end Machine
end WordScript
