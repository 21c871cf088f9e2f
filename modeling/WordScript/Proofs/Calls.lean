import WordScript.Proofs.Simulation

/-! Calls in generated code.

A call runs the code of a function in slots of its own, above the values of its caller. That code
follows the activation of the function if the calls that it makes follow theirs, so the calls of a
program are followed by induction on how many more may nest. -/
namespace WordScript
namespace Simulation

open Machine (Exec Settles Lasts Control seq instr passes resume)
open Meaning (Eval Flow)
open StackCode (key form)

variable {l : List (String × Word)}

theorem find?_name {α β : Type} [BEq β] [LawfulBEq β] {l : List α} {name : α → β}
    (hn : (l.map name).Nodup) {a : α} (ha : a ∈ l) : l.find? (name · == name a) = some a := by
  have found : (l.find? (name · == name a)).isSome = true :=
    List.find?_isSome.2 ⟨a, ha, beq_self_eq_true _⟩
  obtain ⟨b, hb⟩ := Option.isSome_iff_exists.1 found
  have same : name b = name a := by simpa using List.find?_some hb
  rw [hb, List.inj_on_of_nodup_map hn (List.mem_of_find?_eq_some hb) ha same]

theorem lookup_map_key (l : List (String × Word)) (x : String) :
    (l.map fun entry => (key entry.1, entry.2)).lookup (key x) = l.lookup x := by
  induction l with
  | nil => rfl
  | cons entry l ih =>
    rw [List.map_cons, lookup_cons_ite, lookup_cons_ite, ih]
    simp only [StackCode.key_inj]

theorem lookup_reverse (hn : (l.map (·.1)).Nodup) (x : String) :
    l.reverse.lookup x = l.lookup x := by
  have reversed : (l.reverse.map (·.1)).Nodup := by
    rw [List.map_reverse]
    exact List.nodup_reverse.2 hn
  ext v
  rw [lookup_eq_some_iff_mem hn, lookup_eq_some_iff_mem reversed, List.mem_reverse]

theorem lookup_isSome : (l.lookup x).isSome = true ↔ x ∈ l.map (·.1) := by
  rw [List.lookup_isSome_iff, List.mem_map]
  exact exists_congr fun entry => and_congr_right fun _ => by rw [beq_iff_eq, eq_comm]

theorem lookup_eq_none (h : x ∉ l.map (·.1)) : l.lookup x = none := by
  rw [← Option.not_isSome_iff_eq_none, lookup_isSome]
  exact h

theorem mem_zip_of_param {r : Ty → Word → Prop} {params : List Param}
    (hp : params.map (·.type) = types.map some) (hh : List.Forall₂ r types args) (ha : a ∈ params)
    (ht : a.type = some type) : ∃ v, (a.name, v) ∈ (params.map (·.name)).zip args ∧ r type v := by
  induction params generalizing types args with
  | nil => cases ha
  | cons b rest ih =>
    cases hh with
    | nil => simp at hp
    | @cons first v types args holds others =>
      simp only [List.map_cons, List.cons.injEq] at hp
      rcases List.mem_cons.1 ha with rfl | ha
      · obtain rfl := Option.some.inj (ht.symm.trans hp.1)
        exact ⟨v, List.mem_cons_self, holds⟩
      · obtain ⟨u, hu, hold⟩ := ih hp.2 others ha
        exact ⟨u, List.mem_cons_of_mem _ hu, hold⟩

section frames

variable {p : Program} {f : FuncDef} {args : List Word} {types : List Ty} {w : Meaning.State}
variable {place : Option FuncDef} {s t : Machine.State}

theorem length_args (hp : f.params.map (·.type) = types.map some) (ha : List.Forall₂ r types args) :
    f.params.length = args.length := by
  have same := congrArg List.length hp
  rw [List.length_map, List.length_map] at same
  rw [same, ha.length_eq]

theorem paramKeys (hl : f.params.length = args.length) :
    ((f.params.map (·.name)).zip args).map (·.1) = f.params.map (·.name) :=
  List.map_fst_zip (by simp [hl])

theorem frameOf_keys (hl : f.params.length = args.length) :
    (Meaning.frameOf f args).map (·.1) = f.locals.map (·.name) ++ f.params.map (·.name) := by
  rw [Meaning.frameOf, List.map_append, paramKeys hl, List.map_map]
  rfl

theorem typed_frameOf (hf : Rules.FuncTyped p f) (hp : f.params.map (·.type) = types.map some)
    (ha : List.Forall₂ Holds types args) (hw : Typed p place w) :
    Typed p (some f) { w with frame := Meaning.frameOf f args } := by
  have keys := frameOf_keys (length_args hp ha)
  have distinct : ((Meaning.frameOf f args).map (·.1)).Nodup := by
    rw [keys]
    exact List.nodup_append_comm.1 hf.slots
  refine ⟨hw.globals, ?_, ?_⟩
  · rintro _ ⟨⟩ x type declares
    cases declares with
    | param mem declared =>
      obtain ⟨v, hv, holds⟩ := mem_zip_of_param hp ha mem declared
      exact ⟨v, (lookup_eq_some_iff_mem distinct).2 (List.mem_append_right _ hv), holds⟩
    | @var v _ mem declared =>
      refine ⟨Meaning.literal v.init, (lookup_eq_some_iff_mem distinct).2 ?_, ?_⟩
      · exact List.mem_append_left _ (List.mem_map.2 ⟨v, mem, rfl⟩)
      · obtain ⟨type', declared', literal⟩ := hf.inits v mem
        obtain rfl := Option.some.inj (declared.symm.trans declared')
        exact holds_literal literal
  · intro x hx
    refine lookup_eq_none ?_
    rw [keys, List.mem_append, or_comm, ← List.mem_append]
    exact hx f rfl

/-- The slots of a function before its variables are set. -/
def slotsOf (f : FuncDef) (args : List Word) : List (String × Word) :=
  (StackCode.scratch :: f.locals.map (·.name)).map (·, 0) ++
    ((f.params.map (·.name)).zip args).reverse

theorem initialLocals_eq (f : FuncDef) (body : List StackCode.Instr) (args : List Word) :
    Machine.initialLocals (StackCode.loaded (StackCode.funcOf f body))
        ((StackCode.funcOf f body).locals.map key) args =
      (slotsOf f args).map fun entry => (key entry.1, entry.2) := by
  simp [Machine.initialLocals, slotsOf, StackCode.loaded, StackCode.funcOf, List.zip_map_left,
    Function.comp_def]

/-- Variables were set to their initial values. -/
structure Initialised (vs : List VarDecl) (s t : Machine.State) : Prop where
  globals : t.globals = s.globals
  printed : t.printed = s.printed
  live : t.stack.live = s.stack.live
  slots : ∀ x, t.locals.lookup (key x) =
    ((vs.map fun v => (v.name, Meaning.literal v.init)).lookup x).or (s.locals.lookup (key x))

theorem Initialised.single (keeps : Machine.Keeps s s₁)
    (hu : s₁.locals.lookup (key v.name) = some u) (globals : t.globals = s₁.globals)
    (printed : t.printed = s₁.printed) (live : t.stack.live = s.stack.live)
    (locals : t.locals = Machine.setSlot (key v.name) (BitVec.ofInt 32 v.init.encode) s₁.locals) :
    Initialised [v] s t where
  globals := globals.trans keeps.globals
  printed := printed.trans keeps.printed
  live := live
  slots x := by
    rw [locals, lookup_setSlot, hu, keeps.locals, Literal.ofInt_encode, List.map_singleton,
      lookup_cons_ite]
    simp only [StackCode.key_inj]
    split <;> rfl

theorem Initialised.cons (fresh : v.name ∉ rest.map (·.name)) (first : Initialised [v] s u)
    (others : Initialised rest u t) : Initialised (v :: rest) s t where
  globals := others.globals.trans first.globals
  printed := others.printed.trans first.printed
  live := others.live.trans first.live
  slots x := by
    rw [others.slots, first.slots, List.map_singleton, List.map_cons, lookup_cons_ite,
      lookup_cons_ite]
    split
    · subst_vars
      rw [lookup_eq_none (by simpa using fresh)]
      rfl
    · rfl

theorem Initialised.known (h : Initialised vs s t) (hx : (s.locals.lookup (key x)).isSome = true) :
    (t.locals.lookup (key x)).isSome = true := by
  rw [h.slots, Option.isSome_or, hx, Bool.or_true]

theorem inits_settle (env : Machine.Env) (depth : Nat) (hn : (vs.map (·.name)).Nodup)
    (hr : ∀ v ∈ vs, -2147483648 ≤ v.init.encode ∧ v.init.encode < 4294967296)
    (hs : ∀ v ∈ vs, (s.locals.lookup (key v.name)).isSome = true) :
    ∃ t, Settles (code env depth (vs.flatMap StackCode.initCode)) s (.ok .next, t) ∧
      Initialised vs s t := by
  induction vs generalizing s with
  | nil => exact ⟨s, Machine.settles_nil env depth s, rfl, rfl, rfl, fun x => rfl⟩
  | cons v rest ih =>
    obtain ⟨fresh, others⟩ := List.nodup_cons.1 hn
    obtain ⟨s₁, const, keeps, live⟩ := const_code_settles env depth s (hr v List.mem_cons_self)
    obtain ⟨u, hu⟩ := Option.isSome_iff_exists.1 (hs v List.mem_cons_self)
    rw [← keeps.locals] at hu
    obtain ⟨s₂, set, globals, locals, printed, live'⟩ := Machine.localSet_settles env depth live hu
    have first : Initialised [v] s s₂ := .single keeps hu globals printed live' locals
    obtain ⟨t, runs, initialised⟩ := ih others (fun v hv => hr v (List.mem_cons_of_mem _ hv))
      (fun v hv => first.known (hs v (List.mem_cons_of_mem _ hv)))
    exact ⟨t, code_settles (code_settles const (code_single set)) runs,
      first.cons fresh initialised⟩

theorem slotsOf_known (hl : s.locals = (slotsOf f args).map fun entry => (key entry.1, entry.2))
    (hv : v ∈ f.locals) : (s.locals.lookup (key v.name)).isSome = true := by
  rw [hl, lookup_map_key, lookup_isSome, slotsOf, List.map_append]
  refine List.mem_append_left _ ?_
  simpa using Or.inr ⟨v, hv, rfl⟩

theorem Initialised.ready (h : Initialised f.locals s t) (hf : Rules.FuncTyped p f)
    (hp : f.params.map (·.type) = types.map some) (ha : List.Forall₂ Holds types args)
    (hw : Typed p place w) (hv : Visible w s)
    (hl : s.locals = (slotsOf f args).map fun entry => (key entry.1, entry.2)) :
    Ready p (some f) { w with frame := Meaning.frameOf f args } t := by
  obtain ⟨paramNames, -, -⟩ := List.nodup_append.1 hf.slots
  refine ⟨⟨h.globals.trans hv.globals, h.printed.trans hv.printed⟩, typed_frameOf hf hp ha hw, ?_, ?_⟩
  · intro x hx
    have params : ((f.params.map (·.name)).zip args).reverse.lookup x =
        ((f.params.map (·.name)).zip args).lookup x := by
      refine lookup_reverse ?_ x
      rw [paramKeys (length_args hp ha)]
      exact paramNames
    rw [h.slots, hl, lookup_map_key, slotsOf, Meaning.frameOf, List.lookup_append,
      List.lookup_append, params]
    -- A variable has its initial value by now; the slots of all others were given at the call.
    by_cases hmem : x ∈ f.locals.map (·.name)
    · obtain ⟨v, hv⟩ := Option.isSome_iff_exists.1 (lookup_isSome.2 (by simpa using hmem) :
        ((f.locals.map fun v => (v.name, Meaning.literal v.init)).lookup x).isSome = true)
      rw [hv]
      rfl
    · have absent : ((StackCode.scratch :: f.locals.map (·.name)).map (·, (0 : Word))).lookup x =
          none := by
        refine lookup_eq_none ?_
        intro h
        rcases List.mem_cons.1 h with h | h
        · exact hx h
        · exact hmem (by simpa using h)
      rw [absent]
      rfl
  · rw [h.slots, hl, slotsOf, ]
    simp

theorem enter_settles (env : Machine.Env) (depth : Nat) (hf : Rules.FuncTyped p f)
    (hr : ∀ v ∈ f.locals, (Expr.literal v.init).Representable)
    (hp : f.params.map (·.type) = types.map some) (ha : List.Forall₂ Holds types args)
    (hw : Typed p place w) (hv : Visible w s)
    (hl : s.locals = (slotsOf f args).map fun entry => (key entry.1, entry.2)) :
    ∃ t, Settles (code env depth (f.locals.flatMap StackCode.initCode)) s (.ok .next, t) ∧
      Ready p (some f) { w with frame := Meaning.frameOf f args } t ∧
      t.stack.live = s.stack.live := by
  obtain ⟨-, localNames, -⟩ := List.nodup_append.1 hf.slots
  obtain ⟨t, runs, initialised⟩ := inits_settle env depth (s := s) localNames
    (by
      intro v hv
      obtain ⟨type, -, literal⟩ := hf.inits v hv
      exact Literal.encode_range literal (hr v hv))
    (fun v hv => slotsOf_known hl hv)
  exact ⟨t, runs, initialised.ready hf hp ha hw hv hl, initialised.live⟩

end frames

/-- The result of a function whose body was left. -/
def resultOf (f : FuncDef) : Flow → Word
  | .ret v => v
  | .next => Meaning.fallOff f

/-- The code of a function has ended with its result on the stack. -/
structure Ended (p : Program) (f : FuncDef) (base : List Word) (flow : Flow) (w : Meaning.State)
    (c : Control) (s : Machine.State) : Prop where
  control : ∀ l, c ≠ .branch l
  ready : Ready p (some f) w s
  holds : ∀ type, f.returns = some type → Holds type (resultOf f flow)
  live : s.stack.live = resultOf f flow :: base

theorem holds_fallOff (h : f.returns = some type) : Holds type (Meaning.fallOff f) := by
  cases type with
  | bool =>
    refine .inl (if_neg ?_)
    rw [h]
    decide
  | int => trivial
  | unit => trivial

theorem ofInt_defaultValue (f : FuncDef) :
    BitVec.ofInt 32 (defaultValue f.returns) = Meaning.fallOff f := by
  rw [defaultValue, Meaning.fallOff]
  split <;> rfl

section bodies

variable {p : Program} {mode : Arithmetic} {n depth : Nat} {env : Machine.Env}
  {call : String → List Word → Eval Word} {f : FuncDef} {body : List StackCode.Instr}
  {w : Meaning.State} {s : Machine.State} {base : List Word}

theorem default_settles (h : Left p (some f) base flow w c s) :
    ∃ c' t, Settles (fun fuel => resume (code env depth [.const (defaultValue f.returns)] fuel) c) s
      (.ok c', t) ∧ Ended p f base flow w c' t := by
  cases h with
  | next ready live =>
    have range : -2147483648 ≤ defaultValue f.returns ∧ defaultValue f.returns < 4294967296 := by
      rw [defaultValue]
      split <;> decide
    obtain ⟨t, settles, keeps, live'⟩ := const_code_settles env depth s range
    rw [ofInt_defaultValue, live] at live'
    exact ⟨.next, t, settles, ⟨nofun, ready.keeps keeps, fun _ => holds_fallOff, live'⟩⟩
  | ret ready live holds =>
    refine ⟨.ret, s, Settles.const (pure Control.ret) s, ⟨nofun, ready, ?_, live⟩⟩
    obtain ⟨_, type, ⟨⟩, returns, holds⟩ := holds
    intro type' returns'
    cases returns.symm.trans returns'
    exact holds

theorem scoped_func (hf : p.Writable) (hw : Rules.WellTyped p) (hm : f ∈ p.funcs) :
    Scoped p (some f) where
  globals := hw.globals
  slots := by
    rintro _ ⟨⟩
    exact (hw.funcs f hm).slots
  clear := by
    rintro _ ⟨⟩
    exact hf.clear hm

theorem body_follows (hb : env.budget = none) (hc : CallsFollow n env depth p call)
    (hf : p.Writable) (hw : Rules.WellTyped p) (hm : f ∈ p.funcs)
    (hbody : StackCode.stmts (StackCode.contextAt mode p (some f)) 0 f.body = .ok body)
    (hp : f.params.map (·.type) = types.map some) (ha : List.Forall₂ Holds types args)
    (ht : Typed p place w) (hv : Visible w s)
    (hl : s.locals = (slotsOf f args).map fun entry => (key entry.1, entry.2)) :
    Follows n (Ended p f s.stack.live) (code env depth (StackCode.funcOf f body).body) s
      ((Meaning.block mode call n f.body).run { w with frame := Meaning.frameOf f args }) := by
  have typed := hw.funcs f hm
  obtain ⟨t, enters, ready, live⟩ :=
    enter_settles env depth typed (hf.locals f hm) hp ha ht hv hl
  have follows := block_follows hb hc (scoped_func hf hw hm) hw.notHost f.body typed.body
    (hf.funcs f hm) hbody ready
  rw [live] at follows
  -- The initial values come first; the default value runs only if the body falls off its end.
  rw [StackCode.funcOf, List.append_assoc]
  refine Follows.after_code enters ?_
  rw [code_append]
  refine follows.before fun flow w' c u left => ?_
  obtain ⟨c', t', settles, ended⟩ := default_settles left
  exact ⟨c', t', settles.delay body.length, ended⟩

end bodies

/-- A call has returned a value. -/
structure Returned (p : Program) (place : Option FuncDef) (type : Ty) (base : List Word) (v : Word)
    (w : Meaning.State) (v' : Word) (s : Machine.State) : Prop where
  value : v' = v
  ready : Ready p place w s
  holds : Holds type v
  live : s.stack.live = base

section calls

variable {p : Program} {place : Option FuncDef} {mode : Arithmetic} {n depth : Nat}
  {env : Machine.Env} {w : Meaning.State} {s s' : Machine.State} {base args : List Word}
variable {g : Machine.Func Machine.HostFunc} {type result : Ty} {f : FuncDef} {types : List Ty}
  {host : Machine.HostFunc}

theorem call_pushes (find : env.funcs.find? (·.name == key name) = some g) (hr : g.result = true)
    (h : Follows n (Returned p place type base) (fun fuel => Machine.call env fuel depth g) s r) :
    Follows n (Pushed p place type base) (code env depth [.call name]) s r := by
  refine Follows.single ?_
  have eq : (fun fuel => instr env fuel depth (StackCode.Instr.call name).sexpr) = _ :=
    Machine.instr_call_eq env depth find hr
  rw [eq]
  refine (Follows.after (Machine.settles_nil env depth s) ?_).later.mono (Nat.le_succ n)
  refine h.before fun v w' v' t returned => ?_
  refine ⟨.next, { t with stack := t.stack.push v' }, Settles.const _ t, rfl, ?_,
    returned.holds, ?_⟩
  · exact returned.ready.keeps ⟨rfl, rfl, rfl⟩
  · rw [returned.value]
    exact congrArg (v :: ·) returned.live

theorem activation_run (f : FuncDef) (args : List Word) (body : Eval Flow) (w : Meaning.State) :
    (Meaning.activation f args body).run w =
      (body >>= fun flow => modify (fun w' => { w' with frame := w.frame }) >>= fun _ =>
        pure (resultOf f flow)).run { w with frame := Meaning.frameOf f args } := by
  refine congrArg (fun k => (body >>= k).run _) (funext fun flow => ?_)
  cases flow <;> rfl

/-- A machine that knows the host functions and the code of the functions of a program. -/
structure Linked (p : Program) (mode : Arithmetic) (env : Machine.Env) : Prop where
  budget : env.budget = none
  host : ∀ i ∈ StackCode.hosts,
    env.funcs.find? (·.name == key i.1) = some (StackCode.linkedImport i)
  user : ∀ f ∈ p.funcs, ∃ body,
    StackCode.stmts (StackCode.contextAt mode p (some f)) 0 f.body = .ok body ∧
      env.funcs.find? (·.name == key f.name) = some (StackCode.loaded (StackCode.funcOf f body))

theorem Ready.returned (caller : Ready p place w s) (callee : Ready p (some f) w' s')
    (globals : t.globals = s'.globals) (locals : t.locals = s.locals)
    (printed : t.printed = s'.printed) : Ready p place { w' with frame := w.frame } t where
  visible := ⟨globals.trans callee.visible.globals, printed.trans callee.visible.printed⟩
  typed := ⟨callee.typed.globals, caller.typed.declared, caller.typed.hidden⟩
  slots x hx := by
    rw [locals]
    exact caller.slots x hx
  scratch := by
    rw [locals]
    exact caller.scratch

theorem Ready.prints (h : Ready p place w s) (globals : t.globals = s.globals)
    (locals : t.locals = s.locals) (printed : t.printed = lines ++ s.printed) :
    Ready p place { w with printed := lines ++ w.printed } t where
  visible := ⟨globals.trans h.visible.globals, by rw [printed, h.visible.printed]⟩
  typed := ⟨h.typed.globals, h.typed.declared, h.typed.hidden⟩
  slots := by
    rw [locals]
    exact h.slots
  scratch := by
    rw [locals]
    exact h.scratch

theorem enter_follows {α : Type} {post : α → Meaning.State → Word → Machine.State → Prop}
    {r : Except Meaning.Halt α × Meaning.State} (hg : g.code = .defined locals body)
    (hd : depth < Machine.maxDepth) (hn : g.params.length = args.length)
    (hs : s.stack.live = args.reverse ++ base) (hv : Visible w s)
    (h : ∀ t, Visible w t → t.locals = Machine.initialLocals g locals args → t.stack.live = base → Follows n post (fun fuel => seq env fuel (depth + 1) body >>= Machine.leave g s.locals base.length) t r) :
    Follows n post (fun fuel => Machine.call env fuel depth g) s r := by
  obtain ⟨t, pops, keeps, live⟩ := Machine.run_popMany hs
  rw [Machine.call_defined_eq hg hd, hn]
  refine Follows.mono (Follows.later ?_) (Nat.le_succ n)
  refine Follows.after (Settles.of_run pops) ?_
  refine Follows.after (Settles.of_run (Machine.run_get t)) ?_
  refine Follows.after (Settles.of_run (Machine.run_modify t _)) ?_
  have height : Machine.height.run { t with locals := Machine.initialLocals g locals args } =
      (.ok base.length, { t with locals := Machine.initialLocals g locals args }) := by
    rw [← live]
    rfl
  refine Follows.after (Settles.of_run height) ?_
  rw [keeps.locals]
  exact h _ ⟨keeps.globals.trans hv.globals, keeps.printed.trans hv.printed⟩ rfl live

theorem activation_follows (hl : Linked p mode env) (hd : depth < Machine.maxDepth)
    (hc : CallsFollow n env (depth + 1) p call) (hf : p.Writable) (hw : Rules.WellTyped p)
    (hm : f ∈ p.funcs) (hp : f.params.map (·.type) = types.map some) (hr : f.returns = some result)
    (h : PushedAll p place types base args w .next s) :
    Follows n (Pushed p place result base) (code env depth [.call f.name]) s
      ((Meaning.activation f args (Meaning.block mode call n f.body)).run w) := by
  obtain ⟨body, hbody, find⟩ := hl.user f hm
  refine call_pushes find rfl ?_
  rw [activation_run]
  refine enter_follows rfl hd ?_ h.live h.ready.visible fun t visible locals live => ?_
  · simpa [StackCode.loaded, StackCode.funcOf] using length_args hp h.holds
  have follows := body_follows hl.budget hc hf hw hm hbody hp h.holds h.ready.typed visible
    (locals.trans (initialLocals_eq f body args))
  rw [live] at follows
  refine follows.bind fun flow w' c u ended => ?_
  have top : u.stack.live = resultOf f flow :: [] ++ base := ended.live
  obtain ⟨u', leaves, globals', locals', printed', live'⟩ :=
    Machine.leave_settles (f := StackCode.loaded (StackCode.funcOf f body)) rfl ended.control top
  refine .done (Settles.of_run leaves) ⟨rfl, ?_, ended.holds result hr, live'⟩
  exact h.ready.returned ended.ready globals' locals' printed'

theorem reply_follows (hl : Linked p mode env) (hi : i ∈ StackCode.hosts)
    (hn : i.2.reads = args.length) (hs : s.stack.live = args.reverse ++ base)
    (hr : i.2.reply? args = some reply) (ready : Ready p place w s) (holds : Holds type reply.value) :
    Follows n (Pushed p place type base) (code env depth [.call i.1]) s
      (.ok reply.value, { w with printed := reply.line.toList ++ w.printed }) := by
  refine call_pushes (hl.host i hi) rfl ?_
  obtain ⟨t, replies, globals, locals, printed, live⟩ :=
    Machine.call_imported_settles env depth (f := StackCode.linkedImport i) rfl rfl
      (by simp [StackCode.linkedImport, hn]) hs hr
  exact .done replies ⟨rfl, ready.prints globals locals printed, holds, live⟩

theorem printer_host (h : printer? (some type) = some target) :
    ∃ host, (target, host) ∈ StackCode.hosts ∧ host.reads = 1 ∧
      ∀ v, host.reply? [v] = some ⟨some (Meaning.line type v), v⟩ := by
  cases type <;> cases h
  case int => exact ⟨.printNum, by decide, rfl, fun _ => rfl⟩
  case bool => exact ⟨.printBool, by decide, rfl, fun _ => rfl⟩
  case unit => exact ⟨.printNone, by decide, rfl, fun _ => rfl⟩

theorem print_follows (hl : Linked p mode env) (printer : printer? (some type) = some target)
    (ready : Ready p place w s) (live : s.stack.live = v :: base) :
    Follows n (Pushed p place .unit base) (code env depth [.call target]) s
      ((Meaning.print (some type) [v]).run w) := by
  obtain ⟨host, mem, reads, reply⟩ := printer_host printer
  have single : s.stack.live = [v].reverse ++ base := live
  exact reply_follows hl mem (by simpa using reads) single (reply v) ready trivial

theorem call_hostCall {f : String} (h : ∀ d ∈ p.funcs, d.name ≠ f) (left : Nat) :
    Meaning.call p mode n left f args = Meaning.hostCall f args := by
  have none : p.funcs.find? (·.name == f) = none := by
    rw [List.find?_eq_none]
    exact fun d hd => by simpa using h d hd
  cases left <;> rw [Meaning.call, none]

theorem line_eq_none {f : String} (hf : Meaning.hostFunc? f = some host)
    (h : host.reply? args = some reply) : reply.line = none := by
  unfold Meaning.hostFunc? at hf
  split at hf <;> cases hf <;> rcases args with _ | ⟨a, _ | ⟨b, rest⟩⟩ <;> cases h <;> rfl

theorem reply_exists (h : host.reads = args.length) : ∃ reply, host.reply? args = some reply := by
  rw [← Option.isSome_iff_exists, Machine.HostFunc.reply?_isSome, h]
  simp

theorem hostCall_follows (hl : Linked p mode env) {f : String} (hi : (f, host) ∈ StackCode.hosts)
    (hf : Meaning.hostFunc? f = some host) (hn : host.reads = types.length)
    (h : PushedAll p place types base args w .next s) :
    Follows n (Pushed p place .int base) (code env depth [.call f]) s
      ((Meaning.hostCall f args).run w) := by
  have count : host.reads = args.length := hn.trans h.holds.length_eq
  obtain ⟨reply, hr⟩ := reply_exists count
  have eval : (Meaning.hostCall f args).run w =
      (.ok reply.value, { w with printed := reply.line.toList ++ w.printed }) := by
    rw [Meaning.hostCall, hf, Option.bind_some, hr, line_eq_none hf hr]
    rfl
  rw [eval]
  exact reply_follows hl hi count h.live hr h.ready trivial

theorem exhausted_follows (hl : Linked p mode env) (hd : Machine.maxDepth ≤ depth)
    (hm : f ∈ p.funcs) (hp : f.params.map (·.type) = types.map some)
    (h : PushedAll p place types base args w .next s) :
    Follows n (Pushed p place result base) (code env depth [.call f.name]) s
      (.error (.trap .callStack), w) := by
  obtain ⟨body, -, find⟩ := hl.user f hm
  refine call_pushes find rfl ?_
  obtain ⟨t, traps, keeps⟩ := Machine.call_exhausted env depth
    (f := StackCode.loaded (StackCode.funcOf f body)) rfl hd
    (by simpa [StackCode.loaded, StackCode.funcOf] using length_args hp h.holds) h.live
  exact .trap traps (h.ready.keeps keeps).visible

theorem calls_of_user (hl : Linked p mode env) (hw : Rules.WellTyped p)
    (user : ∀ {f : FuncDef} {types : List Ty} {result : Ty} {place : Option FuncDef} {w : Meaning.State} {s : Machine.State} {args base : List Word}, f ∈ p.funcs → f.params.map (·.type) = types.map some → f.returns = some result → PushedAll p place types base args w .next s → Follows n (Pushed p place result base) (code env depth [.call f.name]) s ((Meaning.call p mode n left f.name args).run w)) :
    CallsFollow n env depth p (Meaning.call p mode n left) where
  print := print_follows hl
  call callee h := by
    have free : ∀ x ∈ Rules.hostNames, ∀ d ∈ p.funcs, d.name ≠ x := by
      rintro x hx d hd rfl
      exact hw.notHost d hd hx
    cases callee with
    | abs =>
      rw [call_hostCall (free _ (by decide))]
      exact hostCall_follows hl (by decide) rfl rfl h
    | max =>
      rw [call_hostCall (free _ (by decide))]
      exact hostCall_follows hl (by decide) rfl rfl h
    | min =>
      rw [call_hostCall (free _ (by decide))]
      exact hostCall_follows hl (by decide) rfl rfl h
    | pow =>
      rw [call_hostCall (free _ (by decide))]
      exact hostCall_follows hl (by decide) rfl rfl h
    | user mem params returns => exact user mem params returns h

theorem calls_follow (hl : Linked p mode env) (hf : p.Writable) (hw : Rules.WellTyped p)
    (hd : left + depth = Meaning.maxActivations) :
    CallsFollow n env depth p (Meaning.call p mode n left) := by
  -- Calls inside a body run one level deeper, where one activation less is left.
  induction left generalizing depth with
  | zero =>
    refine calls_of_user hl hw fun hm hp hr h => ?_
    rw [Meaning.call, find?_name hw.funcNames hm]
    have deep : Machine.maxDepth ≤ depth := by
      rw [Nat.zero_add] at hd
      exact hd.ge
    exact exhausted_follows hl deep hm hp h
  | succ left ih =>
    refine calls_of_user hl hw fun hm hp hr h => ?_
    rw [Meaning.call, find?_name hw.funcNames hm]
    have shallow : depth < Machine.maxDepth := by
      rw [show Machine.maxDepth = Meaning.maxActivations from rfl]
      omega
    exact activation_follows hl shallow (ih (by omega)) hf hw hm hp hr h

end calls

end Simulation
end WordScript
