import WordScript.Proofs.IndexedLoading
import WordScript.Proofs.MachineSafety

/-! Executing by positions.

A second machine looks everything up by its position: the items of an instruction, the only
immediate, the arguments of a call, the values on the stack. A lookup that fails is a crash. Those
that the first machine does without never fail, so the two machines are the same. -/
namespace WordScript
namespace Machine
namespace Indexed

def must {α : Type} : Option α → Exec α
  | some a => pure a
  | none => throw .crash

def values : Exec (List Word) := return (← get).stack.live.reverse

def pop : Exec Word := do
  let vs ← values
  if vs.length = 0 then stop .underflow
  else
    let v ← must vs[vs.length - 1]?
    cut (vs.length - 1)
    return v

def popMany (n : Nat) : Exec (List Word) := do
  let vs ← values
  if vs.length < n then stop .underflow
  else
    let top ← must (suffix? vs (vs.length - n))
    cut (vs.length - n)
    return top

def immediate (op : Bytes) (imms : List Bytes) : Exec Bytes :=
  if imms.length ≠ 1 then stop (.immediates op imms.length) else must imms[0]?

def simple (op : Bytes) (imms : List Bytes) : Simple → Exec Control
  | .nop => return .next
  | .unreachable => stop .unreachable
  | .drop => do
    let _ ← pop
    return .next
  | .ret => return .ret
  | .br => return .branch (← immediate op imms)
  | .brIf => do
    let label ← immediate op imms
    return if (← pop) = 0 then .next else .branch label
  | .const => do
    let text ← immediate op imms
    match constant? text with
    | some v =>
      push v
      return .next
    | none => stop (.constant text)
  | .localGet => do
    push (← getLocal (← immediate op imms))
    return .next
  | .localSet => do
    let name ← immediate op imms
    let _ ← getLocal name
    setLocal name (← pop)
    return .next
  | .localTee => do
    let v ← pop
    let name ← immediate op imms
    let _ ← getLocal name
    setLocal name v
    push v
    return .next
  | .globalGet => do
    push (← getGlobal (← immediate op imms)).value
    return .next
  | .globalSet => do
    let name ← immediate op imms
    if (← getGlobal name).isMutable then
      setGlobal name (← pop)
      return .next
    else stop (.immutable (← must imms[0]?))
  | .eqz => do
    push (Word.ofBool ((← pop) == 0))
    return .next
  | .op o => do
    let rhs ← pop
    let lhs ← pop
    match o.eval lhs rhs with
    | .ok v =>
      push v
      return .next
    | .error fault => stop (.arith fault)

/-- The label of a structured instruction, and the other operands. -/
def splitLabel? (s : Sexpr) : Option (Option Bytes × List Sexpr) := do
  let items ← s.operands?
  if items.length = 0 then return (none, items)
  else
    let first ← items[0]?
    if first.isName then return (some first.text, ← suffix? items 1) else return (none, items)

/-- The instructions of each arm of a conditional that is of a kind. -/
def arms? (kind : Bytes) : List Sexpr → Option (List (List Sexpr))
  | [] => some []
  | s :: rest => do
    let word ← s.head?
    let others ← arms? kind rest
    if word == kind then return (← s.operands?) :: others else return others

/-- The operands of a conditional other than its arms. -/
def tests? : List Sexpr → Option (List Sexpr)
  | [] => some []
  | s :: rest => do
    let word ← s.head?
    let others ← tests? rest
    return if word == keyword "then" || word == keyword "else" then others else s :: others

/-- The slots of parameters, the first of which gets the argument at a position. -/
def paramSlots? (args : List Word) : Nat → List Bytes → Option (List (Bytes × Word))
  | _, [] => some []
  | k, name :: rest => do return (name, ← args[k]?) :: (← paramSlots? args (k + 1) rest)

/-- The result that a function takes from the stack when control leaves its body. -/
def result (f : Func HostFunc) (before : Nat) : Exec Word := do
  if f.result then
    let vs ← values
    if vs.length ≤ before then stop (.noValue f.name) else must vs[vs.length - 1]?
  else return 0

/-- What a function goes on with after control left its body. -/
def leave (f : Func HostFunc) (caller : List (Bytes × Word)) (before : Nat) : Control → Exec Word
  | .branch l => stop (.unknownLabel l)
  | _ => do
    let v ← result f before
    cut before
    modify fun s => { s with locals := caller }
    return v

/-- What an imported function does with its arguments. -/
def answer (f : Func HostFunc) (host : HostFunc) (args : List Word) : Exec Word := do
  let reply ← must (host.reply? args)
  modify fun s => { s with printed := reply.line.toList ++ s.printed }
  return if f.result then reply.value else 0

def setSlots (f : Func HostFunc) (locals : List Bytes) (args : List Word) : Exec Unit := do
  let slots ← must (paramSlots? args 0 f.params)
  modify fun s => { s with locals := locals.map (·, 0) ++ slots.reverse }

/-- What a conditional goes on with after control left an arm. -/
def leaveArm (label : Option Bytes) (height : Nat) : Control → Exec Control
  | .branch l =>
    if label = some l then do
      cut height
      return .next
    else return .branch l
  | c => return c

/-- The immediates among the operands of an instruction. -/
def texts (operands : List Sexpr) : List Bytes := (operands.filter fun i => !i.isList).map (·.text)

mutual

def seq (env : Env) : (fuel depth : Nat) → List Sexpr → Exec Control
  | 0, _, _ => throw .outOfFuel
  | _ + 1, _, [] => return .next
  | fuel + 1, depth, s :: rest => do
    let c ← instr env fuel depth s
    resume (seq env fuel depth rest) c

def instr (env : Env) : (fuel depth : Nat) → Sexpr → Exec Control
  | 0, _, _ => throw .outOfFuel
  | fuel + 1, depth, s => do
    let word ← must s.head?
    if word.isEmpty then stop (.form s)
    else
      match Op.ofName? word with
      | some .block => do
        let (label, body) ← must (splitLabel? s)
        passes env fuel depth false label (← height) body
      | some .loop => do
        let (label, body) ← must (splitLabel? s)
        passes env fuel depth true label (← height) body
      | some .cond => do
        let (label, items) ← must (splitLabel? s)
        let thenArms ← must (arms? (keyword "then") items)
        let elseArms ← must (arms? (keyword "else") items)
        let c ← seq env fuel depth (← must (tests? items))
        resume (do
          let v ← pop
          let height ← height
          let arms := if v = 0 then elseArms else thenArms
          leaveArm label height (← seq env fuel depth (arms.getLast?.getD []))) c
      | some .call => do
        let operands ← must s.operands?
        let c ← seq env fuel depth (operands.filter (·.isList))
        resume (do
          let name ← immediate word (texts operands)
          match env.funcs.find? (·.name == name) with
          | some f =>
            let v ← call env fuel depth f
            if f.result then push v
            return .next
          | none => stop (.unknownFunction name)) c
      | some (.simple op) => do
        let operands ← must s.operands?
        let c ← seq env fuel depth (operands.filter (·.isList))
        resume (simple word (texts operands) op) c
      | none => do
        let operands ← must s.operands?
        let c ← seq env fuel depth (operands.filter (·.isList))
        resume (stop (.instruction word)) c

def passes (env : Env) : (fuel depth : Nat) → (isLoop : Bool) → (label : Option Bytes) →
    (height : Nat) → List Sexpr → Exec Control
  | 0, _, _, _, _, _ => throw .outOfFuel
  | fuel + 1, depth, isLoop, label, height, body => do
    check env
    match ← seq env fuel depth body with
    | .branch l =>
      if label = some l then
        cut height
        if isLoop then passes env fuel depth isLoop label height body else return .next
      else return .branch l
    | c => return c

def call (env : Env) : (fuel depth : Nat) → Func HostFunc → Exec Word
  | 0, _, _ => throw .outOfFuel
  | fuel + 1, depth, f => do
    let args ← popMany f.params.length
    match f.code with
    | .imported host => answer f host args
    | .defined locals body =>
      if maxDepth ≤ depth then stop .callStack
      else
        let caller := (← get).locals
        setSlots f locals args
        let before ← height
        leave f caller before (← seq env fuel (depth + 1) body)

end

def invoke (inst : Instance) (fuel : Nat) (budget : Option Nat) (name : Bytes) (args : List Word) :
    Invocation :=
  match inst.exports.lookup name with
  | none => ⟨.error (.noExport name), [], inst⟩
  | some f =>
    if args.length ≠ f.params.length then
      ⟨.error (.arity name f.params.length args.length), [], inst⟩
    else inst.conclude f ((call ⟨inst.funcs, budget⟩ fuel 0 f).run (inst.entry f args).state)

section equal

variable {α β : Type}

theorem exec_ext {x : Exec α} (h : ∀ s, x.run s = y.run s) : x = y := funext h

theorem must_some (a : α) : must (some a) = pure a := rfl

theorem run_cut_of_live (h : s.stack.live = top ++ base) :
    (cut base.length).run s =
      (.ok (), { s with stack := ⟨base, top.reverse ++ s.stack.stale⟩ }) := by
  have height : s.stack.height = top.length + base.length := by
    rw [Stack.height, h, List.length_append]
  have cuts : s.stack.cut? base.length = some ⟨base, top.reverse ++ s.stack.stale⟩ := by
    simp [Stack.cut?, height, h]
  simp only [cut, run_bind, run_get, cuts, run_modify]

theorem run_values (s : State) : values.run s = (.ok s.stack.live.reverse, s) := rfl

theorem pop_eq : pop = Machine.pop := by
  refine exec_ext fun s => ?_
  simp only [pop, Machine.pop, run_bind, run_values, run_get, List.length_reverse]
  rcases live : s.stack.live with _ | ⟨v, rest⟩
  · simp [Stack.pop?, live]
  · have top : must (v :: rest).reverse[(v :: rest).length - 1]? = pure v := by
      simp [must]
    rw [top, Stack.pop?, live]
    change (cut rest.length >>= fun _ => pure v).run s = _
    rw [run_bind, run_cut_of_live (show s.stack.live = [v] ++ rest from live)]
    rfl

theorem popMany_eq (n : Nat) : popMany n = Machine.popMany n := by
  refine exec_ext fun s => ?_
  simp only [popMany, Machine.popMany, run_bind, run_values, run_get, List.length_reverse]
  by_cases enough : n ≤ s.stack.live.length
  · have base : s.stack.live.length - n = (s.stack.live.drop n).length := by rw [List.length_drop]
    have top : suffix? s.stack.live.reverse (s.stack.live.length - n) =
        some (s.stack.live.take n).reverse := by
      rw [suffix?, if_pos (by simp), List.drop_reverse, Nat.sub_sub_self enough]
    have pops : s.stack.popMany? n = some ((s.stack.live.take n).reverse,
      ⟨s.stack.live.drop n, (s.stack.live.take n).reverse ++ s.stack.stale⟩) := if_pos enough
    rw [if_neg (by omega), top, pops]
    change (cut _ >>= fun _ => pure (s.stack.live.take n).reverse).run s = _
    rw [run_bind, base, run_cut_of_live (List.take_append_drop n _).symm]
    rfl
  · have none : s.stack.popMany? n = none := if_neg enough
    rw [if_pos (by omega), none]

theorem immediate_eq (op : Bytes) (imms : List Bytes) :
    immediate op imms = Machine.immediate op imms := by
  rcases imms with _ | ⟨a, _ | ⟨b, rest⟩⟩
  · rfl
  · rfl
  · rfl

theorem simple_eq (op : Bytes) (imms : List Bytes) (o : Simple) :
    simple op imms o = Machine.simple op imms o := by
  cases o with
  | globalSet =>
    simp only [simple, pop_eq]
    rcases imms with _ | ⟨a, _ | ⟨b, rest⟩⟩ <;> rfl
  | const =>
    simp only [simple, immediate_eq]
    rfl
  | op o =>
    simp only [simple, pop_eq]
    rfl
  | _ => simp only [simple, Machine.simple, pop_eq, immediate_eq]

theorem splitLabel?_eq (h : s.head.isEmpty = false) :
    splitLabel? s = some (splitLabel s.operands) := by
  rw [splitLabel?, Sexpr.operands?_eq h]
  rcases s.operands with _ | ⟨first, rest⟩
  · rfl
  · change (if first.isName then (suffix? (first :: rest) 1).bind fun _ => _ else _) =
      some (if first.isName then _ else _)
    cases first.isName <;> rfl

theorem arms?_eq (h : kind.isEmpty = false) (items : List Sexpr) :
    arms? kind items = some ((items.filter (·.head == kind)).map Sexpr.operands) := by
  induction items with
  | nil => rfl
  | cons s rest ih =>
    rw [arms?, s.head?_eq, ih, List.filter_cons]
    change (if (s.head == kind) = true then s.operands?.bind fun _ => _ else _) = _
    split
    · rename_i same
      rw [Sexpr.operands?_eq (by rw [beq_iff_eq.1 same, h])]
      rfl
    · rfl

theorem tests?_eq (items : List Sexpr) : tests? items = some (items.filter fun i => !isArm i) := by
  induction items with
  | nil => rfl
  | cons s rest ih =>
    rw [tests?, s.head?_eq, ih, List.filter_cons]
    change some (if isArm s = true then _ else _) = some _
    cases isArm s <;> rfl

theorem paramSlots?_eq (h : k + names.length ≤ args.length) :
    paramSlots? args k names = some (names.zip (args.drop k)) := by
  induction names generalizing k with
  | nil => rfl
  | cons name rest ih =>
    rw [List.length_cons] at h
    have found : args[k]? = some args[k] := List.getElem?_eq_getElem (by omega)
    rw [paramSlots?, ih (by omega), found, List.drop_eq_getElem_cons (i := k) (by omega)]
    rfl

theorem popMany_bind_congr (h : ∀ args, args.length = n → f args = g args) :
    (Machine.popMany n >>= f) = Machine.popMany n >>= g := by
  refine exec_ext fun s => ?_
  rw [run_bind, run_bind]
  rcases hr : (Machine.popMany n).run s with ⟨e | args, t⟩
  · rfl
  · exact congrArg (·.run t) (h args (length_popMany hr))

theorem leave_eq (f : Func HostFunc) (caller : List (Bytes × Word)) (before : Nat) (c : Control) :
    leave f caller before c = Machine.leave f caller before c := by
  cases c with
  | branch l => rfl
  | next | ret =>
    refine exec_ext fun s => ?_
    unfold leave Machine.leave result
    cases f.result with
    | false => rfl
    | true =>
      simp only [if_true, run_bind, run_values, run_get, List.length_reverse]
      rcases live : s.stack.live with _ | ⟨v, rest⟩
      · rfl
      · have top : must (v :: rest).reverse[(v :: rest).length - 1]? = pure v := by simp [must]
        have tall : height.run s = (.ok (v :: rest).length, s) := by
          rw [← live]
          rfl
        by_cases low : (v :: rest).length ≤ before
        · simp only [if_pos low, run_bind, tall]
        · simp only [top, if_neg low, run_bind, tall]

theorem answer_eq (f : Func HostFunc) (host : HostFunc) (args : List Word) :
    answer f host args = Machine.answer f host args := by
  rw [answer, Machine.answer]
  cases host.reply? args <;> rfl

theorem setSlots_eq (arity : args.length = f.params.length) : setSlots f locals args =
      modify fun s => { s with locals := initialLocals f locals args } := by
  rw [setSlots, paramSlots?_eq (by omega)]
  rfl

/-- Runs of the two machines with an amount of fuel are the same. -/
structure SameRuns (env : Env) (fuel : Nat) : Prop where
  seq (d : Nat) (code : List Sexpr) : seq env fuel d code = Machine.seq env fuel d code
  instr (d : Nat) (i : Sexpr) : instr env fuel d i = Machine.instr env fuel d i
  passes (d : Nat) (isLoop : Bool) (label : Option Bytes) (height : Nat) (body : List Sexpr) :
    passes env fuel d isLoop label height body = Machine.passes env fuel d isLoop label height body
  call (d : Nat) (f : Func HostFunc) : call env fuel d f = Machine.call env fuel d f

variable {env : Env} {fuel : Nat} (ih : SameRuns env fuel)

include ih

theorem seq_eq (d : Nat) (code : List Sexpr) :
    seq env (fuel + 1) d code = Machine.seq env (fuel + 1) d code := by
  cases code with
  | nil => rw [seq, Machine.seq]
  | cons i rest =>
    rw [seq, seq_cons_succ, ih.instr]
    refine congrArg (Machine.instr env fuel d i >>= ·) (funext fun c => ?_)
    cases c with
    | next => exact ih.seq d rest
    | branch l => rfl
    | ret => rfl

theorem passes_eq (d : Nat) (isLoop : Bool) (label : Option Bytes) (height : Nat)
    (body : List Sexpr) : passes env (fuel + 1) d isLoop label height body =
      Machine.passes env (fuel + 1) d isLoop label height body := by
  rw [passes, passes_succ, ih.seq, ih.passes]
  refine congrArg (check env >>= ·) (funext fun _ => ?_)
  refine congrArg (Machine.seq env fuel d body >>= ·) (funext fun c => ?_)
  cases c <;> rfl

theorem call_eq (d : Nat) (f : Func HostFunc) :
    call env (fuel + 1) d f = Machine.call env (fuel + 1) d f := by
  rw [call, popMany_eq]
  cases call_step env d f with
  | imported host code run =>
    rw [run]
    simp only [code, answer_eq]
  | tooDeep deep locals body code run =>
    rw [run]
    simp only [code, if_pos deep]
  | defined shallow locals body code run =>
    rw [run]
    refine popMany_bind_congr fun args arity => ?_
    simp only [code, if_neg (Nat.not_le.2 shallow), setSlots_eq arity, ih.seq, leave_eq]
    rfl

omit ih in
theorem arm_eq (v : Word) (items : List Sexpr) :
    (if v = 0 then (items.filter (·.head == keyword "else")).map Sexpr.operands
      else (items.filter (·.head == keyword "then")).map Sexpr.operands).getLast?.getD [] =
      arm (if v = 0 then keyword "else" else keyword "then") items := by
  split <;> rw [arm, List.getLast?_map]

theorem instr_eq (d : Nat) (i : Sexpr) :
    instr env (fuel + 1) d i = Machine.instr env (fuel + 1) d i := by
  rw [instr, i.head?_eq]
  change (if i.head.isEmpty = true then _ else _) = _
  cases head : i.head.isEmpty with
  | true =>
    rw [Machine.instr, if_pos head]
    rfl
  | false =>
    have thenWord : (keyword "then").isEmpty = false := by decide
    have elseWord : (keyword "else").isEmpty = false := by decide
    simp only [Bool.false_eq_true, if_false, Sexpr.operands?_eq head, splitLabel?_eq head,
      arms?_eq thenWord, arms?_eq elseWord, tests?_eq, ih.seq, ih.passes, ih.call, pop_eq,
      immediate_eq, simple_eq, must_some, pure_bind, arm_eq]
    rcases op : Op.ofName? i.head with _ | _ | _ | _ | _ | o
    case some.block => rw [instr_eq_passes false head op]
    case some.loop => rw [instr_eq_passes true head op]
    case some.cond =>
      rw [instr_eq_cond head op]
      refine congrArg (fun x => Machine.seq env fuel d (tests i) >>= resume x) ?_
      refine congrArg (Machine.pop >>= ·) (funext fun v => ?_)
      refine congrArg (height >>= ·) (funext fun h => ?_)
      refine congrArg (Machine.seq env fuel d _ >>= ·) (funext fun c => ?_)
      cases c <;> rfl
    all_goals
      rw [instr_eq_plain head (by simp [op]), perform, op]
      rfl

omit ih in
theorem same_runs (env : Env) (fuel : Nat) : SameRuns env fuel := by
  induction fuel with
  | zero =>
    constructor <;> intros
    · rw [seq, Machine.seq]
    · rw [instr, Machine.instr]
    · rw [passes, Machine.passes]
    · rw [call, Machine.call]
  | succ fuel ih => exact ⟨seq_eq ih, instr_eq ih, passes_eq ih, call_eq ih⟩

omit ih in
theorem invoke_eq (inst : Instance) (fuel : Nat) (budget : Option Nat) (name : Bytes)
    (args : List Word) :
    invoke inst fuel budget name args = inst.invoke fuel budget name args := by
  rw [invoke]
  cases found : inst.exports.lookup name with
  | none => simp only [Instance.invoke, found]
  | some f =>
    by_cases arity : args.length = f.params.length
    · simp only [if_neg (not_not.2 arity), Instance.invoke_eq found arity, (same_runs _ fuel).call]
    · simp only [Instance.invoke, found, if_pos arity]

end equal

end Indexed

/-- **The host never crashes.** Loading a text, with every byte of it and every item of a form
looked up by its position, ends with a module or with an error, and no lookup fails. If the module
supplies the functions that it imports with the arguments they read, then a call of one of its
exports, with everything looked up by its position and the stack cut by position, ends with a result
or an error or runs on, and again no lookup and no cut fails. -/
theorem host_never_crashes (text : Bytes) :
    Indexed.load text = (Image.load text).mapError .refused ∧
    ∀ image inst i, Image.load text = .ok image → image.Supplied → image.instantiate = .ok inst →
      inst.Becomes i → ∀ budget name args,
        (∀ fuel, Indexed.invoke i fuel budget name args = i.invoke fuel budget name args) ∧
        ((∃ least last, (∀ fuel ≥ least, i.invoke fuel budget name args = last) ∧
            last.outcome ≠ .error (.halt .crash) ∧ last.outcome ≠ .error (.halt .outOfFuel)) ∨
          ∀ fuel, (i.invoke fuel budget name args).outcome = .error (.halt .outOfFuel)) := by
  refine ⟨Indexed.load_eq text, fun image inst i loaded supplied linked becomes budget name args => ?_⟩
  have safe : i.Supplied := (Instance.supplied_of_instantiate (Image.load_closed loaded) supplied
    linked).becomes becomes
  exact ⟨fun fuel => Indexed.invoke_eq i fuel budget name args,
    safe.invoke_ends_or_runs_on budget name args⟩

/-- The absolute value of a number, imported without a name and without its result. -/
def voidAbs {σ : Type} (source : σ) : Func σ := ⟨[], [[]], false, .imported source⟩

/-- A function that branches out of a block with fewer values on the stack than there were before:
the cut brings one back. -/
def regaining {σ : Type} : Func σ :=
  ⟨[], [], false, .defined [] [
    .list [.atom (keyword "i32.const"), .atom (keyword "5")],
    .list [.atom (keyword "block"), .atom (keyword "$b"), .list [.atom (keyword "drop")],
      .list [.atom (keyword "br"), .atom (keyword "$b")]]]⟩

def regainingText : String :=
  "(module(import\"imports\"\"abs\"(func(param i32)))" ++
  "(func(export\"f\")(i32.const 5)(block $b(drop)(br $b))))"

def regainingImage : Image :=
  ⟨[voidAbs ⟨keyword "imports", keyword "abs"⟩, regaining], [], [(keyword "f", regaining)]⟩

def regainingInstance : Instance := ⟨[voidAbs .abs, regaining], [(keyword "f", regaining)], []⟩

theorem regaining_never_crashes :
    Image.load (Utf8.encode regainingText) = .ok regainingImage ∧ regainingImage.Supplied ∧
    regainingImage.instantiate = .ok regainingInstance ∧
    (∀ fuel, Indexed.invoke regainingInstance fuel none (keyword "f") [] =
      regainingInstance.invoke fuel none (keyword "f") []) ∧
    ((∃ least last, (∀ fuel ≥ least, regainingInstance.invoke fuel none (keyword "f") [] = last) ∧
        last.outcome ≠ .error (.halt .crash) ∧ last.outcome ≠ .error (.halt .outOfFuel)) ∨
      ∀ fuel, (regainingInstance.invoke fuel none (keyword "f") []).outcome =
        .error (.halt .outOfFuel)) := by
  have loaded : Image.load (Utf8.encode regainingText) = .ok regainingImage := rfl
  have supplied : regainingImage.Supplied := by
    rintro f (_ | ⟨_, _ | ⟨_, ⟨⟩⟩⟩)
    · rintro i host ⟨⟩ found
      cases (show HostFunc.find? ⟨keyword "imports", keyword "abs"⟩ = some .abs from rfl).symm.trans
        found
      decide
    · exact nofun
  exact ⟨loaded, supplied, rfl, (host_never_crashes (Utf8.encode regainingText)).2 _ _ _ loaded
    supplied rfl .same none (keyword "f") []⟩

end Machine
end WordScript
