import Mathlib.Tactic.Common
import WordScript.Machine
import WordScript.StackCode.Text

/-! Running stack code with enough fuel.

The machine is started with an amount of fuel that every nested step takes from. What a piece of
code does is therefore stated of the family of its runs over all amounts: the runs settle on an end
if they reach it with enough fuel and are out of fuel or reach it with any. -/
namespace WordScript
namespace Machine

section

-- The equations are derived here, once for all proofs below.
attribute [local simp] seq instr passes call

end

theorem run_bind {ε σ α β : Type} (x : ExceptT ε (StateM σ) α) (f : α → ExceptT ε (StateM σ) β)
    (s : σ) : (x >>= f).run s = match x.run s with
      | (.ok a, t) => (f a).run t
      | (.error e, t) => (.error e, t) := by
  unfold ExceptT.run
  simp only [bind, ExceptT.bind, ExceptT.mk, StateT.bind]
  rcases x s with ⟨_ | _, t⟩ <;> rfl

theorem run_bind_ok {ε σ α β : Type} {x : ExceptT ε (StateM σ) α}
    {f : α → ExceptT ε (StateM σ) β} {s t : σ} {b : β} :
    (x >>= f).run s = (.ok b, t) ↔ ∃ a u, x.run s = (.ok a, u) ∧ (f a).run u = (.ok b, t) := by
  rw [run_bind]
  rcases x.run s with ⟨e | a, u⟩
  · constructor
    · rintro ⟨⟩
    · rintro ⟨_, _, ⟨⟩, _⟩
  · constructor
    · intro h
      exact ⟨a, u, rfl, h⟩
    · rintro ⟨_, _, ⟨⟩, h⟩
      exact h

section runs

variable {ε σ α : Type} (s : σ)

theorem run_pure (a : α) : (pure a : ExceptT ε (StateM σ) α).run s = (.ok a, s) := rfl

theorem run_get : (get : ExceptT ε (StateM σ) σ).run s = (.ok s, s) := rfl

theorem run_modify (f : σ → σ) :
    (modify f : ExceptT ε (StateM σ) PUnit).run s = (.ok ⟨⟩, f s) := rfl

end runs

section settling

variable {α β : Type} {s t : State} {n : Nat}

def OutOfFuel (r : Except Halt α × State) : Prop := r.1 = .error .outOfFuel

/-- The runs reach an end with enough fuel, and no other one but for want of fuel. -/
def Settles (c : Nat → Exec α) (s : State) (r : Except Halt α × State) : Prop :=
  (∃ least, ∀ fuel ≥ least, (c fuel).run s = r) ∧
    ∀ fuel, (c fuel).run s = r ∨ OutOfFuel ((c fuel).run s)

/-- The runs with no more fuel than `n` are all out of fuel. -/
def Lasts (n : Nat) (c : Nat → Exec α) (s : State) : Prop :=
  ∀ fuel ≤ n, OutOfFuel ((c fuel).run s)

variable {c : Nat → Exec α} {d : Nat → α → Exec β}
variable {r : Except Halt α × State}

theorem OutOfFuel.bind {f : α → Exec β} (h : OutOfFuel (x.run s)) :
    OutOfFuel ((x >>= f).run s) := by
  rw [run_bind]
  rcases hr : x.run s with ⟨_ | _, t⟩ <;> rw [hr] at h <;> cases h
  rfl

theorem Settles.const (x : Exec α) (s : State) : Settles (fun _ => x) s (x.run s) :=
  ⟨⟨0, fun _ _ => rfl⟩, fun _ => .inl rfl⟩

theorem Settles.of_run (h : x.run s = r) : Settles (fun _ => x) s r := h ▸ Settles.const x s

theorem Settles.bind {r : Except Halt β × State} (h : Settles c s (.ok a, t))
    (k : Settles (fun fuel => d fuel a) t r) : Settles (fun fuel => c fuel >>= d fuel) s r := by
  obtain ⟨⟨l, hl⟩, hc⟩ := h
  obtain ⟨⟨l', hl'⟩, hd⟩ := k
  refine ⟨⟨max l l', fun fuel hf => ?_⟩, fun fuel => ?_⟩
  · rw [run_bind, hl fuel (by omega)]
    exact hl' fuel (by omega)
  · rcases hc fuel with hr | hr
    · rw [run_bind, hr]
      exact hd fuel
    · exact .inr hr.bind

theorem Settles.bind_error (h : Settles c s (.error e, t)) :
    Settles (fun fuel => c fuel >>= d fuel) s (.error e, t) := by
  obtain ⟨⟨l, hl⟩, hc⟩ := h
  refine ⟨⟨l, fun fuel hf => ?_⟩, fun fuel => ?_⟩
  · rw [run_bind, hl fuel hf]
  · rcases hc fuel with hr | hr
    · exact .inl (by rw [run_bind, hr])
    · exact .inr hr.bind

theorem Lasts.bind (h : Lasts n c s) : Lasts n (fun fuel => c fuel >>= d fuel) s :=
  fun fuel hf => (h fuel hf).bind

theorem Settles.bind_lasts (h : Settles c s (.ok a, t)) (k : Lasts n (fun fuel => d fuel a) t) :
    Lasts n (fun fuel => c fuel >>= d fuel) s := by
  intro fuel hf
  rcases h.2 fuel with hr | hr
  · rw [run_bind, hr]
    exact k fuel hf
  · exact hr.bind

theorem Settles.delay (h : Settles c s r) (k : Nat) : Settles (fun fuel => c (fuel - k)) s r := by
  obtain ⟨⟨l, hl⟩, hc⟩ := h
  exact ⟨⟨l + k, fun fuel hf => hl _ (by omega)⟩, fun fuel => hc _⟩

theorem Lasts.delay (h : Lasts n c s) (k : Nat) : Lasts n (fun fuel => c (fuel - k)) s :=
  fun fuel hf => h _ (by omega)

theorem Lasts.mono (h : Lasts n c s) (hk : k ≤ n) : Lasts k c s :=
  fun fuel hf => h fuel (by omega)

/-- Runs of which each step takes one piece of fuel. -/
def later (c : Nat → Exec α) : Nat → Exec α
  | 0 => throw .outOfFuel
  | fuel + 1 => c fuel

theorem eq_later (zero : c 0 = throw .outOfFuel) (succ : ∀ fuel, c (fuel + 1) = x fuel) :
    c = later x := by
  funext fuel
  cases fuel with
  | zero => exact zero
  | succ fuel => exact succ fuel

theorem later_ok (h : (later c fuel).run s = (.ok a, t)) :
    ∃ k, fuel = k + 1 ∧ (c k).run s = (.ok a, t) := by
  cases fuel with
  | zero => cases h
  | succ k => exact ⟨k, rfl, h⟩

theorem Settles.later (h : Settles c s r) : Settles (later c) s r := by
  obtain ⟨⟨l, hl⟩, hc⟩ := h
  refine ⟨⟨l + 1, fun fuel hf => ?_⟩, fun fuel => ?_⟩
  · obtain ⟨k, rfl⟩ : ∃ k, fuel = k + 1 := ⟨fuel - 1, by omega⟩
    exact hl k (by omega)
  · cases fuel with
    | zero => exact .inr rfl
    | succ k => exact hc k

theorem Lasts.later (h : Lasts n c s) : Lasts (n + 1) (later c) s := by
  intro fuel hf
  cases fuel with
  | zero => rfl
  | succ k => exact h k (by omega)

theorem Lasts.zero (c : Nat → Exec α) (s : State) : Lasts 0 (Machine.later c) s := by
  intro fuel hf
  obtain rfl : fuel = 0 := by omega
  rfl

end settling

section sequences

variable (env : Env) (depth : Nat)

/-- What a sequence goes on with after control left its first part. -/
def resume (rest : Exec Control) : Control → Exec Control
  | .next => rest
  | c => pure c

theorem seq_nil_eq : (fun fuel => seq env fuel depth []) = later fun _ => pure .next :=
  eq_later (by rw [seq]) fun fuel => by rw [seq]

theorem seq_cons_succ (fuel : Nat) (i : Sexpr) (rest : List Sexpr) :
    seq env (fuel + 1) depth (i :: rest) =
      instr env fuel depth i >>= resume (seq env fuel depth rest) := by
  rw [seq]
  congr 1

theorem seq_cons_eq (i : Sexpr) (rest : List Sexpr) :
    (fun fuel => seq env fuel depth (i :: rest)) =
      later fun fuel => instr env fuel depth i >>= resume (seq env fuel depth rest) :=
  eq_later (by rw [seq]) fun fuel => seq_cons_succ env depth fuel i rest

variable {env depth} in
theorem seq_cons_ok (h : (seq env fuel depth (i :: rest)).run s = (.ok c, t)) :
    ∃ k d u, fuel = k + 1 ∧ (instr env k depth i).run s = (.ok d, u) ∧
      (resume (seq env k depth rest) d).run u = (.ok c, t) := by
  rw [show seq env fuel depth (i :: rest) = _ from congrFun (seq_cons_eq env depth i rest) fuel] at h
  obtain ⟨k, rfl, h⟩ := later_ok h
  obtain ⟨d, u, hi, hr⟩ := run_bind_ok.1 h
  exact ⟨k, d, u, rfl, hi, hr⟩

theorem seq_append_eq (xs ys : List Sexpr) (fuel : Nat) :
    seq env fuel depth (xs ++ ys) =
      seq env fuel depth xs >>= resume (seq env (fuel - xs.length) depth ys) := by
  induction xs generalizing fuel with
  | nil =>
    cases fuel with
    | zero =>
      rw [seq, seq]
      rfl
    | succ k =>
      rw [seq]
      rfl
  | cons i rest ih =>
    cases fuel with
    | zero =>
      rw [seq, seq]
      rfl
    | succ k =>
      rw [List.cons_append, seq_cons_succ, seq_cons_succ, bind_assoc]
      congr 1
      funext c
      cases c with
      | next =>
        rw [ih k, List.length_cons, Nat.add_sub_add_right]
        rfl
      | branch l => rfl
      | ret => rfl

end sequences

/-- The operands of an instruction that are instructions themselves. -/
def inner (i : Sexpr) : List Sexpr := i.operands.filter (·.isList)

/-- The operands of an instruction that are words. -/
def immediates (i : Sexpr) : List Bytes := (i.operands.filter fun i => !i.isList).map (·.text)

/-- The operands of a conditional other than its arms. -/
def tests (i : Sexpr) : List Sexpr := (splitLabel i.operands).2.filter fun i => !isArm i

def callNamed (env : Env) (fuel d : Nat) (op : Bytes) (imms : List Bytes) : Exec Control := do
  let name ← immediate op imms
  match env.funcs.find? (·.name == name) with
  | some f =>
    let v ← call env fuel d f
    if f.result then push v
    return .next
  | none => stop (.unknownFunction name)

def choose (env : Env) (fuel d : Nat) (i : Sexpr) : Exec Control := do
  let v ← pop
  let height ← height
  match ← seq env fuel d (arm (if v = 0 then keyword "else" else keyword "then")
    (splitLabel i.operands).2) with
  | .branch l =>
    if (splitLabel i.operands).1 = some l then
      cut height
      return .next
    else return .branch l
  | c => return c

/-- What an instruction that is not structured does once its operands have run. -/
def perform (env : Env) (fuel d : Nat) (op : Bytes) (imms : List Bytes) : Exec Control :=
  match Op.ofName? op with
  | some (.simple o) => simple op imms o
  | some .call => callNamed env fuel d op imms
  | _ => stop (.instruction op)

/-- What a block or a loop goes on with after control left its body. -/
def repass (env : Env) (fuel d : Nat) (isLoop : Bool) (label : Option Bytes) (height : Nat)
    (body : List Sexpr) : Control → Exec Control
  | .branch l =>
    if label = some l then do
      cut height
      if isLoop then passes env fuel d isLoop label height body else return .next
    else return .branch l
  | c => return c

section steps

variable {env : Env} {d : Nat} {i : Sexpr}

theorem instr_eq_passes (isLoop : Bool) (head : i.head.isEmpty = false)
    (op : Op.ofName? i.head = some (if isLoop then .loop else .block)) (fuel : Nat) :
    instr env (fuel + 1) d i = height >>= fun h =>
      passes env fuel d isLoop (splitLabel i.operands).1 h (splitLabel i.operands).2 := by
  rw [instr]
  cases isLoop <;> simp only [head, op] <;> rfl

theorem instr_eq_cond (head : i.head.isEmpty = false) (op : Op.ofName? i.head = some .cond)
    (fuel : Nat) :
    instr env (fuel + 1) d i = seq env fuel d (tests i) >>= resume (choose env fuel d i) := by
  rw [instr]
  simp only [head, op]
  exact congrArg (seq env fuel d (tests i) >>= ·) (funext fun c => by cases c <;> rfl)

theorem instr_eq_plain (head : i.head.isEmpty = false)
    (op : ∀ o ∈ [.block, .loop, .cond], Op.ofName? i.head ≠ some o) (fuel : Nat) :
    instr env (fuel + 1) d i =
      seq env fuel d (inner i) >>= resume (perform env fuel d i.head (immediates i)) := by
  rw [instr, perform]
  rcases known : Op.ofName? i.head with _ | _ | _ | _ | _ | o
  case some.block | some.loop | some.cond => exact absurd known (op _ (by simp))
  all_goals
    simp only [head]
    exact congrArg (seq env fuel d (inner i) >>= ·) (funext fun c => by cases c <;> rfl)

/-- What an instruction does, by its first word. -/
inductive InstrStep (env : Env) (d : Nat) (i : Sexpr) : Prop
  | formless (head : i.head.isEmpty = true)
      (run : ∀ fuel, instr env (fuel + 1) d i = stop (.form i))
  | passes (isLoop : Bool) (head : i.head.isEmpty = false)
      (op : Op.ofName? i.head = some (if isLoop then .loop else .block))
      (run : ∀ fuel, instr env (fuel + 1) d i = height >>= fun h =>
        passes env fuel d isLoop (splitLabel i.operands).1 h (splitLabel i.operands).2)
  | cond (head : i.head.isEmpty = false) (op : Op.ofName? i.head = some .cond)
      (run : ∀ fuel, instr env (fuel + 1) d i =
        seq env fuel d (tests i) >>= resume (choose env fuel d i))
  | plain (head : i.head.isEmpty = false)
      (op : ∀ o ∈ [.block, .loop, .cond], Op.ofName? i.head ≠ some o)
      (run : ∀ fuel, instr env (fuel + 1) d i =
        seq env fuel d (inner i) >>= resume (perform env fuel d i.head (immediates i)))

theorem instr_step (env : Env) (d : Nat) (i : Sexpr) : InstrStep env d i := by
  cases head : i.head.isEmpty with
  | true =>
    refine .formless head fun fuel => ?_
    rw [instr, if_pos head]
    rfl
  | false =>
    rcases op : Op.ofName? i.head with _ | _ | _ | _ | _ | o
    case some.block => exact .passes false head op (instr_eq_passes false head op)
    case some.loop => exact .passes true head op (instr_eq_passes true head op)
    case some.cond => exact .cond head op (instr_eq_cond head op)
    all_goals
      have plain : ∀ o ∈ [.block, .loop, .cond], Op.ofName? i.head ≠ some o := by simp [op]
      exact .plain head plain (instr_eq_plain head plain)

theorem passes_succ (fuel : Nat) (isLoop : Bool) (label : Option Bytes) (height : Nat)
    (body : List Sexpr) :
    passes env (fuel + 1) d isLoop label height body =
      check env >>= fun _ => seq env fuel d body >>= repass env fuel d isLoop label height body := by
  rw [passes]
  refine congrArg (check env >>= ·) (funext fun _ => ?_)
  exact congrArg (seq env fuel d body >>= ·) (funext fun c => by cases c <;> rfl)

end steps

end Machine

namespace StackCode

/-- The name that stands for a name of the program in a module text. -/
def key (x : String) : Bytes := 36 :: Utf8.encode x

def form (word : String) (items : List Sexpr) : Sexpr :=
  .list (.atom (Machine.keyword word) :: items)

/-- The arms of a conditional; an empty `else` arm is left out. -/
def arms (yes no : List Sexpr) : List Sexpr :=
  form "then" yes :: if no.isEmpty then [] else [form "else" no]

mutual

/-- The form that an instruction is written as. -/
def Instr.sexpr : Instr → Sexpr
  | .nop => form "nop" []
  | .ret => form "return" []
  | .const v => form "i32.const" [.atom (Utf8.encode (toString v))]
  | .get p x => form (p.word ++ ".get") [.atom (key x)]
  | .set p x => form (p.word ++ ".set") [.atom (key x)]
  | .op o => form o.name []
  | .call f => form "call" [.atom (key f)]
  | .br l => form "br" [.atom (key l)]
  | .brIf l => form "br_if" [.atom (key l)]
  | .block l body => form "block" (.atom (key l) :: Instr.sexprs body)
  | .loop l body => form "loop" (.atom (key l) :: Instr.sexprs body)
  | .cond thenArm elseArm => form "if" (arms (Instr.sexprs thenArm) (Instr.sexprs elseArm))

def Instr.sexprs : List Instr → List Sexpr
  | [] => []
  | i :: rest => i.sexpr :: Instr.sexprs rest

end

theorem Instr.sexprs_append (xs ys : List Instr) :
    Instr.sexprs (xs ++ ys) = Instr.sexprs xs ++ Instr.sexprs ys := by
  induction xs with
  | nil => rfl
  | cons i rest ih => simp [Instr.sexprs, ih]

end StackCode

namespace Machine
open StackCode (key form arms)

section instructions

variable (env : Env) (depth : Nat)
variable {c : Control} {word : String} {fuel : Nat} {s t : State}

theorem settles_nil (s : State) : Settles (fun fuel => seq env fuel depth []) s (.ok .next, s) := by
  rw [seq_nil_eq]
  exact (Settles.const (pure Control.next) s).later

theorem resume_settles {rest : Nat → Exec Control} (hc : c ≠ .next) (s : State) :
    Settles (fun fuel => resume (rest fuel) c) s (.ok c, s) := by
  cases c with
  | next => exact absurd rfl hc
  | branch l => exact Settles.const (pure (Control.branch l)) s
  | ret => exact Settles.const (pure Control.ret) s

theorem resume_nil_settles (c : Control) (s : State) :
    Settles (fun fuel => resume (seq env fuel depth []) c) s (.ok c, s) := by
  by_cases hc : c = .next
  · subst hc
    exact settles_nil env depth s
  · exact resume_settles hc s

theorem keyword_isEmpty (h : Op.ofName? (keyword word) = some op) :
    (keyword word).isEmpty = false := by
  cases hk : keyword word with
  | nil =>
    rw [hk] at h
    cases h
  | cons b bs => rfl

theorem inner_form (word : String) (imms : List Bytes) : inner (form word (imms.map .atom)) = [] := by
  simp [inner, form, Sexpr.operands, Sexpr.items, Sexpr.isList]

theorem immediates_form (word : String) (imms : List Bytes) :
    immediates (form word (imms.map .atom)) = imms := by
  show ((imms.map Sexpr.atom).filter fun i => !i.isList).map (·.text) = imms
  rw [List.filter_eq_self.2 (by simp [Sexpr.isList]), List.map_map]
  exact List.map_id imms

theorem instr_form_eq (h : Op.ofName? (keyword word) = some op)
    (plain : op ∉ [.block, .loop, .cond]) (imms : List Bytes) :
    (fun fuel => instr env fuel depth (form word (imms.map .atom))) =
      later fun fuel => seq env fuel depth [] >>=
        resume (perform env fuel depth (keyword word) imms) := by
  refine eq_later (by rw [instr]) fun fuel => ?_
  have other : ∀ o ∈ [.block, .loop, .cond], Op.ofName? (keyword word) ≠ some o := by
    rintro o mem known
    cases h.symm.trans known
    exact plain mem
  rw [instr_eq_plain (i := form word (imms.map .atom)) (keyword_isEmpty h) other, inner_form,
    immediates_form]
  rfl

section

variable (h : Op.ofName? (keyword word) = some (.simple op)) (imms : List Bytes)
include h imms

theorem instr_simple_eq :
    (fun fuel => instr env fuel depth (form word (imms.map .atom))) =
      later fun fuel => seq env fuel depth [] >>= resume (simple (keyword word) imms op) := by
  rw [instr_form_eq env depth h (by simp)]
  simp only [perform, h]

theorem settles_simple (s : State) :
    Settles (fun fuel => instr env fuel depth (form word (imms.map .atom))) s
      ((simple (keyword word) imms op).run s) := by
  rw [instr_simple_eq env depth h]
  exact ((settles_nil env depth s).bind (Settles.const _ s)).later

end

theorem ofName_block : Op.ofName? (keyword "block") = some .block := by decide
theorem ofName_loop : Op.ofName? (keyword "loop") = some .loop := by decide
theorem ofName_cond : Op.ofName? (keyword "if") = some .cond := by decide
theorem ofName_call : Op.ofName? (keyword "call") = some .call := by decide

theorem instr_call_eq (h : env.funcs.find? (·.name == name) = some f) (hr : f.result = true) :
    (fun fuel => instr env fuel depth (form "call" [.atom name])) =
      later fun fuel => seq env fuel depth [] >>=
        resume (call env fuel depth f >>= fun v => push v >>= fun _ => pure .next) := by
  refine (instr_form_eq env depth ofName_call (by simp) [name]).trans ?_
  simp [perform, ofName_call, callNamed, immediate, h, hr]

theorem instr_passes_eq (isLoop : Bool)
    (known : Op.ofName? (keyword word) = some (if isLoop then .loop else .block)) (label : String)
    (body : List Sexpr) :
    (fun fuel => instr env fuel depth (form word (.atom (key label) :: body))) =
      later fun fuel => height >>= fun h =>
        passes env fuel depth isLoop (some (key label)) h body :=
  eq_later (by rw [instr]) (instr_eq_passes isLoop (keyword_isEmpty known) known)

theorem height_bind {α : Type} (x : Exec α) : (height >>= fun _ => x) = x := rfl

section arms

variable (yes no : List Sexpr)

theorem splitLabel_arms : splitLabel (arms yes no) = (none, arms yes no) := rfl

theorem isArm_form (word : String) (items : List Sexpr) :
    isArm (form word items) = (keyword word == keyword "then" || keyword word == keyword "else") :=
  rfl

theorem filter_arms : (arms yes no).filter (fun i => !isArm i) = [] := by
  have thenArm : isArm (form "then" yes) = true := by
    rw [isArm_form]
    decide
  have elseArm : isArm (form "else" no) = true := by
    rw [isArm_form]
    decide
  cases no <;> simp [arms, thenArm, elseArm]

theorem arm_then : arm (keyword "then") (arms yes no) = yes := by
  have other : (keyword "else" == keyword "then") = false := by decide
  cases no <;> simp [arm, arms, form, Sexpr.head, Sexpr.operands, Sexpr.items, other]

theorem arm_else : arm (keyword "else") (arms yes no) = no := by
  have other : (keyword "then" == keyword "else") = false := by decide
  cases no <;> simp [arm, arms, form, Sexpr.head, Sexpr.operands, Sexpr.items, other]

end arms

theorem tests_form (yes no : List Sexpr) : tests (form "if" (arms yes no)) = [] :=
  filter_arms yes no

theorem arm_arms (v : Word) (yes no : List Sexpr) :
    arm (if v = 0 then keyword "else" else keyword "then") (arms yes no) =
      if v = 0 then no else yes := by
  split
  · exact arm_else yes no
  · exact arm_then yes no

theorem instr_cond_eq (yes no : List Sexpr) :
    (fun fuel => instr env fuel depth (form "if" (arms yes no))) =
      later fun fuel => seq env fuel depth [] >>= resume (pop >>= fun v =>
        seq env fuel depth (if v = 0 then no else yes)) := by
  refine eq_later (by rw [instr]) fun fuel => ?_
  rw [instr_eq_cond (i := form "if" (arms yes no)) (keyword_isEmpty ofName_cond) ofName_cond,
    tests_form]
  refine congrArg (fun x => seq env fuel depth [] >>= resume (pop >>= x)) (funext fun v => ?_)
  have chosen : arm (if v = 0 then keyword "else" else keyword "then")
      (splitLabel (form "if" (arms yes no)).operands).2 = if v = 0 then no else yes :=
    arm_arms v yes no
  rw [chosen]
  refine (congrArg (height >>= ·) (funext fun h => ?_)).trans (height_bind _)
  -- No branch ends here, so that control leaves the conditional as it left the arm.
  refine (congrArg (seq env fuel depth (if v = 0 then no else yes) >>= ·)
    (funext fun c => ?_)).trans (bind_pure _)
  cases c <;> rfl

variable {env depth} in
theorem seq_nil_bind_ok (h : (seq env fuel depth [] >>= resume rest).run s = (.ok c, t)) :
    rest.run s = (.ok c, t) := by
  obtain ⟨d, u, hd, h⟩ := run_bind_ok.1 h
  rw [show seq env fuel depth [] = _ from congrFun (seq_nil_eq env depth) fuel] at hd
  obtain ⟨k, rfl, hd⟩ := later_ok hd
  cases hd
  exact h

variable {env depth} in
theorem instr_cond_ok (h : (instr env fuel depth (form "if" (arms yes no))).run s = (.ok c, t)) :
    ∃ k v u, fuel = k + 1 ∧ pop.run s = (.ok v, u) ∧
      (seq env k depth (if v = 0 then no else yes)).run u = (.ok c, t) := by
  rw [show instr env fuel depth (form "if" (arms yes no)) = _ from
    congrFun (instr_cond_eq env depth yes no) fuel] at h
  obtain ⟨k, rfl, h⟩ := later_ok h
  obtain ⟨v, u, hp, h⟩ := run_bind_ok.1 (seq_nil_bind_ok h)
  exact ⟨k, v, u, rfl, hp, h⟩

variable {env depth} in
theorem instr_call_ok (found : env.funcs.find? (·.name == name) = some f) (hr : f.result = true)
    (h : (instr env fuel depth (form "call" [.atom name])).run s = (.ok c, t)) :
    ∃ k v u, fuel = k + 1 ∧ (call env k depth f).run s = (.ok v, u) ∧ c = .next ∧
      t = { u with stack := u.stack.push v } := by
  rw [show instr env fuel depth (form "call" [.atom name]) = _ from
    congrFun (instr_call_eq env depth found hr) fuel] at h
  obtain ⟨k, rfl, h⟩ := later_ok h
  obtain ⟨v, u, hv, h⟩ := run_bind_ok.1 (seq_nil_bind_ok h)
  cases h
  exact ⟨k, v, u, rfl, hv, rfl, rfl⟩

variable {env depth} in
theorem instr_passes_ok (isLoop : Bool)
    (known : Op.ofName? (keyword word) = some (if isLoop then .loop else .block))
    (h : (instr env fuel depth (form word (.atom (key label) :: body))).run s = (.ok c, t)) :
    ∃ k, fuel = k + 1 ∧
      (passes env k depth isLoop (some (key label)) s.stack.height body).run s = (.ok c, t) := by
  rw [show instr env fuel depth (form word (.atom (key label) :: body)) = _ from
    congrFun (instr_passes_eq env depth isLoop known label body) fuel] at h
  obtain ⟨k, rfl, h⟩ := later_ok h
  exact ⟨k, rfl, h⟩

theorem passes_eq (isLoop : Bool) (label : Option Bytes) (height : Nat) (body : List Sexpr) :
    (fun fuel => passes env fuel depth isLoop label height body) =
      later fun fuel => check env >>= fun _ => seq env fuel depth body >>=
        repass env fuel depth isLoop label height body :=
  eq_later (by rw [passes]) fun fuel => passes_succ fuel isLoop label height body

variable {env depth} in
theorem passes_ok {height : Nat}
    (h : (passes env fuel depth isLoop label height body).run s = (.ok c, t)) :
    ∃ k d u v, fuel = k + 1 ∧ (check env).run s = (.ok (), u) ∧
      (seq env k depth body).run u = (.ok d, v) ∧
      (repass env k depth isLoop label height body d).run v = (.ok c, t) := by
  rw [show passes env fuel depth isLoop label height body = _ from
    congrFun (passes_eq env depth isLoop label height body) fuel] at h
  obtain ⟨k, rfl, h⟩ := later_ok h
  obtain ⟨_, u, hu, h⟩ := run_bind_ok.1 h
  obtain ⟨d, v, hd, h⟩ := run_bind_ok.1 h
  exact ⟨k, d, u, v, rfl, hu, hd, h⟩

end instructions

/-- States that differ in their stacks only. -/
structure Keeps (s t : State) : Prop where
  globals : t.globals = s.globals
  locals : t.locals = s.locals
  printed : t.printed = s.printed

section effects

variable (env : Env) (depth : Nat) {s : State} {base : List Word}
variable {v a b : Word} {x : Bytes} {g : Global}

theorem instr_settles (op : Simple) (imms : List Bytes) {r : Except Halt Control × State}
    (h : Op.ofName? (keyword word) = some (.simple op))
    (hr : (simple (keyword word) imms op).run s = r) :
    Settles (fun fuel => instr env fuel depth (form word (imms.map .atom))) s r :=
  hr ▸ settles_simple env depth h imms s

theorem nop_settles : Settles (fun fuel => instr env fuel depth (form "nop" [])) s (.ok .next, s) :=
  instr_settles env depth .nop [] (by decide) rfl

theorem return_settles :
    Settles (fun fuel => instr env fuel depth (form "return" [])) s (.ok .ret, s) :=
  instr_settles env depth .ret [] (by decide) rfl

theorem br_settles (label : Bytes) :
    Settles (fun fuel => instr env fuel depth (form "br" [.atom label])) s
      (.ok (.branch label), s) :=
  instr_settles env depth .br [label] (by decide) rfl

theorem const_settles (h : constant? text = some v) :
    ∃ t, Settles (fun fuel => instr env fuel depth (form "i32.const" [.atom text])) s
        (.ok .next, t) ∧
      Keeps s t ∧ t.stack.live = v :: s.stack.live := by
  refine ⟨{ s with stack := s.stack.push v }, ?_, ⟨rfl, rfl, rfl⟩, rfl⟩
  refine instr_settles env depth .const [text] (by decide) ?_
  simp only [simple, immediate, pure_bind, h]
  rfl

theorem run_getLocal (h : s.locals.lookup x = some v) : (getLocal x).run s = (.ok v, s) := by
  simp only [getLocal, run_bind, run_get, h, run_pure]

theorem run_getGlobal (h : s.globals.find? (·.name == x) = some g) :
    (getGlobal x).run s = (.ok g, s) := by
  simp only [getGlobal, run_bind, run_get, h, run_pure]

theorem run_pop (h : s.stack.live = v :: base) :
    ∃ t, pop.run s = (.ok v, t) ∧ Keeps s t ∧ t.stack.live = base := by
  refine ⟨{ s with stack := ⟨base, v :: s.stack.stale⟩ }, ?_, ⟨rfl, rfl, rfl⟩, rfl⟩
  simp only [pop, run_bind, run_get, Stack.pop?, h, run_modify, run_pure]

theorem localGet_settles (h : s.locals.lookup x = some v) :
    ∃ t, Settles (fun fuel => instr env fuel depth (form "local.get" [.atom x])) s (.ok .next, t) ∧
      Keeps s t ∧ t.stack.live = v :: s.stack.live := by
  refine ⟨{ s with stack := s.stack.push v }, ?_, ⟨rfl, rfl, rfl⟩, rfl⟩
  refine instr_settles env depth .localGet [x] (by decide) ?_
  simp only [simple, immediate, pure_bind, run_bind, run_getLocal h]
  rfl

theorem globalGet_settles (h : s.globals.find? (·.name == x) = some g) :
    ∃ t, Settles (fun fuel => instr env fuel depth (form "global.get" [.atom x])) s (.ok .next, t) ∧
      Keeps s t ∧ t.stack.live = g.value :: s.stack.live := by
  refine ⟨{ s with stack := s.stack.push g.value }, ?_, ⟨rfl, rfl, rfl⟩, rfl⟩
  refine instr_settles env depth .globalGet [x] (by decide) ?_
  simp only [simple, immediate, pure_bind, run_bind, run_getGlobal h]
  rfl

theorem localSet_settles (hs : s.stack.live = v :: base) (h : s.locals.lookup x = some u) :
    ∃ t, Settles (fun fuel => instr env fuel depth (form "local.set" [.atom x])) s (.ok .next, t) ∧
      t.globals = s.globals ∧ t.locals = setSlot x v s.locals ∧ t.printed = s.printed ∧
      t.stack.live = base := by
  obtain ⟨t, hp, hk, hl⟩ := run_pop hs
  refine ⟨{ t with locals := setSlot x v t.locals }, ?_, hk.globals, by rw [hk.locals],
    hk.printed, hl⟩
  refine instr_settles env depth .localSet [x] (by decide) ?_
  simp only [simple, immediate, pure_bind, run_bind, run_getLocal h, hp]
  rfl

theorem globalSet_settles (hs : s.stack.live = v :: base)
    (h : s.globals.find? (·.name == x) = some g) (hm : g.isMutable = true) :
    ∃ t, Settles (fun fuel => instr env fuel depth (form "global.set" [.atom x])) s (.ok .next, t) ∧
      t.globals = s.globals.map (fun g => if g.name == x then { g with value := v } else g) ∧
      t.locals = s.locals ∧ t.printed = s.printed ∧ t.stack.live = base := by
  obtain ⟨t, hp, hk, hl⟩ := run_pop hs
  refine ⟨{ t with globals := t.globals.map fun g =>
    if g.name == x then { g with value := v } else g }, ?_, by rw [hk.globals], hk.locals,
    hk.printed, hl⟩
  refine instr_settles env depth .globalSet [x] (by decide) ?_
  simp only [simple, immediate, pure_bind, run_bind, run_getGlobal h, hm, if_true, hp]
  rfl

theorem brIf_settles (label : Bytes) (hs : s.stack.live = v :: base) :
    ∃ t, Settles (fun fuel => instr env fuel depth (form "br_if" [.atom label])) s
        (.ok (if v = 0 then .next else .branch label), t) ∧
      Keeps s t ∧ t.stack.live = base := by
  obtain ⟨t, hp, hk, hl⟩ := run_pop hs
  refine ⟨t, ?_, hk, hl⟩
  refine instr_settles env depth .brIf [label] (by decide) ?_
  simp only [simple, immediate, pure_bind, run_bind, hp]
  rfl

theorem ofName?_op (o : WordOp) : Op.ofName? (keyword o.name) = some (.simple (.op o)) := by
  rcases o with _ | _ | _ | _ | _ | _ | m | m | _ | _ | m | m | m | m <;>
    first | decide | (cases m <;> decide)

section

variable (hs : s.stack.live = b :: a :: base)
include hs

theorem run_operands :
    ∃ t u, pop.run s = (.ok b, t) ∧ pop.run t = (.ok a, u) ∧ Keeps s u ∧ u.stack.live = base := by
  obtain ⟨t, hp, hk, hl⟩ := run_pop hs
  obtain ⟨u, hq, hj, hm⟩ := run_pop hl
  exact ⟨t, u, hp, hq, ⟨hj.globals.trans hk.globals, hj.locals.trans hk.locals,
    hj.printed.trans hk.printed⟩, hm⟩

theorem op_settles {o : WordOp} (h : o.eval a b = .ok v) :
    ∃ t, Settles (fun fuel => instr env fuel depth (form o.name [])) s (.ok .next, t) ∧
      Keeps s t ∧ t.stack.live = v :: base := by
  obtain ⟨t, u, hp, hq, hk, hl⟩ := run_operands hs
  refine ⟨{ u with stack := u.stack.push v }, ?_, ⟨hk.globals, hk.locals, hk.printed⟩,
    congrArg (v :: ·) hl⟩
  refine instr_settles env depth (.op o) [] (ofName?_op o) ?_
  simp only [simple, run_bind, hp, hq, h]
  rfl

theorem op_traps {o : WordOp} (h : o.eval a b = .error fault) :
    ∃ t, Settles (fun fuel => instr env fuel depth (form o.name [])) s
        (.error (.trap (.arith fault)), t) ∧ Keeps s t := by
  obtain ⟨t, u, hp, hq, hk, -⟩ := run_operands hs
  refine ⟨u, instr_settles env depth (.op o) [] (ofName?_op o) ?_, hk⟩
  simp only [simple, run_bind, hp, hq, h]
  rfl

end

theorem run_cut (hs : s.stack.live = top ++ base) :
    ∃ t, (cut base.length).run s = (.ok (), t) ∧ Keeps s t ∧ t.stack.live = base := by
  have hh : s.stack.height = top.length + base.length := by
    rw [Stack.height, hs, List.length_append]
  have cutTo : ∃ stack, s.stack.cut? base.length = some stack ∧ stack.live = base := by
    simp [Stack.cut?, hh, hs]
  obtain ⟨stack, hc, hl⟩ := cutTo
  refine ⟨{ s with stack }, ?_, ⟨rfl, rfl, rfl⟩, hl⟩
  simp only [cut, run_bind, run_get, hc, run_modify]

theorem check_ok (h : (check env).run s = (.ok (), t)) : Keeps s t ∧ t.stack = s.stack := by
  have same : t = { s with checks := s.checks + 1 } := by
    rw [check] at h
    cases hb : env.budget with
    | none =>
      rw [hb] at h
      exact (Prod.mk.inj h).2.symm
    | some n =>
      simp only [hb, run_bind, run_get] at h
      split at h
      · cases h
      · exact (Prod.mk.inj h).2.symm
  subst same
  exact ⟨⟨rfl, rfl, rfl⟩, rfl⟩

theorem run_check (hb : env.budget = none) :
    (check env).run s = (.ok (), { s with checks := s.checks + 1 }) := by
  simp only [check, hb]
  rfl

end effects

section calls

variable (env : Env) (depth : Nat) {s : State} {base : List Word}
variable {args : List Word} {f : Func HostFunc} {caller : List (Bytes × Word)}

theorem run_popMany (hs : s.stack.live = args.reverse ++ base) :
    ∃ t, (popMany args.length).run s = (.ok args, t) ∧ Keeps s t ∧ t.stack.live = base := by
  have pops : ∃ stack, s.stack.popMany? args.length = some (args, stack) ∧ stack.live = base := by
    refine ⟨⟨base, args ++ s.stack.stale⟩, ?_, rfl⟩
    have taken : (args.reverse ++ base).take args.length = args.reverse := by
      rw [← List.length_reverse, List.take_left]
    have left : (args.reverse ++ base).drop args.length = base := by
      rw [← List.length_reverse, List.drop_left]
    rw [Stack.popMany?, if_pos (by simp [Stack.height, hs]), hs, taken, left, List.reverse_reverse]
  obtain ⟨stack, hp, hl⟩ := pops
  refine ⟨{ s with stack }, ?_, ⟨rfl, rfl, rfl⟩, hl⟩
  simp only [popMany, run_bind, run_get, hp, run_modify, run_pure]

/-- What a function goes on with after control left its body. -/
def leave (f : Func HostFunc) (caller : List (Bytes × Word)) (before : Nat) : Control → Exec Word
  | .branch l => stop (.unknownLabel l)
  | _ => do
    let result ←
      if f.result then
        match (← get).stack.live with
        | v :: _ => if (← height) ≤ before then stop (.noValue f.name) else pure v
        | [] => stop (.noValue f.name)
      else pure 0
    cut before
    modify fun s => { s with locals := caller }
    return result

/-- What an imported function does with its arguments. -/
def answer (f : Func HostFunc) (host : HostFunc) (args : List Word) : Exec Word :=
  match host.reply? args with
  | some reply => do
    modify fun s => { s with printed := reply.line.toList ++ s.printed }
    return if f.result then reply.value else 0
  | none => throw .crash

/-- Runs the body of a function whose arguments have been popped. -/
def enter (env : Env) (fuel d : Nat) (f : Func HostFunc) (locals : List Bytes) (body : List Sexpr)
    (args : List Word) : Exec Word := do
  let caller := (← get).locals
  modify fun s => { s with locals := initialLocals f locals args }
  let before ← height
  leave f caller before (← seq env fuel (d + 1) body)

section steps

variable {env depth} {f : Func HostFunc} {host : HostFunc} {locals : List Bytes} {body : List Sexpr}

theorem call_eq_answer (hf : f.code = .imported host) (fuel : Nat) :
    call env (fuel + 1) depth f = popMany f.params.length >>= answer f host := by
  simp only [call, hf]
  rfl

section

variable (hf : f.code = .defined locals body)
include hf

theorem call_eq_stop (deep : maxDepth ≤ depth) (fuel : Nat) :
    call env (fuel + 1) depth f = popMany f.params.length >>= fun _ => stop .callStack := by
  simp only [call, hf, if_pos deep]
  rfl

theorem call_eq_enter (hd : depth < maxDepth) (fuel : Nat) :
    call env (fuel + 1) depth f =
      popMany f.params.length >>= enter env fuel depth f locals body := by
  rw [call]
  simp only [hf, if_neg (Nat.not_le.2 hd)]
  rfl

theorem call_defined_eq (hd : depth < maxDepth) :
    (fun fuel => call env fuel depth f) =
      later fun fuel => popMany f.params.length >>= enter env fuel depth f locals body :=
  eq_later (by rw [call]) (call_eq_enter hf hd)

end

/-- A call is answered by the host, is one too many, or runs the body of the function. -/
inductive CallStep (env : Env) (d : Nat) (f : Func HostFunc) : Prop
  | imported (host : HostFunc) (code : f.code = .imported host)
      (run : ∀ fuel, call env (fuel + 1) d f = popMany f.params.length >>= answer f host)
  | tooDeep (deep : maxDepth ≤ d) (locals : List Bytes) (body : List Sexpr)
      (code : f.code = .defined locals body)
      (run : ∀ fuel, call env (fuel + 1) d f =
        popMany f.params.length >>= fun _ => stop .callStack)
  | defined (shallow : d < maxDepth) (locals : List Bytes) (body : List Sexpr)
      (code : f.code = .defined locals body)
      (run : ∀ fuel, call env (fuel + 1) d f =
        popMany f.params.length >>= enter env fuel d f locals body)

theorem call_step (env : Env) (d : Nat) (f : Func HostFunc) : CallStep env d f := by
  cases code : f.code with
  | imported host => exact .imported host code (call_eq_answer code)
  | defined locals body =>
    rcases Nat.lt_or_ge d maxDepth with shallow | deep
    · exact .defined shallow locals body code (call_eq_enter code shallow)
    · exact .tooDeep deep locals body code (call_eq_stop code deep)

theorem call_defined_ok (hf : f.code = .defined locals body)
    (h : (call env fuel depth f).run s = (.ok v, t)) :
    ∃ k args c u w, fuel = k + 1 ∧ depth < maxDepth ∧
      (popMany f.params.length).run s = (.ok args, u) ∧
      (seq env k (depth + 1) body).run { u with locals := initialLocals f locals args } =
        (.ok c, w) ∧
      (leave f u.locals u.stack.height c).run w = (.ok v, t) := by
  cases fuel with
  | zero =>
    rw [call] at h
    cases h
  | succ k =>
    rcases Nat.lt_or_ge depth maxDepth with hd | deep
    · rw [call_eq_enter hf hd] at h
      obtain ⟨args, u, hu, h⟩ := run_bind_ok.1 h
      change (seq env k (depth + 1) body >>= leave f u.locals u.stack.height).run
        { u with locals := initialLocals f locals args } = _ at h
      obtain ⟨c, w, hw, h⟩ := run_bind_ok.1 h
      exact ⟨k, args, c, u, w, rfl, hd, hu, hw, h⟩
    · rw [call_eq_stop hf deep] at h
      obtain ⟨args, u, -, h⟩ := run_bind_ok.1 h
      cases h

end steps

theorem call_imported_settles (hf : f.code = .imported host) (hr : f.result = true)
    (hn : f.params.length = args.length) (hs : s.stack.live = args.reverse ++ base)
    (hp : host.reply? args = some reply) :
    ∃ t, Settles (fun fuel => call env fuel depth f) s (.ok reply.value, t) ∧
      t.globals = s.globals ∧ t.locals = s.locals ∧
      t.printed = reply.line.toList ++ s.printed ∧ t.stack.live = base := by
  obtain ⟨t, ht, hk, hl⟩ := run_popMany hs
  have eq : (fun fuel => call env fuel depth f) =
      later fun _ => popMany f.params.length >>= answer f host :=
    eq_later (by rw [call]) (call_eq_answer hf)
  refine ⟨{ t with printed := reply.line.toList ++ t.printed }, ?_, hk.globals, hk.locals,
    congrArg (reply.line.toList ++ ·) hk.printed, hl⟩
  have replied : (answer f host args).run t =
      (.ok reply.value, { t with printed := reply.line.toList ++ t.printed }) := by
    simp only [answer, hp, hr, if_true, run_bind, run_modify, run_pure]
  rw [eq, hn]
  exact ((Settles.of_run ht).bind (d := fun _ => answer f host) (Settles.of_run replied)).later

theorem call_exhausted (hf : f.code = .defined locals body) (hd : maxDepth ≤ depth)
    (hn : f.params.length = args.length) (hs : s.stack.live = args.reverse ++ base) :
    ∃ t, Settles (fun fuel => call env fuel depth f) s (.error (.trap .callStack), t) ∧
      Keeps s t := by
  obtain ⟨t, ht, hk, -⟩ := run_popMany hs
  have eq : (fun fuel => call env fuel depth f) =
      later fun _ => popMany f.params.length >>= fun _ => stop .callStack :=
    eq_later (by rw [call]) (call_eq_stop hf hd)
  refine ⟨t, ?_, hk⟩
  rw [eq, hn]
  exact ((Settles.of_run ht).bind (Settles.const _ t)).later

theorem leave_settles (hr : f.result = true) (hc : ∀ l, c ≠ .branch l)
    (hs : s.stack.live = v :: top ++ base) :
    ∃ t, (leave f caller base.length c).run s = (.ok v, t) ∧ t.globals = s.globals ∧
      t.locals = caller ∧ t.printed = s.printed ∧ t.stack.live = base := by
  obtain ⟨t, ht, hk, hl⟩ := run_cut hs
  refine ⟨{ t with locals := caller }, ?_, hk.globals, rfl, hk.printed, hl⟩
  have tall : ¬ s.stack.height ≤ base.length := by
    rw [Stack.height, hs, List.length_append, List.length_cons]
    omega
  cases c with
  | branch l => exact absurd rfl (hc l)
  | next | ret =>
    simp only [leave, hr, if_true, run_bind, run_get, hs, List.cons_append, height, run_pure,
      if_neg tall, ht, run_modify]

theorem leave_settles_empty (hr : f.result = false) (hs : s.stack.live = base) :
    ∃ t, (leave f caller base.length .next).run s = (.ok 0, t) ∧ t.globals = s.globals ∧
      t.printed = s.printed := by
  have nothing : s.stack.live = [] ++ base := hs
  obtain ⟨t, ht, hk, -⟩ := run_cut nothing
  refine ⟨{ t with locals := caller }, ?_, hk.globals, hk.printed⟩
  simp only [leave, hr, Bool.false_eq_true, if_false, run_bind, run_pure, ht, run_modify]

end calls

end Machine
end WordScript
