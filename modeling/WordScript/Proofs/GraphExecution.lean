import Mathlib.Logic.Function.Basic
import Mathlib.Tactic.Common
import WordScript.BlockGraph
import WordScript.Proofs.Evaluation

/-! Running control-flow graphs.

Every activation of a function has results and cells of its own. Instructions run one after the
other, and the end of a block says where to go on. An operation that has no meaning for its
operands stops the run, and so does a value that is not there. Fuel counts the blocks that are
entered along a path. -/
namespace WordScript
namespace BlockGraph

/-- One activation of a function. -/
structure Frame where
  args : List Word
  /-- The words that instructions have yielded, by their numbers. -/
  words : Nat → Option Word
  /-- The bits that comparisons have yielded. -/
  bits : Nat → Option Bool
  /-- The cells that were made. A new one holds nothing. -/
  cells : Nat → Option (Option Word)

def Frame.enter (args : List Word) : Frame :=
  ⟨args, fun _ => none, fun _ => none, fun _ => none⟩

def Frame.value? (frame : Frame) : Operand → Option Word
  | .const v => some v
  | .result id => frame.words id
  | .param i => frame.args[i]?

/-- What running changes. -/
structure State where
  frame : Frame
  globals : String → Option Word
  /-- The printed lines, last first. -/
  printed : List String

/-- How a run stops short of its end. -/
inductive Halt
  | undefined
  | outOfFuel
deriving DecidableEq, Repr

abbrev Run := StateT State (Except Halt)

/-- Sums, differences and products wrap around. Nothing can be divided by zero, and a signed
division whose quotient is out of range has no remainder either. -/
def arith? : WordOp → Word → Word → Option Word
  | .add, a, b => some (a + b)
  | .sub, a, b => some (a - b)
  | .mul, a, b => some (a * b)
  | .and, a, b => some (a &&& b)
  | .or, a, b => some (a ||| b)
  | .xor, a, b => some (a ^^^ b)
  | .div .signed, a, b => if b = 0 ∨ a.Overflows b then none else some (a.sdiv b)
  | .div .unsigned, a, b => if b = 0 then none else some (a.udiv b)
  | .rem .signed, a, b => if b = 0 ∨ a.Overflows b then none else some (a.srem b)
  | .rem .unsigned, a, b => if b = 0 then none else some (a.umod b)
  | _, _, _ => none

def compare? : WordOp → Word → Word → Option Bool
  | .eq, a, b => some (a == b)
  | .ne, a, b => some (a != b)
  | .lt .signed, a, b => some (a.slt b)
  | .lt .unsigned, a, b => some (a.ult b)
  | .le .signed, a, b => some (a.sle b)
  | .le .unsigned, a, b => some (a.ule b)
  | .gt .signed, a, b => some (b.slt a)
  | .gt .unsigned, a, b => some (b.ult a)
  | .ge .signed, a, b => some (b.sle a)
  | .ge .unsigned, a, b => some (b.ule a)
  | _, _, _ => none

section operations

variable {o : WordOp} {a b v : Word}

theorem srem_neg_one (a : Word) : a.srem (-1) = 0 := by
  have zero : (a.srem (-1)).toInt = 0 := by
    simp
  exact BitVec.eq_of_toInt_eq (zero.trans rfl)

theorem arith?_of_applies (h : Meaning.Applies o a b v) (ho : o.isComparison = false) :
    arith? o a b = some v := by
  have value := h.value
  cases o with
  | div mode =>
    cases mode with
    | signed =>
      simp only [WordOp.eval] at value
      split at value
      · cases value
      · split at value
        · cases value
        · rename_i nonzero within
          cases value
          exact if_neg (not_or.2 ⟨nonzero, within⟩)
    | unsigned =>
      simp only [WordOp.eval] at value
      split at value
      · cases value
      · rename_i nonzero
        cases value
        exact if_neg nonzero
  | rem mode =>
    cases mode with
    | signed =>
      have within := h.range rfl
      simp only [WordOp.eval] at value
      split at value
      · cases value
      · rename_i nonzero
        rw [arith?, if_neg (not_or.2 ⟨nonzero, within⟩)]
        split at value
        · rename_i one
          cases value
          rw [one, srem_neg_one]
        · cases value
          rfl
    | unsigned =>
      simp only [WordOp.eval] at value
      split at value
      · cases value
      · rename_i nonzero
        cases value
        exact if_neg nonzero
  | add | sub | mul | and | or | xor =>
    cases value
    rfl
  | eq | ne | lt | le | gt | ge => cases ho

theorem compare?_of_applies (h : Meaning.Applies o a b v) (ho : o.isComparison = true) :
    ∃ bit, compare? o a b = some bit ∧ Word.ofBool bit = v := by
  have value := h.value
  cases o with
  | eq | ne =>
    cases value
    exact ⟨_, rfl, rfl⟩
  | lt mode | gt mode =>
    cases mode <;>
    · cases value
      exact ⟨_, rfl, rfl⟩
  | le mode | ge mode =>
    cases mode with
    | signed =>
      cases value
      exact ⟨_, rfl, by rw [WordOp.below, BitVec.sle_eq_not_slt]⟩
    | unsigned =>
      cases value
      exact ⟨_, rfl, by rw [WordOp.below, BitVec.ule_eq_not_ult]⟩
  | _ => cases ho

end operations

namespace State

def give (s : State) (id : Nat) (v : Word) : State :=
  { s with frame.words := Function.update s.frame.words id (some v) }

def giveBit (s : State) (id : Nat) (b : Bool) : State :=
  { s with frame.bits := Function.update s.frame.bits id (some b) }

def setCell (s : State) (id : Nat) (v : Option Word) : State :=
  { s with frame.cells := Function.update s.frame.cells id (some v) }

def setGlobal (s : State) (x : String) (v : Word) : State :=
  { s with globals := Function.update s.globals x (some v) }

def read? (s : State) : Cell → Option Word
  | .slot id => (s.frame.cells id).join
  | .global x => s.globals x

def write? (s : State) (v : Word) : Cell → Option State
  | .slot id => (s.frame.cells id).map fun _ => s.setCell id (some v)
  | .global x => (s.globals x).map fun _ => s.setGlobal x v

end State

/-- What an instruction other than a call does. -/
def Inst.step? (s : State) : Inst → Option State
  | .alloca id => some (s.setCell id none)
  | .store v cell => do s.write? (← s.frame.value? v) cell
  | .load id cell => return s.give id (← s.read? cell)
  | .arith id op lhs rhs => do
    return s.give id (← arith? op (← s.frame.value? lhs) (← s.frame.value? rhs))
  | .compare id op lhs rhs => do
    return s.giveBit id (← compare? op (← s.frame.value? lhs) (← s.frame.value? rhs))
  | .widen id bit => return s.give id (Word.ofBool (← s.frame.bits bit))
  | .call _ _ _ => none

def demand {α : Type} : Option α → Run α
  | some a => pure a
  | none => throw .undefined

section

variable (call : Symbol → List Word → Run Word)

def inst : Inst → Run Unit
  | .call id callee args => do
    let vs ← demand (args.mapM (← get).frame.value?)
    let v ← call callee vs
    modify (·.give id v)
  | i => do set (← demand (i.step? (← get)))

def insts : List Inst → Run Unit
  | [] => pure ()
  | i :: rest => do
    inst call i
    insts rest

end

def leave (next : Nat → Run (Option Word)) : Option Terminator → Run (Option Word)
  | some (.ret none) => return none
  | some (.ret (some v)) => return some (← demand ((← get).frame.value? v))
  | some (.jump n) => next n
  | some (.branch bit yes no) => do
    next (if ← demand ((← get).frame.bits bit) then yes else no)
  | none => throw .undefined

def Func.block? (f : Func) (n : Nat) : Option Block := f.blocks.find? (·.number = n)

def Module.func? (m : Module) (symbol : Symbol) : Option Func :=
  m.funcs.find? (·.symbol = symbol)

def hostReply? : Symbol → List Word → Option Machine.Reply
  | .outer name, args =>
    (Machine.HostFunc.names.lookup (Machine.keyword name)).bind (·.reply? args)
  | .user _, _ => none

/-- Calls a function. One without blocks is a function of the host. -/
def invoke (m : Module) (enter : Func → Run (Option Word)) (callee : Symbol) (args : List Word) :
    Run Word := do
  let f ← demand (m.func? callee)
  if f.params.length ≠ args.length then throw .undefined
  if f.blocks.isEmpty then
    let reply ← demand (hostReply? callee args)
    modify fun s => { s with printed := reply.line.toList ++ s.printed }
    return reply.value
  else
    let caller := (← get).frame
    modify fun s => { s with frame := .enter args }
    let v ← enter f
    modify fun s => { s with frame := caller }
    demand v

def run (m : Module) : (fuel : Nat) → Func → (block : Nat) → Run (Option Word)
  | 0, _, _ => throw .outOfFuel
  | fuel + 1, f, n => do
    let block ← demand (f.block? n)
    insts (invoke m fun g => run m fuel g 0) block.insts
    leave (run m fuel f) block.term

def Module.initialState (m : Module) : State := ⟨.enter [], fun x => m.globals.lookup x, []⟩

/-- What can be seen of running the start of a module; nothing if the run does not end or has no
meaning. -/
def Module.behaviour? (m : Module) (fuel : Nat) : Option Behaviour := do
  let f ← m.func? (.outer Builtin.startName)
  match run m fuel f 0 m.initialState with
  | .ok (v, s) =>
    if v.isSome = f.result then some ⟨.ok v, s.printed.reverse, s.globals⟩ else none
  | .error _ => none

/-- Of runs over all amounts of fuel, those with enough reach an end. -/
def Reaches {α : Type} (c : Nat → Run α) (s : State) (a : α) (t : State) : Prop :=
  ∃ least, ∀ fuel ≥ least, c fuel s = .ok (a, t)

section reaching

variable {α β : Type} {s t u : State} {a : α} {b : β}

theorem Reaches.const (h : x s = .ok (a, t)) : Reaches (fun _ => x) s a t :=
  ⟨0, fun _ _ => h⟩

theorem Reaches.bind {d : Nat → α → Run β} (h : Reaches c s a t)
    (k : Reaches (fun fuel => d fuel a) t b u) : Reaches (fun fuel => c fuel >>= d fuel) s b u := by
  obtain ⟨l, hl⟩ := h
  obtain ⟨l', hl'⟩ := k
  refine ⟨max l l', fun fuel hf => ?_⟩
  have first := hl fuel (by omega)
  have second := hl' fuel (by omega)
  simp only [Bind.bind, StateT.bind, first]
  exact second

theorem Reaches.demand (h : o = some a) : Reaches (fun _ => demand o) s a s := by
  subst h
  exact .const rfl

end reaching

section rules

variable (m : Module)

/-- Carrying out an instruction with enough fuel leads to a state. -/
def Does (i : Inst) (s t : State) : Prop :=
  Reaches (fun fuel => inst (invoke m fun g => run m fuel g 0) i) s () t

def Replies (callee : Symbol) (args : List Word) (s : State) (v : Word) (t : State) : Prop :=
  Reaches (fun fuel => invoke m (fun g => run m fuel g 0) callee args) s v t

/-- Instructions and the end of a block after them lead out of their function. -/
def Ends (f : Func) (is : List Inst) (term : Option Terminator) (s : State) (v : Option Word)
    (t : State) : Prop :=
  Reaches (fun fuel => insts (invoke m fun g => run m fuel g 0) is >>= fun _ =>
    leave (run m fuel f) term) s v t

variable {m : Module} {f : Func} {i : Inst} {is : List Inst} {term : Option Terminator}
  {s t u : State} {v : Option Word}
variable {block : Block}

theorem Does.step (h : i.step? s = some t) : Does m i s t := by
  have run : ∀ call, inst call i s = .ok ((), t) := by
    intro call
    cases i with
    | call => cases h
    | _ =>
      simp only [inst]
      rw [show (get : Run State) = fun s => .ok (s, s) from rfl]
      simp only [Bind.bind, StateT.bind, Except.bind, h]
      rfl
  exact ⟨0, fun _ _ => run _⟩

theorem Does.call {id : Nat} (hv : args.mapM s.frame.value? = some vs)
    (h : Replies m callee vs s w t) : Does m (.call id callee args) s (t.give id w) :=
  (Reaches.const (x := get) rfl).bind ((Reaches.demand hv).bind (h.bind (.const rfl)))

theorem Ends.nil (h : Reaches (fun fuel => leave (run m fuel f) term) s v t) :
    Ends m f [] term s v t := h

theorem Ends.cons (h : Does m i s t) (k : Ends m f is term t v u) :
    Ends m f (i :: is) term s v u := by
  have assoc : (fun fuel => insts (invoke m fun g => run m fuel g 0) (i :: is) >>= fun _ =>
      leave (run m fuel f) term) = fun fuel => inst (invoke m fun g => run m fuel g 0) i >>=
        fun _ => insts (invoke m fun g => run m fuel g 0) is >>= fun _ =>
          leave (run m fuel f) term := by
    funext fuel
    rw [insts, bind_assoc]
  rw [Ends, assoc]
  exact Reaches.bind h k

section

variable (hb : f.block? n = some block) (h : Ends m f block.insts block.term s v t)
include hb h

theorem Reaches.enter : Reaches (fun fuel => run m fuel f n) s v t := by
  obtain ⟨least, hl⟩ := h
  refine ⟨least + 1, fun fuel hf => ?_⟩
  obtain ⟨k, rfl⟩ : ∃ k, fuel = k + 1 := ⟨fuel - 1, by omega⟩
  have opens : run m (k + 1) f n s = (insts (invoke m fun g => run m k g 0) block.insts >>= fun _ =>
      leave (run m k f) block.term) s := by
    rw [run, hb]
    rfl
  exact opens.trans (hl k (by omega))

theorem Ends.jump : Ends m f [] (some (.jump n)) s v t :=
  .nil (.enter hb h)

end

theorem Ends.branch (hbit : s.frame.bits bit = some b)
    (hb : f.block? (if b then yes else no) = some block) (h : Ends m f block.insts block.term s v t) :
    Ends m f [] (some (.branch bit yes no)) s v t := by
  have enters := Reaches.enter hb h
  have chooses : ∀ fuel, leave (run m fuel f) (some (.branch bit yes no)) s =
      run m fuel f (if b then yes else no) s := by
    intro fuel
    rw [leave, show (get : Run State) = fun s => .ok (s, s) from rfl]
    simp only [Bind.bind, StateT.bind, Except.bind, hbit]
    rfl
  obtain ⟨least, hl⟩ := enters
  exact .nil ⟨least, fun fuel hf => (chooses fuel).trans (hl fuel hf)⟩

theorem Ends.ret (h : s.frame.value? value = some w) :
    Ends m f [] (some (.ret (some value))) s (some w) s :=
  .nil ((Reaches.const (x := get) rfl).bind ((Reaches.demand h).bind (.const rfl)))

theorem Ends.ret_none : Ends m f [] (some (.ret none)) s none s := .nil (.const rfl)

theorem Replies.function (hf : m.func? callee = some f) (hp : f.params.length = args.length)
    (hb : f.block? 0 = some block)
    (h : Ends m f block.insts block.term { s with frame := .enter args } (some w) t) :
    Replies m callee args s w { t with frame := s.frame } := by
  have blocks : f.blocks.isEmpty = false := by
    cases hk : f.blocks with
    | nil => simp [Func.block?, hk] at hb
    | cons => rfl
  have opens : (fun fuel => invoke m (fun g => run m fuel g 0) callee args) = fun fuel =>
      get >>= fun caller => modify (fun s => { s with frame := .enter args }) >>= fun _ =>
        run m fuel f 0 >>= fun v =>
          modify (fun s => { s with frame := caller.frame }) >>= fun _ => demand v := by
    simp only [invoke, hf, demand, pure_bind, hp, ne_eq, blocks]
    rfl
  rw [Replies, opens]
  have enters := Reaches.const (x := get) (s := s) rfl
  exact enters.bind ((Reaches.const rfl).bind ((Reaches.enter hb h).bind
    ((Reaches.const rfl).bind (.demand rfl))))

theorem Replies.host (hf : m.func? callee = some f) (hp : f.params.length = args.length)
    (hb : f.blocks = []) (hr : hostReply? callee args = some reply) :
    Replies m callee args s reply.value
      { s with printed := reply.line.toList ++ s.printed } := by
  refine ⟨0, fun fuel _ => ?_⟩
  simp only [invoke, hf, demand, pure_bind, hp, ne_eq, hb, hr]
  rfl

end rules

end BlockGraph
end WordScript
