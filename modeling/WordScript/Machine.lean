import WordScript.Machine.Exec

/-! Instances of modules, and running them. -/
namespace WordScript
namespace Machine

/-- A module with its imports resolved and its globals set. -/
structure Instance where
  funcs : List (Func HostFunc)
  exports : List (Bytes × Func HostFunc)
  globals : List Global

/-- Why a module cannot be instantiated. -/
inductive LinkError
  | unresolved (i : Import)
  | duplicateGlobal (name : Bytes)
deriving DecidableEq, Repr

def LinkError.message : LinkError → String
  | .unresolved i => "unresolved import: " ++ Utf8.decode i.source ++ "." ++ Utf8.decode i.name
  | .duplicateGlobal n => "duplicate global: " ++ Utf8.decode n

def Func.link (f : Func Import) : Except LinkError (Func HostFunc) :=
  match f.code with
  | .defined locals body => .ok ⟨f.name, f.params, f.result, .defined locals body⟩
  | .imported i =>
    match HostFunc.find? i with
    | some host => .ok ⟨f.name, f.params, f.result, .imported host⟩
    | none => .error (.unresolved i)

def linkAll : List (Func Import) → Except LinkError (List (Func HostFunc))
  | [] => .ok []
  | f :: rest => do
    let f ← f.link
    return f :: (← linkAll rest)

def linkExports : List (Bytes × Func Import) → Except LinkError (List (Bytes × Func HostFunc))
  | [] => .ok []
  | (n, f) :: rest => do
    let f ← f.link
    return (n, f) :: (← linkExports rest)

def duplicateGlobal? (seen : List Bytes) : List Global → Option Bytes
  | [] => none
  | g :: rest =>
    if seen.contains g.name then some g.name else duplicateGlobal? (g.name :: seen) rest

def Image.instantiate (m : Image) : Except LinkError Instance := do
  let funcs ← linkAll m.funcs
  match duplicateGlobal? [] m.globals with
  | some n => .error (.duplicateGlobal n)
  | none => return ⟨funcs, ← linkExports m.exports, m.globals⟩

/-- Why a call from outside has no result. -/
inductive InvokeError
  | noExport (name : Bytes)
  | arity (name : Bytes) (wanted given : Nat)
  | halt (h : Halt)

def InvokeError.message : InvokeError → String
  | .noExport n => "no export named `" ++ Utf8.decode n ++ "`"
  | .arity n wanted given =>
    "`" ++ Utf8.decode n ++ "` expects " ++ toString wanted ++ " arguments, got " ++ toString given
  | .halt h => h.message

/-- The end of a call from outside: its result if the function has one, the printed lines, and
the instance as the call left it. -/
structure Invocation where
  outcome : Except InvokeError (Option Word)
  printed : List String
  inst : Instance

namespace Instance

def global? (inst : Instance) (name : Bytes) : Option Word :=
  (inst.globals.find? (·.name == 36 :: name)).map (·.value)

/-- Calls an exported function. With a budget `n`, execution is cancelled when it asks for the
time after `n` whether to go on. -/
def invoke (inst : Instance) (fuel : Nat) (budget : Option Nat) (name : Bytes) (args : List Word) :
    Invocation :=
  match inst.exports.lookup name with
  | none => ⟨.error (.noExport name), [], inst⟩
  | some f =>
    if args.length ≠ f.params.length then
      ⟨.error (.arity name f.params.length args.length), [], inst⟩
    else
      let state : State := ⟨inst.globals, ⟨args.reverse, []⟩, [], [], 0⟩
      let (result, state) := (call ⟨inst.funcs, budget⟩ fuel 0 f).run state
      let outcome := match result with
        | .ok v => .ok (if f.result then some v else none)
        | .error h => .error (.halt h)
      ⟨outcome, state.printed.reverse, { inst with globals := state.globals }⟩

end Instance

/-- A depth that no run reaches before the one that asked for it is gone. -/
def ampleFuel : Nat := 4611686018427387904

/-- Why running a module text has no result. -/
inductive RunError
  | load (e : LoadError)
  | link (e : LinkError)
  | invoke (e : InvokeError)

/-- Loads a module, instantiates it, and calls one of its exports without arguments. -/
def run (fuel : Nat) (budget : Option Nat) (text : Bytes) (name : String) :
    Except RunError (Option Word) × List String :=
  match Image.load text with
  | .error e => (.error (.load e), [])
  | .ok image =>
    match image.instantiate with
    | .error e => (.error (.link e), [])
    | .ok inst =>
      let i := inst.invoke fuel budget (Utf8.encode name) []
      (i.outcome.mapError .invoke, i.printed)

end Machine
end WordScript
