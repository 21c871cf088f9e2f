import WordScript.BlockGraph.Lowering
import WordScript.BlockGraph.Text
import WordScript.Machine
import WordScript.Program.Builder
import WordScript.StackCode.Lowering
import WordScript.StackCode.Text
import WordScript.Tree.Parser
import WordScript.Typing

/-! Compiling a source from end to end.

The stages run in order and the first error ends the compilation. -/
namespace WordScript

/-- The formats of the output. -/
inductive Target
  | wat | llvm
deriving DecidableEq, Repr

def Target.ofName? : String → Option Target
  | "" | "wat" => some .wat
  | "llvm" => some .llvm
  | _ => none

def Target.name : Target → String
  | .wat => "wat"
  | .llvm => "llvm"

def Target.extension : Target → String
  | .wat => ".wat"
  | .llvm => ".ll"

def Stage.title : Stage → String
  | .reading => "Parsing"
  | .building => "Building"
  | .checking => "Checking"
  | .generating => "Generating"

/-- Why a compilation has no output. Only a tree that comes from elsewhere makes it crash. -/
inductive Failure
  | diagnostic (d : Diagnostic)
  | crash
deriving DecidableEq, Repr

def Stop.failure {ε : Type} (stage : Stage) (message : ε → String) : Stop ε → Failure
  | .fault span cause => .diagnostic ⟨stage, message cause, some span⟩
  | .crash => .crash

/-- A stage that has ended, and whether it ended well. -/
structure Ended where
  stage : Stage
  success : Bool
deriving DecidableEq, Repr

/-- A compilation notes the stages that have ended, in order. -/
abbrev Compilation := ExceptT Failure (StateM (List Ended))

namespace Compilation

def stage {α : Type} (s : Stage) (result : Except Failure α) : Compilation α := do
  modify (· ++ [⟨s, result.isOk⟩])
  match result with
  | .ok a => return a
  | .error e => throw e

def outcome {α : Type} (c : Compilation α) : Except Failure α × List Ended := c.run.run []

end Compilation

def SyntaxError.diagnostic (e : SyntaxError) : Diagnostic :=
  ⟨.reading, e.problem.message, some e.span⟩

def analyze (source : Bytes) : Compilation Program := do
  let tree ← .stage .reading ((Tree.parse source).mapError (.diagnostic ·.diagnostic))
  let program ← .stage .building
    ((Program.ofTree tree).mapError (Stop.failure .building BuildProblem.message))
  .stage .checking (program.check.mapError (Stop.failure .checking TypeProblem.message))

def Program.render (target : Target) (mode : Arithmetic) (p : Program) :
    Except (Stop GenerateProblem) String :=
  match target with
  | .wat => do return (← p.toStackCode mode).render
  | .llvm => do return (← p.toBlockGraph mode).render

def compile (target : Target) (mode : Arithmetic) (source : Bytes) : Compilation String := do
  let program ← analyze source
  .stage .generating ((program.render target mode).mapError
    (Stop.failure .generating GenerateProblem.message))

/-- Why running a source has no result. -/
inductive RunFailure
  | compile (f : Failure)
  | run (e : Machine.RunError)

/-- The end of a run: its result if the last statement is an expression, what was printed, and
the stages of the compilation. -/
structure RunReport where
  outcome : Except RunFailure (Option Word)
  printed : List String
  stages : List Ended

def runSource (fuel : Nat) (budget : Option Nat) (mode : Arithmetic) (source : Bytes) :
    RunReport :=
  match (compile .wat mode source).outcome with
  | (.error f, stages) => ⟨.error (.compile f), [], stages⟩
  | (.ok text, stages) =>
    let (outcome, printed) := Machine.run fuel budget (Utf8.encode text) Builtin.startName
    ⟨outcome.mapError .run, printed, stages⟩

end WordScript
