import WordScript.Command.Arguments
import WordScript.Profile
import WordScript.Program.Listing

/-! The commands: compile a source, check it, run it, or make a profile. -/
namespace WordScript
namespace Command

/-- A command reports as it goes, and may end early with an exit code. -/
abbrev Action (m : Type → Type) := ExceptT Nat (StateT Reporter m)

section
variable {m : Type → Type} [Monad m]

def lift {α : Type} (x : m α) : Action m α := ExceptT.lift (StateT.lift x)

def say (w : World m) (text : String) : Action m Unit := lift (w.print text)

def fatal {α : Type} (w : World m) (message : String) (args : List String) : Action m α := do
  say w ((← get).fatal message args)
  throw Report.fatalCode

def tell (w : World m) (report : Reporter → Reporter × String) : Action m Unit := do
  let (r, text) := report (← get)
  set r
  say w text

def sourceExtension : String := ".py"

/-- A source, and how it is to be compiled. -/
structure Job where
  /-- The path as it was given. -/
  path : String
  absolutePath : String
  source : Bytes
  profile : Profile

/-- The path of the output: the one asked for, or that of the source with another extension. -/
def Job.output (j : Job) : String :=
  if j.profile.output ≠ "" then j.profile.output
  else Path.dropEnd j.absolutePath sourceExtension ++ j.profile.target.extension

/-- Reads the source that a command is given, and the profile beside it. -/
def loadJob (w : World m) (path : String) : Action m Job := do
  let absolutePath := Path.absolute (← lift w.place) path
  if Path.extension absolutePath ≠ sourceExtension then
    fatal w "source file must have the extension `%s`" [sourceExtension]
  match ← lift (w.read absolutePath) with
  | .error e => fatal w "error reading source file: %s" [e.message]
  | .ok source =>
    match ← lift (Profile.load w (Path.dir absolutePath)) with
    | .error e => fatal w e.message []
    | .ok profile => return ⟨path, absolutePath, source, profile⟩

/-- A job with the settings of the command line, which come before those of the profile. -/
def prepare (w : World m) (a : Arguments) : Action m Job := do
  let job ← loadJob w (a.operand.getD "")
  if (a.option? logLevel).isNone then set (Reporter.start job.profile.level)
  let p := job.profile
  return { job with
    profile := { p with
      target := ((a.option? target).bind Target.ofName?).getD p.target
      mode := ((a.option? arithmetic).bind Arithmetic.ofName?).getD p.mode
      output := (a.option? output).getD p.output } }

/-- Titles of stages are shown at the width of the longest, and two blanks follow. -/
def stageTitle (s : Stage) : String :=
  s.title ++ Display.spaces (Stage.generating.title.length + 2 - s.title.length)

def sayStages (w : World m) : List Ended → Action m Unit
  | [] => pure ()
  | e :: rest => do
    if (← get).level = .verbose then
      if e.success then
        say w (" Done  " ++ stageTitle e.stage)
        say w ((← lift w.elapsed) ++ "\n")
      else say w (" Fail  " ++ stageTitle e.stage ++ "\n")
    sayStages w rest

def sayFailure (w : World m) (job : Job) : Failure → Action m Unit
  | .diagnostic d => tell w fun r => r.diagnostic job.path job.source d
  | .crash => do
    say w (Report.internal "malformed tree" [])
    throw Report.internalCode

def perform {α : Type} (w : World m) (job : Job) (c : Compilation α) : Action m (Option α) := do
  let (outcome, stages) := c.outcome
  sayStages w stages
  match outcome with
  | .ok a => return some a
  | .error f =>
    sayFailure w job f
    return none

def save (w : World m) (path text : String) : Action m Bool := do
  match ← lift (w.makeDirectories (Path.dir path)) with
  | .error e =>
    tell w fun r => r.error path e.message
    return false
  | .ok () =>
    match ← lift (w.write path (Utf8.encode text)) with
    | .error e =>
      tell w fun r => r.error path e.message
      return false
    | .ok () => return true

def build (w : World m) (a : Arguments) : Action m Nat := do
  let job ← prepare w a
  say w ((← get).header job.profile.target.name)
  let saved ← match ← perform w job (compile job.profile.target job.profile.mode job.source) with
    | some text => save w job.output text
    | none => pure false
  say w ((← get).finished (if saved then job.output else ""))
  return if saved then 0 else 1

def check (w : World m) (a : Arguments) : Action m Nat := do
  let job ← prepare w a
  say w ((← get).header "check")
  let program ← perform w job (analyze job.source)
  say w ((← get).finished "")
  match program with
  | none => return 1
  | some p =>
    if a.hasFlag dump then say w (p.listing?.getD "")
    return 0

def runError : Machine.RunError → String
  | .load e => e.message
  | .link e => e.message
  | .invoke e => e.message

def run (w : World m) (fuel : Nat) (a : Arguments) : Action m Nat := do
  let job ← prepare w a
  say w ((← get).header Target.wat.name)
  let r := runSource fuel none job.profile.mode job.source
  sayStages w r.stages
  say w (String.join (r.printed.map (· ++ "\n")))
  match r.outcome with
  | .error (.compile f) =>
    sayFailure w job f
    return 1
  | .error (.run e) =>
    tell w fun r => r.error job.path (runError e)
    return 1
  | .ok v =>
    if let some v := v then
      if (← get).level = .verbose then say w (Report.info "Result" (toString v.toInt))
    return 0

def init (w : World m) (a : Arguments) : Action m Nat := do
  let dir := a.operand.getD "."
  let path := Path.join dir Profile.fileName
  match ← lift (Profile.init w dir) with
  | .error e =>
    tell w fun r => r.error path e.message
    return 1
  | .ok () =>
    say w (Report.info "Profile Created" path)
    return 0

def usage : String :=
  "usage: snek <command> [options]\n"
    ++ "  build <source>   compile a source file\n"
    ++ "  check <source>   check a source file for errors\n"
    ++ "  run <source>     compile and run a source file\n"
    ++ "  init [dir]       create a default profile file\n"
    ++ "  version          print the version\n"

def carryOut (w : World m) (fuel : Nat) (a : Arguments) : Name → Action m Nat
  | .build => build w a
  | .check => check w a
  | .run => run w fuel a
  | .init => init w a
  | .version => do
    say w (Report.info "Snek Version" Report.version)
    return 0

/-- Reads the arguments and does what they ask for. Returns the exit code. -/
def dispatch (w : World m) (fuel : Nat) (args : List String) : Action m Nat := do
  match Arguments.read args with
  | .error e => fatal w e.message []
  | .ok .usage =>
    say w usage
    return 0
  | .ok (.command name a) =>
    set (Reporter.start (((a.option? logLevel).bind LogLevel.ofName?).getD .verbose))
    carryOut w fuel a name

def execute (w : World m) (fuel : Nat) (args : List String) : m Nat := do
  let (result, _) ← (dispatch w fuel args).run.run (Reporter.start .verbose)
  return match result with
    | .ok code => code
    | .error code => code

end
end Command
end WordScript
