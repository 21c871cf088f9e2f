import WordScript.Command

/-! The command line on the files of the system. -/
namespace WordScript

def FileCause.ofError : IO.Error → FileCause
  | .noFileOrDirectory .. => .missing
  | .inappropriateType _ _ details =>
    if details.toLower == FileCause.isDirectory.message then .isDirectory else .notDirectory
  | e => .other (toString e)

def guarded {α : Type} (operation path : String) (action : IO α) : IO (Except FileError α) := do
  match ← action.toBaseIO with
  | .ok a => return .ok a
  | .error e => return .error ⟨operation, path, .ofError e⟩

def readFile (path : String) : IO (Except FileError Bytes) := do
  match ← guarded "open" path (IO.FS.readBinFile path) with
  | .ok content => return .ok content.toList
  | .error e =>
    return .error (if e.cause = .isDirectory then { e with operation := "read" } else e)

def metadata (path : String) : IO IO.FS.Metadata := do
  ((← IO.currentDir) / path).metadata

def makeOne (path : String) : IO (Except FileError Unit) := do
  match ← (metadata path).toBaseIO with
  | .error _ => guarded "mkdir" path (IO.FS.createDir path)
  | .ok found =>
    match found.type with
    | .dir => return .ok ()
    | _ => return .error ⟨"mkdir", path, .notDirectory⟩

def isThere (path : String) : IO (Except FileError Bool) := do
  match ← guarded "stat" path (metadata path) with
  | .ok _ => return .ok true
  | .error e => return if e.cause = .missing then .ok false else .error e

def secondsText (ms : Nat) : String :=
  let digits := toString (ms % 1000)
  "(" ++ toString (ms / 1000) ++ "." ++ String.ofList (List.replicate (3 - digits.length) '0')
    ++ digits ++ "s)"

/-- The operations on the files of the system; `clock` has the time that was last asked for. -/
def systemWorld (clock : IO.Ref Nat) : World IO where
  print text := do
    IO.print text
    (← IO.getStdout).flush
  elapsed := do
    let now ← IO.monoMsNow
    let before ← clock.swap now
    return secondsText (now - before)
  place := return (← IO.currentDir).toString
  read := readFile
  write path content := guarded "open" path (IO.FS.writeBinFile path ⟨content.toArray⟩)
  makeDirectory := makeOne
  isPresent := isThere

end WordScript

def main (args : List String) : IO UInt32 := do
  let clock ← IO.mkRef (← IO.monoMsNow)
  let code ← WordScript.Command.execute (WordScript.systemWorld clock)
    WordScript.Machine.ampleFuel args
  return code.toUInt32
