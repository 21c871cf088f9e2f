import WordScript.Text.Path
import WordScript.Text.Utf8

/-! What a command needs from its surroundings: files, and a place to write to. -/
namespace WordScript

/-- Why a file cannot be used. -/
inductive FileCause
  | missing
  | notDirectory
  | isDirectory
  | other (text : String)
deriving DecidableEq, Repr

def FileCause.message : FileCause → String
  | .missing => "no such file or directory"
  | .notDirectory => "not a directory"
  | .isDirectory => "is a directory"
  | .other text => text

/-- An operation on a path that failed. -/
structure FileError where
  operation : String
  path : String
  cause : FileCause
deriving DecidableEq, Repr

def FileError.message (e : FileError) : String :=
  e.operation ++ " " ++ e.path ++ ": " ++ e.cause.message

/-- The operations on files and the output, in a monad of one's choice. -/
structure World (m : Type → Type) where
  print : String → m Unit
  /-- The time since this was last asked, as it is shown. -/
  elapsed : m String
  /-- The place that paths are relative to. -/
  place : m String
  read : String → m (Except FileError Bytes)
  write : String → Bytes → m (Except FileError Unit)
  /-- Makes a directory in one that is there. It may be there itself. -/
  makeDirectory : String → m (Except FileError Unit)
  /-- Whether there is something at a path. -/
  isPresent : String → m (Except FileError Bool)

namespace World

variable {m : Type → Type} [Monad m]

/-- Makes directories one after the other, up to the first that cannot be made. -/
def makeEach (w : World m) : List String → m (Except FileError Unit)
  | [] => return .ok ()
  | path :: rest => do
    match ← w.makeDirectory path with
    | .ok () => w.makeEach rest
    | .error e => return .error e

def makeDirectories (w : World m) (path : String) : m (Except FileError Unit) :=
  w.makeEach (Path.beginnings path)

end World
end WordScript
