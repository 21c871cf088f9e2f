import WordScript.Pipeline
import WordScript.Profile.Document
import WordScript.Report
import WordScript.Text.Path
import WordScript.World

/-! Profiles: the settings that a directory keeps for the programs in it. -/
namespace WordScript

/-- The settings of a compilation. -/
structure Profile where
  target : Target
  /-- Where the output goes; empty if that follows from the source. -/
  output : String
  mode : Arithmetic
  level : LogLevel
deriving DecidableEq, Repr

namespace Profile

def fileName : String := "snek.toml"

def default : Profile := ⟨.wat, "", .signed, .verbose⟩

def defaultText : String :=
  "\n[build]\n  arithmetic = \"signed\"\n  loglevel = \"verbose\"\n  target = \"wat\"\n"

/-- Why there are no settings. -/
inductive LoadError
  | reading (path : String) (e : FileError)
  | parsing (path : String)
  | target (path name : String)
  | mode (path name : String)
  | level (path name : String)

def invalid (path : String) (problem name : String) : String :=
  "invalid profile file at `" ++ path ++ "`: unknown " ++ problem ++ ": `" ++ name ++ "`"

def LoadError.message : LoadError → String
  | .reading path e => "error reading profile file at `" ++ path ++ "`: " ++ e.message
  | .parsing path => "error parsing profile file at `" ++ path ++ "`"
  | .target path name => invalid path "target" name
  | .mode path name => invalid path "arithmetic mode" name
  | .level path name => invalid path "log level" name

/-- What stands under a key, which may also be written in capitals. -/
def setting (t : Document.Table) (key : String) : Option Document.Value :=
  (t.find? key).or (t.find? key.toUpper)

/-- A setting that has to be a text; it is empty if it is not there. -/
def textSetting (t : Document.Table) (key : String) : Option String :=
  match setting t key with
  | none => some ""
  | some (.text s) => some s
  | some _ => none

/-- The settings as they are written. -/
structure Written where
  target : String
  output : String
  mode : String
  level : String

def writtenIn (t : Document.Table) : Option Written := do
  return ⟨← textSetting t "target", ← textSetting t "output", ← textSetting t "arithmetic",
    ← textSetting t "loglevel"⟩

/-- The settings in a document; there are none without its table. -/
def written (root : Document.Table) : Option (Option Written) :=
  match setting root "build" with
  | none => some none
  | some (.table t) => (writtenIn t).map some
  | some _ => none

/-- Settings by their names. The path of the output is relative to the directory. -/
def ofWritten (dir path : String) (w : Written) : Except LoadError Profile :=
  match Target.ofName? w.target, Arithmetic.ofName? w.mode, LogLevel.ofName? w.level with
  | none, _, _ => .error (.target path w.target)
  | _, none, _ => .error (.mode path w.mode)
  | _, _, none => .error (.level path w.level)
  | some target, some mode, some level =>
    let output :=
      if w.output = "" ∨ Path.isAbsolute w.output then w.output else Path.join dir w.output
    .ok ⟨target, output, mode, level⟩

def ofText (dir path : String) (text : Bytes) : Except LoadError Profile :=
  match (Document.read? (Utf8.decode text)).bind written with
  | none => .error (.parsing path)
  | some none => .ok default
  | some (some w) => ofWritten dir path w

def load {m : Type → Type} [Monad m] (w : World m) (dir : String) : m (Except LoadError Profile) := do
  let path := Path.join dir fileName
  match ← w.read path with
  | .ok text => return ofText dir path text
  | .error e => return if e.cause = .missing then .ok default else .error (.reading path e)

/-- Why no file was made. -/
inductive InitError
  | present
  | checking (e : FileError)
  | creating (e : FileError)

def InitError.message : InitError → String
  | .present => "profile file already exists"
  | .checking e => "profile file error: " ++ e.message
  | .creating e => "error creating profile file: " ++ e.message

def init {m : Type → Type} [Monad m] (w : World m) (dir : String) : m (Except InitError Unit) := do
  let path := Path.join dir fileName
  match ← w.isPresent path with
  | .ok true => return .error .present
  | .error e => return .error (.checking e)
  | .ok false =>
    match ← w.write path (Utf8.encode defaultText) with
    | .ok () => return .ok ()
    | .error e => return .error (.creating e)

end Profile
end WordScript
