import WordScript.Diagnostic.Display
import WordScript.Text.Template

/-! What the command line tells its user. -/
namespace WordScript

/-- How much is told: nothing, errors, warnings too, or everything. -/
inductive LogLevel
  | silent | error | warn | verbose
deriving DecidableEq, Repr

def LogLevel.ofName? : String → Option LogLevel
  | "silent" => some .silent
  | "error" => some .error
  | "warn" => some .warn
  | "verbose" | "" => some .verbose
  | _ => none

/-- What has been reported. -/
structure Reporter where
  level : LogLevel
  /-- Whether an error has been reported. -/
  failed : Bool
deriving DecidableEq, Repr

namespace Report

def version : String := "0.1.0"

def info (tag message : String) : String := tag ++ " " ++ message ++ "\n"

def error (path message : String) : String := path ++ ": error " ++ message ++ "\n"

/-- The message of an error in the compiler itself; it is shown at every level. -/
def internal (message : String) (args : List String) : String :=
  "\nInternal Compiler Error " ++ Template.render message args ++ "\n"
    ++ "This error was not supposed to happen: this is a bug in snek.\n"

def fatalCode : Nat := 1

def internalCode : Nat := 255

end Report

namespace Reporter

def start (level : LogLevel) : Reporter := ⟨level, false⟩

def unlessSilent (r : Reporter) (text : String) : String :=
  if r.level = .silent then "" else text

def ifVerbose (r : Reporter) (text : String) : String :=
  if r.level = .verbose then text else ""

def diagnostic (r : Reporter) (path : String) (source : Bytes) (d : Diagnostic) :
    Reporter × String :=
  ({ r with failed := true }, r.unlessSilent (d.display path source))

def error (r : Reporter) (path message : String) : Reporter × String :=
  ({ r with failed := true }, r.unlessSilent (Report.error path message))

def fatal (r : Reporter) (message : String) (args : List String) : String :=
  r.unlessSilent ("Fatal Error " ++ Template.render message args ++ "\n")

def header (r : Reporter) (target : String) : String :=
  r.ifVerbose ("snek v" ++ Report.version ++ " -- target: " ++ target ++ "\n")

/-- What is shown after compiling; the path of the output is empty if there is none. -/
def finished (r : Reporter) (path : String) : String :=
  r.ifVerbose <|
    if r.failed then "\nOh no! Compilation failed.\n"
    else if path = "" then "\nAll done! \n"
    else "\nAll done! Output written to " ++ path ++ "\n"

end Reporter
end WordScript
