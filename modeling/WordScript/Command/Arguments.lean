/-! The arguments of the command line.

They are read from left to right. One with a value sets an option, one without a value a flag;
other words name the command, or are what the command works on. -/
namespace WordScript
namespace Command

/-- A flag or an option. An option takes any value unless it lists its values. -/
structure Setting where
  name : String
  short : String
  values : List String
deriving DecidableEq, Repr

inductive Name
  | build | check | run | init | version
deriving DecidableEq, Repr

def Name.all : List Name := [.build, .check, .run, .init, .version]

def Name.word : Name → String
  | .build => "build"
  | .check => "check"
  | .run => "run"
  | .init => "init"
  | .version => "version"

def Name.ofWord? (word : String) : Option Name := all.find? (·.word == word)

/-- What a command works on: its name, and whether it has to be given. -/
structure Operand where
  name : String
  required : Bool
deriving DecidableEq, Repr

def Name.operand? : Name → Option Operand
  | .build | .check | .run => some ⟨"src-path", true⟩
  | .init => some ⟨"dir", false⟩
  | .version => none

def target : Setting := ⟨"target", "t", ["wat", "llvm"]⟩

def arithmetic : Setting := ⟨"arithmetic", "a", ["signed", "unsigned"]⟩

def output : Setting := ⟨"output", "o", []⟩

def logLevel : Setting := ⟨"loglevel", "ll", ["silent", "error", "warn", "verbose"]⟩

def dump : Setting := ⟨"dump", "d", []⟩

def help : Setting := ⟨"help", "h", []⟩

/-- The options of a command, and after them those of every command. -/
def options : Option Name → List Setting
  | some .build => [output, target, arithmetic, logLevel]
  | some .run => [arithmetic, logLevel]
  | _ => [logLevel]

def flags : Option Name → List Setting
  | some .check => [dump, help]
  | _ => [help]

/-- What is wrong with the arguments. -/
inductive ArgumentError
  | unknownFlag (name : String) (isShort : Bool)
  | unknownOption (name : String) (isShort : Bool)
  | repeatedFlag (name : String)
  | repeatedOption (name : String)
  | badValue (value name : String)
  | manyOperands (command : String)
  | unknownCommand (word : String)
  | unexpectedCommand (word : String)
  | noCommand
  | noOperand (command operand : String)
deriving DecidableEq, Repr

def nameKind (isShort : Bool) : String := if isShort then " by short name" else ""

def ArgumentError.message : ArgumentError → String
  | .unknownFlag n isShort => "unknown flag" ++ nameKind isShort ++ ": `" ++ n ++ "`"
  | .unknownOption n isShort => "unknown argument" ++ nameKind isShort ++ ": `" ++ n ++ "`"
  | .repeatedFlag n => "flag `" ++ n ++ "` set multiple times"
  | .repeatedOption n => "argument `" ++ n ++ "` set multiple times"
  | .badValue v n => "`" ++ v ++ "` is not a valid value for argument [" ++ n ++ "]"
  | .manyOperands c => "multiple primary arguments specified for command `" ++ c ++ "`"
  | .unknownCommand w => "unknown subcommand: `" ++ w ++ "`"
  | .unexpectedCommand w => "unexpected subcommand: `" ++ w ++ "`"
  | .noCommand => "`snek` requires a subcommand"
  | .noOperand c o =>
    "missing required primary argument `" ++ c ++ "` for subcommand `" ++ o ++ "`"

/-- The arguments read so far. -/
structure Arguments where
  command : Option Name
  operand : Option String
  options : List (String × String)
  flags : List String
deriving DecidableEq, Repr

namespace Arguments

def empty : Arguments := ⟨none, none, [], []⟩

/-- Whether anything but a command has been read. After that no command may follow. -/
def isStarted (a : Arguments) : Bool :=
  a.operand.isSome || !a.options.isEmpty || !a.flags.isEmpty

def option? (a : Arguments) (s : Setting) : Option String := a.options.lookup s.name

def hasFlag (a : Arguments) (s : Setting) : Bool := a.flags.contains s.name

def find? (settings : List Setting) (name : String) (isShort : Bool) : Option Setting :=
  settings.find? fun s => (if isShort then s.short else s.name) == name

def setOption (a : Arguments) (name value : String) (isShort : Bool) :
    Except ArgumentError Arguments :=
  match find? (Command.options a.command) name isShort with
  | none => .error (.unknownOption name isShort)
  | some s =>
    if (a.option? s).isSome then .error (.repeatedOption s.name)
    else if !s.values.isEmpty && !s.values.contains value then .error (.badValue value s.name)
    else .ok { a with options := a.options ++ [(s.name, value)] }

def setFlag (a : Arguments) (name : String) (isShort : Bool) : Except ArgumentError Arguments :=
  match find? (Command.flags a.command) name isShort with
  | none => .error (.unknownFlag name isShort)
  | some s =>
    if a.hasFlag s then .error (.repeatedFlag s.name)
    else .ok { a with flags := a.flags ++ [s.name] }

def setWord (a : Arguments) (word : String) : Except ArgumentError Arguments :=
  match a.command.bind Name.operand? with
  | some _ =>
    if a.operand.isSome then
      .error (.manyOperands ((a.command.map Name.word).getD ""))
    else .ok { a with operand := some word }
  | none =>
    if a.isStarted then .error (.unexpectedCommand word)
    else
      match a.command, Name.ofWord? word with
      | none, some c => .ok { a with command := some c }
      | _, _ => .error (.unknownCommand word)

def add (a : Arguments) (arg : String) : Except ArgumentError Arguments :=
  let cs := arg.toList
  if cs.head? = some '-' then
    let isShort := !(['-', '-'].isPrefixOf cs)
    let body := cs.dropWhile (· = '-')
    let name := String.ofList (body.takeWhile (· ≠ '='))
    let value := String.ofList ((body.dropWhile (· ≠ '=')).drop 1)
    if value = "" then a.setFlag name isShort else a.setOption name value isShort
  else a.setWord arg

def addAll : Arguments → List String → Except ArgumentError Arguments
  | a, [] => .ok a
  | a, arg :: rest => do addAll (← a.add arg) rest

end Arguments

/-- What the arguments ask for. -/
inductive Request
  | usage
  | command (name : Name) (a : Arguments)
deriving DecidableEq, Repr

namespace Arguments

def complete (a : Arguments) : Except ArgumentError Request :=
  if a.hasFlag help then .ok .usage
  else
    match a.command with
    | none => .error .noCommand
    | some c =>
      match c.operand? with
      | some o =>
        if o.required && a.operand.isNone then .error (.noOperand c.word o.name)
        else .ok (.command c a)
      | none => .ok (.command c a)

def read (args : List String) : Except ArgumentError Request := do
  (← addAll .empty args).complete

end Arguments
end Command
end WordScript
