import WordScript.World

/-! A world in memory, to try commands in. -/
namespace WordScript

inductive Entry
  | directory
  | file (content : Bytes)
deriving DecidableEq, Repr

/-- Files and directories by the names on the way from the root. The root is always there. -/
structure Memory where
  place : List String
  entries : List (List String × Entry)
  printed : String
  /-- What is shown for every time. -/
  time : String

namespace Memory

def find? (m : Memory) (names : List String) : Option Entry :=
  if names.isEmpty then some .directory else m.entries.lookup names

def put (m : Memory) (names : List String) (e : Entry) : Memory :=
  { m with entries := m.entries.filter (·.1 != names) ++ [(names, e)] }

/-- Follows the parts of a path. What they are followed from has to be a directory. -/
def follow (m : Memory) : List String → List String → Except FileCause (List String)
  | here, [] => .ok here
  | here, part :: rest =>
    match m.find? here with
    | none => .error .missing
    | some (.file _) => .error .notDirectory
    | some .directory =>
      if part = "" ∨ part = "." then m.follow here rest
      else if part = ".." then m.follow here.dropLast rest
      else m.follow (here ++ [part]) rest

def resolve (m : Memory) (path : String) : Except FileCause (List String) :=
  m.follow (if Path.isAbsolute path then [] else m.place) (Path.parts path)

def fail (operation path : String) (cause : FileCause) : Except FileError Unit :=
  .error ⟨operation, path, cause⟩

def read (m : Memory) (path : String) : Except FileError Bytes :=
  match m.resolve path with
  | .error cause => .error ⟨"open", path, cause⟩
  | .ok there =>
    match m.find? there with
    | none => .error ⟨"open", path, .missing⟩
    | some .directory => .error ⟨"read", path, .isDirectory⟩
    | some (.file content) => .ok content

def write (m : Memory) (path : String) (content : Bytes) : Except FileError Unit × Memory :=
  match m.resolve path with
  | .error cause => (fail "open" path cause, m)
  | .ok there =>
    match m.find? there, m.find? there.dropLast with
    | some .directory, _ => (fail "open" path .isDirectory, m)
    | _, some .directory => (.ok (), m.put there (.file content))
    | _, some (.file _) => (fail "open" path .notDirectory, m)
    | _, none => (fail "open" path .missing, m)

def isPresent (m : Memory) (path : String) : Except FileError Bool :=
  match m.resolve path with
  | .error .missing => .ok false
  | .error cause => .error ⟨"stat", path, cause⟩
  | .ok there => .ok (m.find? there).isSome

def makeDirectory (m : Memory) (path : String) : Except FileError Unit × Memory :=
  match m.resolve path with
  | .error cause => (fail "mkdir" path cause, m)
  | .ok there =>
    match m.find? there with
    | some .directory => (.ok (), m)
    | some (.file _) => (fail "mkdir" path .notDirectory, m)
    | none => (.ok (), m.put there .directory)

def world : World (StateM Memory) where
  print text := modify fun m => { m with printed := m.printed ++ text }
  elapsed := return (← get).time
  place := return "/" ++ "/".intercalate (← get).place
  read path := return (← get).read path
  write path content := modifyGet fun m => m.write path content
  makeDirectory path := modifyGet fun m => m.makeDirectory path
  isPresent path := return (← get).isPresent path

end Memory
end WordScript
