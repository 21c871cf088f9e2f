/-! Paths of files: names with slashes between them. -/
namespace WordScript
namespace Path

def isAbsolute (path : String) : Bool := path.toList.head? == some '/'

def parts (path : String) : List String := path.splitOn "/"

/-- The path itself, and before it its beginnings that end before a slash. -/
def beginnings (path : String) : List String :=
  let names := parts path
  ((List.range names.length).map fun i => "/".intercalate (names.take (i + 1))).filter (· ≠ "")

/-- Adds a part to the parts of a simple path, given last first. A part `..` takes the one before
away; at the root it does nothing. -/
def addPart (rooted : Bool) (done : List String) (part : String) : List String :=
  if part = "" ∨ part = "." then done
  else if part = ".." then
    match done with
    | [] => if rooted then [] else [".."]
    | last :: before => if last = ".." then ".." :: done else before
  else part :: done

def clean (path : String) : String :=
  let simple := ((parts path).foldl (addPart (isAbsolute path)) []).reverse
  if isAbsolute path then "/" ++ "/".intercalate simple
  else if simple.isEmpty then "."
  else "/".intercalate simple

def join (base path : String) : String :=
  if base = "" then if path = "" then "" else clean path else clean (base ++ "/" ++ path)

/-- The characters up to and with the last slash, and those after it. -/
def splitLast (path : String) : List Char × List Char :=
  let name := (path.toList.reverse.takeWhile (· ≠ '/')).reverse
  (path.toList.take (path.length - name.length), name)

def dir (path : String) : String := clean (String.ofList (splitLast path).1)

def extension (path : String) : String :=
  let name := (splitLast path).2
  let after := name.reverse.takeWhile (· ≠ '.')
  if after.length = name.length then "" else String.ofList ('.' :: after.reverse)

def absolute (place path : String) : String :=
  if isAbsolute path then clean path else join place path

def dropEnd (path ending : String) : String :=
  if path.endsWith ending then String.ofList (path.toList.take (path.length - ending.length))
  else path

end Path
end WordScript
