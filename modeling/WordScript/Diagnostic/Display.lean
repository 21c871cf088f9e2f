import WordScript.Diagnostic
import WordScript.Text.Utf8

/-! Showing a diagnostic against its source.

The lines of the span are shown with their numbers, without the indentation they share, and each
has a line of carets below it. Lines are cut and measured in bytes, while the columns of a span
count characters: the carets stand exactly below the selected text where that is ASCII. -/
namespace WordScript
namespace Display

/-- The lines of a source; there is always one more than there are newlines. -/
def splitLines : Bytes → List Bytes
  | [] => [[]]
  | b :: rest =>
    match splitLines rest with
    | [] => [[b]]
    | line :: lines => if b = 10 then [] :: line :: lines else (b :: line) :: lines

def trimReturns (line : Bytes) : Bytes := (line.reverse.dropWhile (· = 13)).reverse

def expandTabs (line : Bytes) : Bytes := line.flatMap fun b => if b = 9 then [32, 32, 32, 32] else [b]

def indentation (line : Bytes) : Nat := (line.takeWhile (· = 32)).length

def sharedIndentation : List Bytes → Nat
  | [] => 0
  | [line] => indentation line
  | line :: rest => min (indentation line) (sharedIndentation rest)

def clamp (n lo hi : Nat) : Nat := if n < lo then lo else if hi < n then hi else n

def spaces (n : Nat) : String := String.ofList (List.replicate n ' ')

def padded (width n : Nat) : String := toString n ++ spaces (width - (toString n).length)

/-- What is underlined of a line: where it starts and how far it goes. -/
structure Underline where
  start : Nat
  count : Nat
deriving DecidableEq, Repr

/-- The underlined part of a line, counted from the shared indentation on: it starts at the span
on the first line and ends with the span on the last. At least one caret is shown. -/
def underline (span : Span) (shared length : Nat) (isFirst isLast : Bool) : Underline :=
  let start := if isFirst then clamp span.start.col shared length else shared
  let stop := if isLast then clamp span.stop.col start length else length
  ⟨start - shared, if stop = start then 1 else stop - start⟩

def shownLines (source : Bytes) (span : Span) : List Bytes :=
  (((splitLines source).take (span.stop.line + 1)).drop span.start.line).map
    fun line => expandTabs (trimReturns line)

def lineText (width number shared : Nat) (line : Bytes) (u : Underline) : String :=
  padded width number ++ " | " ++ Utf8.decode (line.drop shared) ++ "\n"
    ++ spaces width ++ " | " ++ spaces u.start
    ++ String.ofList (List.replicate u.count '^') ++ "\n"

def linesText (span : Span) (width shared : Nat) : (i : Nat) → List Bytes → String
  | _, [] => ""
  | i, line :: rest =>
    lineText width (span.start.line + i + 1) shared line
        (underline span shared line.length (i = 0) rest.isEmpty)
      ++ linesText span width shared (i + 1) rest

/-- The source text of a span, underlined. A span past the end of the source shows nothing. -/
def sourceText (source : Bytes) (span : Span) : String :=
  let count := (splitLines source).length
  if count ≤ span.start.line then ""
  else
    let lines := shownLines source span
    let last := min span.stop.line (count - 1)
    linesText span (toString (last + 1)).length (sharedIndentation lines) 0 lines ++ "\n"

end Display

def Diagnostic.display (d : Diagnostic) (path : String) (source : Bytes) : String :=
  match d.span with
  | none => path ++ ": " ++ d.stage.word ++ " error " ++ d.message ++ "\n"
  | some span =>
    path ++ ":" ++ span.display ++ ": " ++ d.stage.word ++ " error " ++ d.message ++ "\n"
      ++ if source.isEmpty then "" else "\n" ++ Display.sourceText source span

end WordScript
