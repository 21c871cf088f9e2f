/-! Places in a source text. Lines and columns count from zero. -/
namespace WordScript

structure Pos where
  line : Nat
  col : Nat
deriving DecidableEq, Repr, Inhabited

/-- The place after reading one more character: a newline starts a line, a tab is four columns
wide and every other character one. -/
def Pos.after (p : Pos) (c : Char) : Pos :=
  if c = '\n' then ⟨p.line + 1, 0⟩
  else if c = '\t' then ⟨p.line, p.col + 4⟩
  else ⟨p.line, p.col + 1⟩

def Pos.ofChars (cs : List Char) : Pos := cs.foldl Pos.after ⟨0, 0⟩

/-- From the first selected character to just past the last one. -/
structure Span where
  start : Pos
  stop : Pos
deriving DecidableEq, Repr, Inhabited

def Span.over (a b : Span) : Span := ⟨a.start, b.stop⟩

def Span.display (s : Span) : String := s!"{s.start.line + 1}:{s.start.col + 1}"

end WordScript
