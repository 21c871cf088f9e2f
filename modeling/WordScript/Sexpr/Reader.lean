import WordScript.Sexpr

/-! Reading S-expressions, one byte at a time.

Blanks and comments separate the items: `;;` starts a comment that ends with its line, and a
comment between `(;` and `;)` does not nest. -/
namespace WordScript
namespace Sexpr

/-- What cannot be read, and where it starts. -/
inductive Fault
  | unclosedList (offset : Nat)
  | unopened (offset : Nat)
  | unclosedString (offset : Nat)
  | semicolon (offset : Nat)
  | unclosedComment (offset : Nat)
deriving DecidableEq, Repr

def Fault.message : Fault → String
  | .unclosedList n => "unclosed list opened at offset " ++ toString n
  | .unopened n => "unexpected `)` at offset " ++ toString n
  | .unclosedString n => "unclosed string at offset " ++ toString n
  | .semicolon n => "unexpected `;` at offset " ++ toString n
  | .unclosedComment n => "unclosed block comment at offset " ++ toString n

/-- What the last bytes belong to. The bytes of an atom are kept last first. -/
inductive Mode
  | between
  | word (bytes : Bytes)
  | string (start : Nat) (bytes : Bytes) (escaped : Bool)
  /-- An opening parenthesis, which may yet start a comment. -/
  | paren (start : Nat)
  | semicolon (start : Nat)
  | lineComment
  | blockComment (start : Nat) (afterSemicolon : Bool)
deriving DecidableEq, Repr

/-- The reading of the first `offset` bytes of a text. -/
structure Reader where
  offset : Nat
  mode : Mode
  /-- The items of the innermost open list, or of the text, last first. -/
  items : List Sexpr
  /-- The open lists, innermost first: where each starts, and the items before it. -/
  opened : List (Nat × List Sexpr)

namespace Reader

def start : Reader := ⟨0, .between, [], []⟩

def isBlank (b : UInt8) : Bool := b == 32 || b == 9 || b == 13 || b == 10

/-- Ends a word: blanks, parentheses, the quotation mark and the semicolon. -/
def endsWord (b : UInt8) : Bool := isBlank b || b == 40 || b == 41 || b == 34 || b == 59

def add (r : Reader) (s : Sexpr) : Reader := { r with mode := .between, items := s :: r.items }

def openList (r : Reader) (start : Nat) : Reader :=
  { r with mode := .between, items := [], opened := (start, r.items) :: r.opened }

def closeList (r : Reader) : Except Fault Reader :=
  match r.opened with
  | [] => .error (.unopened r.offset)
  | (_, before) :: rest =>
    .ok { r with mode := .between, items := .list r.items.reverse :: before, opened := rest }

def fresh (r : Reader) (b : UInt8) : Except Fault Reader :=
  if isBlank b then .ok { r with mode := .between }
  else if b == 40 then .ok { r with mode := .paren r.offset }
  else if b == 41 then r.closeList
  else if b == 34 then .ok { r with mode := .string r.offset [b] false }
  else if b == 59 then .ok { r with mode := .semicolon r.offset }
  else .ok { r with mode := .word [b] }

def read (r : Reader) (b : UInt8) : Except Fault Reader :=
  match r.mode with
  | .between => r.fresh b
  | .word bs =>
    if endsWord b then (r.add (.atom bs.reverse)).fresh b else .ok { r with mode := .word (b :: bs) }
  | .string start bs true => .ok { r with mode := .string start (b :: bs) false }
  | .string start bs false =>
    if b == 34 then .ok (r.add (.atom (b :: bs).reverse))
    else .ok { r with mode := .string start (b :: bs) (b == 92) }
  | .paren start =>
    if b == 59 then .ok { r with mode := .blockComment start true } else (r.openList start).fresh b
  | .semicolon start =>
    if b == 59 then .ok { r with mode := .lineComment } else .error (.semicolon start)
  | .lineComment => .ok (if b == 10 then { r with mode := .between } else r)
  | .blockComment start afterSemicolon =>
    if afterSemicolon && b == 41 then .ok { r with mode := .between }
    else .ok { r with mode := .blockComment start (b == 59) }

def step (r : Reader) (b : UInt8) : Except Fault Reader := do
  let r ← r.read b
  return { r with offset := r.offset + 1 }

def readAll : Reader → Bytes → Except Fault Reader
  | r, [] => .ok r
  | r, b :: rest => do readAll (← r.step b) rest

def close (r : Reader) : Except Fault (List Sexpr) :=
  match r.opened with
  | [] => .ok r.items.reverse
  | (start, _) :: _ => .error (.unclosedList start)

def finish (r : Reader) : Except Fault (List Sexpr) :=
  match r.mode with
  | .between | .lineComment => r.close
  | .word bs => (r.add (.atom bs.reverse)).close
  | .string start _ _ => .error (.unclosedString start)
  | .paren start => (r.openList start).close
  | .semicolon start => .error (.semicolon start)
  | .blockComment start _ => .error (.unclosedComment start)

end Reader

def readText (text : Bytes) : Except Fault (List Sexpr) := do (← Reader.start.readAll text).finish

end Sexpr
end WordScript
