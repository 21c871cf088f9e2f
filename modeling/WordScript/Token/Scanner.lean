import WordScript.Text.Letter
import WordScript.Text.Utf8
import WordScript.Token

/-! Reading a source into tokens.

The scanner measures the indentation of each logical line outside parentheses and queues the
layout tokens it implies. Blank lines, comments and line breaks inside parentheses give no
token. Every piece of the text is first measured in characters, then cut off: the functions
that measure know nothing of offsets, and the one that cuts keeps offset, line and column. -/
namespace WordScript

/-- Why a source is not a sequence of tokens, or its tokens not a program. -/
inductive SyntaxProblem
  | brokenContinuation
  | unmatchedDedent
  | unknownChar (c : Char)
  | badNumber
  | openString
  | unexpected (t : Token)
deriving DecidableEq, Repr

def SyntaxProblem.message : SyntaxProblem → String
  | .brokenContinuation => "unexpected character after line continuation"
  | .unmatchedDedent => "unindent does not match any outer indentation level"
  | .unknownChar c => "unknown character: `" ++ c.toString ++ "`"
  | .badNumber => "invalid numeric literal"
  | .openString => "unclosed string literal"
  | .unexpected t => "unexpected " ++ t.describe

structure SyntaxError where
  span : Span
  problem : SyntaxProblem
deriving DecidableEq, Repr

namespace Scanner

open Utf8 (Scalar)

def isDigit (c : Char) : Bool := '0' ≤ c && c ≤ '9'

def isNameStart (c : Char) : Bool := Letter.isLetter c || c == '_'

def isNameChar (c : Char) : Bool := isNameStart c || isDigit c

def run (p : Char → Bool) (cs : List Char) : Nat := (cs.takeWhile p).length

def isBlank (c : Char) : Bool :=
  c == ' ' || c == '\t' || c == '\r' || c == '\x0c' || c == '\x0b'

def isMargin (c : Char) : Bool := c == ' ' || c == '\t' || c == '\x0c'

/-- What stands before the next token: its length, and whether it ends in a backslash that is
not followed by a line break. -/
structure Gap where
  length : Nat
  broken : Bool
deriving DecidableEq, Repr

def Gap.after (n : Nat) (g : Gap) : Gap := ⟨n + g.length, g.broken⟩

/-- The white space, comments and continuations in front of the next token. Inside parentheses
(`nested`) a line break is white space too. -/
def gap (nested : Bool) : (comment : Bool) → List Char → Gap
  | _, [] => ⟨0, false⟩
  | comment, c :: rest =>
    if c = '\n' then
      if nested then (gap nested false rest).after 1 else ⟨0, false⟩
    else if comment then (gap nested true rest).after 1
    else if isBlank c then (gap nested false rest).after 1
    else if c = '#' then (gap nested true rest).after 1
    else if c = '\\' then
      match rest with
      | '\n' :: rest => (gap nested false rest).after 2
      | '\r' :: '\n' :: rest => (gap nested false rest).after 3
      | '\r' :: _ => ⟨2, true⟩
      | _ => ⟨1, true⟩
    else ⟨0, false⟩

/-- The start of a line: a blank line with its line break, the end of the text, or a line with
something on it, and how far it reaches. -/
inductive Margin
  | blank (length : Nat)
  | ended (length : Nat)
  | text (length : Nat)
deriving DecidableEq, Repr

/-- The length of a line break: carriage returns and at most one newline. -/
def breakLength (cs : List Char) : Nat :=
  run (· == '\r') cs + (if (cs.dropWhile (· == '\r')).head? = some '\n' then 1 else 0)

def margin (cs : List Char) : Margin :=
  let n := run isMargin cs
  match cs.drop n with
  | [] => .ended n
  | c :: rest =>
    if c = '#' then
      let m := run (· != '\n') rest
      .blank (n + 1 + m + breakLength (rest.drop m))
    else if c = '\r' ∨ c = '\n' then .blank (n + breakLength (c :: rest))
    else .text n

/-- The rest of a string literal after its opening quote: its length and whether it is closed.
A backslash takes the next character with it, but not a newline. -/
def stringTail (quote : Char) : List Char → Nat × Bool
  | [] => (0, false)
  | c :: rest =>
    if c = '\n' then (0, false)
    else if c = '\\' then
      match rest with
      | [] => (1, false)
      | d :: rest =>
        if d = '\n' then (1, false)
        else
          let (n, closed) := stringTail quote rest
          (2 + n, closed)
    else if c = quote then (1, true)
    else
      let (n, closed) := stringTail quote rest
      (1 + n, closed)

/-- What starts at the front of a text that starts with no white space. -/
inductive Lexeme
  | token (kind : Token.Kind) (length : Nat)
  | fault (problem : SyntaxProblem) (length : Nat)
deriving DecidableEq, Repr

def numberLexeme (cs : List Char) : Lexeme :=
  let whole := run isDigit cs
  let n :=
    match cs.drop whole with
    | '.' :: rest => whole + 1 + run isDigit rest
    | _ => whole
  match cs.drop n with
  | c :: _ => if isNameStart c then .fault .badNumber (n + 1) else .token .number n
  | [] => .token .number n

def signLexeme (c : Char) (rest : List Char) : Lexeme :=
  match rest.head?.bind (Token.Kind.ofPair? c) with
  | some kind => .token kind 2
  | none =>
    match Token.Kind.ofChar? c with
    | some kind => .token kind 1
    | none => .fault (.unknownChar c) 1

def lexeme (c : Char) (rest : List Char) : Lexeme :=
  if c = '\'' ∨ c = '"' then
    match stringTail c rest with
    | (n, true) => .token .string (1 + n)
    | (n, false) => .fault .openString (1 + n)
  else if isDigit c then numberLexeme (c :: rest)
  else if isNameStart c then
    let n := 1 + run isNameChar rest
    .token (Token.Kind.ofWord (String.ofList ((c :: rest).take n))) n
  else signLexeme c rest

/-- The text still to be read and the place it starts at. -/
structure Reader where
  rest : List Scalar
  offset : Nat
  pos : Pos
deriving DecidableEq, Repr

namespace Reader

def ofBytes (source : Bytes) : Reader := ⟨Utf8.scalars source, 0, ⟨0, 0⟩⟩

def chars (r : Reader) : List Char := r.rest.map (·.char)

def skip : Nat → Reader → Reader
  | 0, r => r
  | n + 1, r =>
    match r.rest with
    | [] => r
    | s :: rest => skip n ⟨rest, r.offset + s.width, r.pos.after s.char⟩

def spanTo (r stop : Reader) : Span := ⟨r.pos, stop.pos⟩

def token (r : Reader) (kind : Token.Kind) (n : Nat) : Token :=
  { kind
    value := String.ofList ((r.rest.take n).map (·.char))
    start := r.offset
    stop := (r.skip n).offset
    span := r.spanTo (r.skip n) }

def layout (r : Reader) (kind : Token.Kind) (n : Nat) : Token :=
  { r.token kind n with value := "" }

end Reader

end Scanner

/-- The state of the scanner. -/
structure Scanner where
  reader : Scanner.Reader
  /-- The columns of the open blocks, innermost first; the last one is 0. -/
  indents : List Nat
  /-- How many parentheses are open. -/
  parens : Nat
  /-- The indentation of the line is still to be measured. -/
  lineStart : Bool
  /-- The last token handed out was a `newline`, or none was. -/
  lineEmpty : Bool
  /-- Tokens read and not yet handed out. -/
  queue : List Token
deriving DecidableEq, Repr

namespace Scanner

def ofBytes (source : Bytes) : Scanner :=
  { reader := .ofBytes source, indents := [0], parens := 0
    lineStart := true, lineEmpty := true, queue := [] }

/-- The tokens that end the text: the line is ended and every block is closed. -/
def finish (s : Scanner) : Scanner :=
  let ending := if s.lineEmpty then [] else [s.reader.layout .newline 0]
  let closing := List.replicate (s.indents.length - 1) (s.reader.layout .dedent 0)
  { s with
    indents := s.indents.drop (s.indents.length - 1)
    queue := s.queue ++ ending ++ closing ++ [s.reader.layout .eof 0] }

def parensAfter (parens : Nat) : Token.Kind → Nat
  | .lparen => parens + 1
  | .rparen => parens - 1
  | _ => parens

def scanLine (s : Scanner) : Except SyntaxError Scanner :=
  let g := gap (0 < s.parens) false s.reader.chars
  let r := s.reader.skip g.length
  if g.broken then .error ⟨r.spanTo r, .brokenContinuation⟩
  else
    match r.chars with
    | [] => .ok { s with reader := r }.finish
    | c :: rest =>
      if c = '\n' then
        let ending := if s.lineEmpty then [] else [r.token .newline 1]
        .ok { s with reader := r.skip 1, lineStart := true, queue := s.queue ++ ending }
      else
        match lexeme c rest with
        | .token kind n =>
          .ok { s with
            reader := r.skip n
            parens := parensAfter s.parens kind
            queue := s.queue ++ [r.token kind n] }
        | .fault problem n => .error ⟨r.spanTo (r.skip n), problem⟩

/-- Queues what a line that starts after `n` characters of margin says about blocks. -/
def indent (s : Scanner) (n : Nat) : Except SyntaxError Scanner :=
  let r := s.reader
  let level := (r.skip n).pos.col
  let s := { s with reader := r.skip n, lineStart := false }
  if s.indents.headD 0 < level then
    .ok { s with indents := level :: s.indents, queue := s.queue ++ [r.layout .indent n] }
  else
    let open' := s.indents.dropWhile (level < ·)
    if open'.headD 0 = level then
      .ok { s with
        indents := open'
        queue := s.queue ++
          List.replicate (s.indents.length - open'.length) (r.layout .dedent n) }
    else .error ⟨r.spanTo (r.skip n), .unmatchedDedent⟩

/-- Reads on by one step: a blank line, a line break or one token with the layout before it.
A step that queues nothing has used up at least one character. -/
def fill (s : Scanner) : Except SyntaxError Scanner :=
  if s.lineStart && s.parens == 0 then
    match margin s.reader.chars with
    | .blank n => .ok { s with reader := s.reader.skip n }
    | .ended n => { s with reader := s.reader.skip n, lineStart := false }.scanLine
    | .text n => s.indent n >>= scanLine
  else s.scanLine

def settle : (fuel : Nat) → Scanner → Except SyntaxError Scanner
  | 0, s => .ok s.finish
  | fuel + 1, s =>
    match s.queue with
    | _ :: _ => .ok s
    | [] => s.fill >>= settle fuel

/-- The next token. At the end of the text this is `eof`, however often it is asked for. -/
def next (s : Scanner) : Except SyntaxError (Token × Scanner) := do
  let s ← s.settle (s.reader.rest.length + 2)
  match s.queue with
  | t :: queue => .ok (t, { s with queue, lineEmpty := t.kind = .newline })
  | [] => .ok (s.reader.layout .eof 0, s)

/-- The tokens up to the first `eof`, the scanner after them, and the error that cut them short. -/
structure Scan where
  tokens : List Token
  fault : Option SyntaxError
  state : Scanner

def scanUpTo : (fuel : Nat) → Scanner → Scan
  | 0, s => ⟨[], none, s⟩
  | fuel + 1, s =>
    match s.next with
    | .error e => ⟨[], some e, s⟩
    | .ok (t, s) =>
      if t.kind = .eof then ⟨[t], none, s⟩
      else
        let scan := scanUpTo fuel s
        { scan with tokens := t :: scan.tokens }

/-- Each character but the last step's gives at most one token of its own and opens at most one
block, and each block is closed once. -/
def scan (source : Bytes) : Scan :=
  let s := ofBytes source
  scanUpTo (3 * s.reader.rest.length + 3) s

def take : Nat → Scanner → Except SyntaxError (List Token)
  | 0, _ => .ok []
  | n + 1, s => do
    let (t, s) ← s.next
    return t :: (← take n s)

end Scanner
end WordScript
