import WordScript.Text.Numeral
import WordScript.Text.Quoted

/-! Messages with places for arguments.

A directive starts with `%`. It may have flags, a width, a precision, each with the number of an
argument in brackets before it, and it ends with a verb. A directive that cannot be carried out is
shown in the message, together with what is wrong with it. -/
namespace WordScript
namespace Template

/-- How a directive wants its argument to look. -/
structure Style where
  sharp : Bool
  zero : Bool
  minus : Bool
  space : Bool
  width : Nat
  precision : Option Nat
deriving DecidableEq, Repr

def Style.plain : Style := ⟨false, false, false, false, 0, none⟩

def Style.fill (s : Style) (text : List Char) : List Char :=
  let text := match s.precision with
    | some n => text.take n
    | none => text
  let gap := s.width - text.length
  if s.minus then text ++ List.replicate gap ' '
  else List.replicate gap (if s.zero then '0' else ' ') ++ text

def hexChar (upper : Bool) (n : Nat) : Char :=
  (if upper then "0123456789ABCDEF" else "0123456789abcdef").toList.getD n '0'

/-- The bytes of a text in hexadecimal, set apart or marked if the style says so. -/
def Style.hex (s : Style) (upper : Bool) (text : String) : List Char :=
  let mark := if s.sharp then ['0', if upper then 'X' else 'x'] else []
  let bytes := match s.precision with
    | some n => (Utf8.encode text).take n
    | none => Utf8.encode text
  let pairs := bytes.map fun b => [hexChar upper (b.toNat / 16), hexChar upper (b.toNat % 16)]
  let body :=
    if pairs.isEmpty then []
    else if s.space then (pairs.map (mark ++ ·)).intersperse [' '] |>.flatten
    else mark ++ pairs.flatten
  { s with precision := none }.fill body

/-- The literal of a text, which the precision cuts before it is quoted. -/
def Style.quoted (s : Style) (text : String) : List Char :=
  let text := match s.precision with
    | some n => String.ofList (text.toList.take n)
    | none => text
  { s with precision := none }.fill (Quoted.encode text)

def Style.argument (s : Style) (verb : Char) (text : String) : List Char :=
  match verb with
  | 's' => s.fill text.toList
  | 'v' => if s.sharp then s.quoted text else s.fill text.toList
  | 'q' => s.quoted text
  | 'x' => s.hex false text
  | 'X' => s.hex true text
  | 'T' => s.fill "string".toList
  | verb => ['%', '!', verb] ++ "(string=".toList ++ s.fill text.toList ++ [')']

/-- Digits at the front, and what follows. Numbers past a million are none, and nothing is left
after one. -/
def number (found : Option Nat) : List Char → Option Nat × List Char
  | [] => (found, [])
  | c :: rest =>
    match Numeral.digit? c with
    | none => (found, c :: rest)
    | some d =>
      if 1000000 < found.getD 0 then (none, [])
      else number (some (found.getD 0 * 10 + d)) rest

/-- Where the directives stand: the next argument, and whether arguments were chosen by number. -/
structure Cursor where
  next : Nat
  reordered : Bool
  /-- Whether the number of an argument in this directive is wrong. -/
  bad : Bool
  /-- Whether the number of an argument was read just now. -/
  afterNumber : Bool

/-- Reads the number of an argument in brackets if one stands here. -/
def argumentNumber (count : Nat) (c : Cursor) : List Char → Cursor × List Char
  | '[' :: rest =>
    let inside := rest.takeWhile (· ≠ ']')
    let c := { c with reordered := true }
    if inside.length = rest.length ∨ rest.length < 2 then
      ({ c with bad := true, afterNumber := false }, rest)
    else
      let after := rest.drop (inside.length + 1)
      match number none inside with
      | (some n, []) =>
        if 1 ≤ n ∧ n ≤ count then ({ c with next := n - 1, afterNumber := true }, after)
        else ({ c with bad := true, afterNumber := true }, after)
      | _ => ({ c with bad := true, afterNumber := false }, after)
  | cs => ({ c with afterNumber := false }, cs)

def flags (s : Style) : List Char → Style × List Char
  | '#' :: rest => flags { s with sharp := true } rest
  | '0' :: rest => flags { s with zero := true } rest
  | '+' :: rest => flags s rest
  | '-' :: rest => flags { s with minus := true } rest
  | ' ' :: rest => flags { s with space := true } rest
  | cs => (s, cs)

/-- Reads a width. No argument is a number, so one asked for by `*` is used up in vain. -/
def width (count : Nat) (c : Cursor) (s : Style) : List Char → Cursor × Style × List Char × String
  | '*' :: rest =>
    let next := if c.next < count then c.next + 1 else c.next
    ({ c with next, afterNumber := false }, s, rest, "%!(BADWIDTH)")
  | cs =>
    let (found, rest) := number none cs
    ({ c with bad := c.bad || (c.afterNumber && found.isSome) }, { s with width := found.getD 0 },
      rest, "")

def precision (count : Nat) (c : Cursor) (s : Style) :
    List Char → Cursor × Style × List Char × String
  | '.' :: rest =>
    let (c, rest) := argumentNumber count { c with bad := c.bad || c.afterNumber } rest
    match rest with
    | '*' :: rest =>
      let next := if c.next < count then c.next + 1 else c.next
      ({ c with next, afterNumber := false }, s, rest, "%!(BADPREC)")
    | cs =>
      let (found, rest) := number none cs
      (c, { s with precision := some (found.getD 0) }, rest, "")
  | cs => (c, s, cs, "")

def directive (args : List String) (c : Cursor) (cs : List Char) :
    Cursor × List Char × List Char :=
  let (s, cs) := flags Style.plain cs
  let (c, cs) := argumentNumber args.length { c with bad := false } cs
  let (c, s, cs, widthNote) := width args.length c s cs
  let (c, s, cs, precisionNote) := precision args.length c s cs
  let (c, cs) := if c.afterNumber then (c, cs) else argumentNumber args.length c cs
  let notes := (widthNote ++ precisionNote).toList
  match cs with
  | [] => (c, notes ++ "%!(NOVERB)".toList, [])
  | '%' :: rest => (c, notes ++ ['%'], rest)
  | verb :: rest =>
    if c.bad then (c, notes ++ ['%', '!', verb] ++ "(BADINDEX)".toList, rest)
    else
      match args[c.next]? with
      | none => (c, notes ++ ['%', '!', verb] ++ "(MISSING)".toList, rest)
      | some arg => ({ c with next := c.next + 1 }, notes ++ s.argument verb arg, rest)

def extra (args : List String) (c : Cursor) : List Char :=
  if c.reordered ∨ args.length ≤ c.next then []
  else
    "%!(EXTRA ".toList
      ++ (", ".intercalate ((args.drop c.next).map ("string=" ++ ·))).toList ++ [')']

/-- Each round of reading takes at least one character, so their number bounds the rounds. -/
def renderFrom (args : List String) : (rounds : Nat) → Cursor → List Char → List Char
  | 0, c, _ => extra args c
  | _ + 1, c, [] => extra args c
  | n + 1, c, '%' :: rest =>
    let (c, shown, rest) := directive args c rest
    shown ++ renderFrom args n c rest
  | n + 1, c, ch :: rest => ch :: renderFrom args n c rest

def render (message : String) (args : List String) : String :=
  String.ofList (renderFrom args (message.length + 1) ⟨0, false, false, false⟩ message.toList)

end Template
end WordScript
