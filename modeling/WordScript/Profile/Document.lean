import WordScript.Text.Quoted

/-! Reading documents of tables: `key = value` lines under `[table]` headings, as in TOML.

A document is cut into tokens and these are read into a table of tables. What is not a text, a
list or a table is read only as far as needed to know where it ends. -/
namespace WordScript
namespace Document

mutual

inductive Value
  | text (s : String)
  /-- A number, a truth value, a date or a time. -/
  | scalar
  | list
  | table (t : Table)
  /-- The tables of one heading in double brackets, or a list of nothing but tables. -/
  | tables (ts : List Table)

/-- A table. Nothing can be added later to one that is written between braces. -/
inductive Table
  | mk (entries : List (String × Value)) (isInline : Bool)

end

namespace Table

def empty : Table := .mk [] false

def entries : Table → List (String × Value)
  | .mk es _ => es

def isInline : Table → Bool
  | .mk _ i => i

def find? (t : Table) (key : String) : Option Value := t.entries.lookup key

def set (t : Table) (key : String) (v : Value) : Table :=
  .mk (t.entries.filter (·.1 != key) ++ [(key, v)]) t.isInline

end Table

inductive Token
  | key (text : String)
  | equal | comma
  | leftBracket | rightBracket | leftBrace | rightBrace
  | doubleLeft | doubleRight
  /-- What stands between the brackets of a heading. -/
  | heading (text : String)
  | text (s : String)
  | scalar
deriving DecidableEq, Repr

def isBlank (c : Char) : Bool := c == ' ' || c == '\t'

def isDigit (c : Char) : Bool := '0' ≤ c && c ≤ '9'

def isBare (c : Char) : Bool :=
  ('a' ≤ c && c ≤ 'z') || ('A' ≤ c && c ≤ 'Z') || isDigit c || c == '_' || c == '-'

/-- The text of a literal string and what follows it: no escapes, and a doubled ending does not
count. -/
def literalText (ending : List Char) : List Char → Option (List Char × List Char)
  | [] => none
  | c :: rest =>
    if ending.isPrefixOf (c :: rest) then some ([], (c :: rest).drop ending.length)
    else (literalText ending rest).map fun (t, after) => (c :: t, after)

/-- How far an escape of a basic string has been read. -/
inductive EscapeMode
  | plain
  | backslash
  /-- Blanks after a backslash do not count. -/
  | blanks
  | code (left value : Nat)
deriving DecidableEq, Repr

def escapeChar? : Char → Option Char
  | '"' => some '"'
  | 'n' => some '\n'
  | 'b' => some '\x08'
  | 'f' => some '\x0c'
  | '/' => some '/'
  | 't' => some '\t'
  | 'r' => some '\r'
  | '\\' => some '\\'
  | _ => none

def isLayout (c : Char) : Bool := c == '\r' || c == '\n' || c == '\t' || c == ' '

def charOf (n : Nat) : Char := if n.isValidChar then Char.ofNat n else '�'

def isAllowed (multiline : Bool) (c : Char) : Bool :=
  32 ≤ c.toNat || c == '\t' || (multiline && (c == '\n' || c == '\r'))

def basicText (ending : List Char) (multiline : Bool) :
    EscapeMode → List Char → Option (List Char × List Char)
  | _, [] => none
  | mode, c :: rest =>
    match if mode = .blanks ∧ !isLayout c then .plain else mode with
    | .plain =>
      if ending.isPrefixOf (c :: rest) then some ([], (c :: rest).drop ending.length)
      else if c = '\\' then basicText ending multiline .backslash rest
      else if isAllowed multiline c then do
        let (t, after) ← basicText ending multiline .plain rest
        return (c :: t, after)
      else none
    | .blanks => basicText ending multiline .blanks rest
    | .backslash =>
      if isLayout c then basicText ending multiline .blanks rest
      else if c = 'u' then basicText ending multiline (.code 4 0) rest
      else if c = 'U' then basicText ending multiline (.code 8 0) rest
      else do
        let e ← escapeChar? c
        let (t, after) ← basicText ending multiline .plain rest
        return (e :: t, after)
    | .code left value => do
      let value := value * 16 + (← Quoted.hexDigit? c)
      if 1 < left then basicText ending multiline (.code (left - 1) value) rest
      else
        let (t, after) ← basicText ending multiline .plain rest
        return (charOf value :: t, after)

/-- A newline right after the opening of a multi-line string does not count. -/
def dropNewline : List Char → List Char
  | '\r' :: '\n' :: rest => rest
  | '\n' :: rest => rest
  | cs => cs

def stringText (quote : Char) (rest : List Char) : Option (List Char × List Char) :=
  let triple := [quote, quote].isPrefixOf rest
  let ending := if triple then [quote, quote, quote] else [quote]
  let body := if triple then dropNewline (rest.drop 2) else rest
  if quote = '"' then basicText ending triple .plain body else literalText ending body

/-- The text of a key up to the equals sign, with its strings decoded but still quoted. -/
def keyText : (rounds : Nat) → List Char → Option (List Char × List Char)
  | 0, _ => none
  | _ + 1, [] => some ([], [])
  | n + 1, c :: rest =>
    if c = '=' then some ([], c :: rest)
    else if c = '"' then do
      let (t, after) ← basicText ['"'] true .plain rest
      let (more, after) ← keyText n after
      return ('"' :: t ++ '"' :: more, after)
    else if c = '\'' then do
      let (t, after) ← literalText ['\''] rest
      let (more, after) ← keyText n after
      return ('\'' :: t ++ '\'' :: more, after)
    else if isBlank c then
      let blanks := rest.takeWhile isBlank
      match rest.dropWhile isBlank with
      | '.' :: afterDot => do
        let more := afterDot.takeWhile isBlank
        let (t, after) ← keyText n (afterDot.dropWhile isBlank)
        return (' ' :: blanks ++ '.' :: more ++ t, after)
      | after => some ([], after)
    else if c = '.' ∨ isBare c then do
      let (t, after) ← keyText n rest
      return (c :: t, after)
    else none

/-- Whether every underscore stands between a digit and something else. -/
def underscoresFit : (afterDigit : Bool) → List Char → Bool
  | _, [] => true
  | afterDigit, c :: rest =>
    if c = '_' then afterDigit && !rest.isEmpty && underscoresFit false rest
    else underscoresFit (isDigit c) rest

def exponentRest (cs : List Char) : List Char :=
  match cs with
  | 'e' :: rest | 'E' :: rest =>
    match rest with
    | '+' :: rest | '-' :: rest => rest.dropWhile fun c => isDigit c || c == '_'
    | rest => rest.dropWhile fun c => isDigit c || c == '_'
  | cs => cs

/-- A decimal number and what follows it: digits, a fraction and an exponent. -/
def decimalRest (cs : List Char) : Option (List Char) :=
  let isPart (c : Char) : Bool := isDigit c || c == '_'
  let whole := cs.takeWhile isPart
  let rest := cs.dropWhile isPart
  let cleaned := whole.filter isDigit
  if cleaned.isEmpty then none
  else
    let afterPoint := match rest with
      | '.' :: c :: more => if isDigit c then some ((c :: more).dropWhile isPart) else none
      | '.' :: [] => none
      | _ => some rest
    match afterPoint with
    | none => none
    | some more =>
      let after := exponentRest more
      let text := cs.take (cs.length - after.length)
      let isInteger := text.length = whole.length
      let exponent := more.take (more.length - after.length)
      if !underscoresFit false text then none
      else if isInteger && cleaned.length ≥ 3 && cleaned.head? == some '0' then none
      else if !exponent.isEmpty && !exponent.any isDigit then none
      else some after

def basedRest (isPart : Char → Bool) (cs : List Char) : Option (List Char) :=
  let digits := cs.takeWhile fun c => isPart c || c == '_'
  if digits.any isPart && digits.head? != some '_' && digits.getLast? != some '_' then
    some (cs.drop digits.length)
  else none

/-- What follows the characters of a pattern, in which `0` stands for a digit. -/
def patternRest : List Char → List Char → Option (List Char)
  | [], cs => some cs
  | _ :: _, [] => none
  | p :: ps, c :: cs =>
    if (if p = '0' then isDigit c else p = c) then patternRest ps cs else none

def timeRest (cs : List Char) : Option (List Char) := do
  let rest ← patternRest "00:00:00".toList cs
  match rest with
  | '.' :: c :: more => if isDigit c then return more.dropWhile isDigit else none
  | rest => return rest

def offsetRest (cs : List Char) : List Char :=
  match cs with
  | 'Z' :: rest => rest
  | '+' :: rest | '-' :: rest => (patternRest "00:00".toList rest).getD cs
  | _ => cs

def dateRest (cs : List Char) : Option (List Char) := do
  let rest ← patternRest "0000-00-00".toList cs
  match rest with
  | 'T' :: more => return offsetRest (← timeRest more)
  | ' ' :: more => return ((timeRest more).map offsetRest).getD rest
  | rest => return rest

def scalarRest (cs : List Char) : Option (List Char) :=
  match cs with
  | '+' :: rest | '-' :: rest =>
    if "inf".toList.isPrefixOf rest || "nan".toList.isPrefixOf rest then some (rest.drop 3)
    else decimalRest rest
  | '0' :: 'x' :: rest => basedRest (fun c => (Quoted.hexDigit? c).isSome) rest
  | '0' :: 'o' :: rest => basedRest (fun c => (Quoted.octalDigit? c).isSome) rest
  | '0' :: 'b' :: rest => basedRest (fun c => c == '0' || c == '1') rest
  | cs =>
    match dateRest cs, timeRest cs with
    | some rest, _ => some rest
    | none, some rest => some rest
    | none, none => decimalRest cs

def wordRest (cs : List Char) : Option (List Char) :=
  (["true", "false", "inf", "nan"].find? (·.toList.isPrefixOf cs)).map fun w => cs.drop w.length

def dropComment (cs : List Char) : List Char := cs.dropWhile (· ≠ '\n')

/-- The tokens of a text. Where a value may stand is told from where a key may stand; `opened` has
the brackets that are open, the last one first. Every round takes a character or more. -/
def tokens : (rounds : Nat) → (inValue : Bool) → (opened : List Char) → List Char →
    Option (List Token)
  | _, _, _, [] => some []
  | 0, _, _, _ => none
  | n + 1, inValue, opened, c :: rest =>
    if c = '#' then tokens n inValue opened (dropComment rest)
    else if c = '=' then (tokens n true opened rest).map (.equal :: ·)
    else if c = '}' then
      match opened with
      | '{' :: outer => (tokens n true outer rest).map (.rightBrace :: ·)
      | _ => none
    else if isBlank c then tokens n inValue opened rest
    else if c = '\n' ∨ c = '\r' then
      tokens n (inValue && opened.head? == some '[') opened rest
    else if inValue then
      if c = '[' then (tokens n true ('[' :: opened) rest).map (.leftBracket :: ·)
      else if c = ']' then
        match opened with
        | '[' :: outer => (tokens n true outer rest).map (.rightBracket :: ·)
        | _ => none
      else if c = '{' then (tokens n false ('{' :: opened) rest).map (.leftBrace :: ·)
      else if c = ',' then
        (tokens n (opened.head? != some '{') opened rest).map (.comma :: ·)
      else if c = '"' ∨ c = '\'' then do
        let (t, after) ← stringText c rest
        return .text (String.ofList t) :: (← tokens n true opened after)
      else
        match wordRest (c :: rest), scalarRest (c :: rest) with
        | some after, _ => (tokens n true opened after).map (.scalar :: ·)
        | none, some after => (tokens n true opened after).map (.scalar :: ·)
        | none, none => none
    else if c = '[' then
      let isDouble := rest.head? == some '['
      let body := if isDouble then rest.drop 1 else rest
      let text := body.takeWhile fun c => c != ']' && c != '['
      let ending := if isDouble then [']', ']'] else [']']
      let after := body.drop text.length
      if text.isEmpty || !ending.isPrefixOf after then none
      else do
        let more ← tokens n false opened (after.drop ending.length)
        let heading := Token.heading (String.ofList text)
        if isDouble then return .doubleLeft :: heading :: .doubleRight :: more
        else return .leftBracket :: heading :: .rightBracket :: more
    else do
      let (key, after) ← keyText (rest.length + 2) (c :: rest)
      return .key (String.ofList key) :: (← tokens n false opened after)

def keyParts : (rounds : Nat) → List Char → Option (List String)
  | 0, _ => none
  | n + 1, cs =>
    match cs.dropWhile isBlank with
    | [] => some []
    | '.' :: rest =>
      match rest with
      | [] => none
      | c :: _ =>
        if isBare c || c == '\'' || c == '"' || c == ' ' then keyParts n rest else none
    | c :: rest =>
      if c = '"' ∨ c = '\'' then
        let name := rest.takeWhile (· ≠ c)
        if name.length = rest.length then none
        else (keyParts n (rest.drop (name.length + 1))).map (String.ofList name :: ·)
      else if isBare c then
        let name := (c :: rest).takeWhile isBare
        let after := (c :: rest).drop name.length
        match after, after.dropWhile isBlank with
        | [], _ => some [String.ofList name]
        | _, [] => some [String.ofList name]
        | _, '.' :: _ => (keyParts n after).map (String.ofList name :: ·)
        | _, _ => none
      else none

def keyNames (key : String) : Option (List String) :=
  match keyParts (key.length + 1) key.toList with
  | some (n :: ns) => some (n :: ns)
  | _ => none

namespace Table

/-- Changes the table at the end of a path, of several tables the last one. Tables that are not
there are made. -/
def change (f : Table → Option Table) : List String → Table → Option Table
  | [], t => f t
  | key :: rest, t =>
    match t.find? key with
    | none => (change f rest (.mk [] t.isInline)).map fun u => t.set key (.table u)
    | some (.table u) => (change f rest u).map fun u => t.set key (.table u)
    | some (.tables us) =>
      match us.getLast? with
      | none => none
      | some u => (change f rest u).map fun u => t.set key (.tables (us.dropLast ++ [u]))
    | some _ => none

/-- Sets a key within a table that is being written, whatever stood there. -/
def setPath (keys : List String) (v : Value) (t : Table) : Option Table :=
  match keys.getLast? with
  | none => none
  | some last => t.change (fun u => some (u.set last v)) keys.dropLast

end Table

def Value.asTable? : Value → Option Table
  | .table t => some t
  | _ => none

/-- A list of values. One of tables only is the same as tables under headings. -/
def listValue (vs : List Value) : Value :=
  match vs.mapM Value.asTable? with
  | some (t :: ts) => .tables (t :: ts)
  | _ => .list

mutual

def value : (rounds : Nat) → List Token → Option (Value × List Token)
  | 0, _ => none
  | _ + 1, .text s :: rest => some (.text s, rest)
  | _ + 1, .scalar :: rest => some (.scalar, rest)
  | n + 1, .leftBracket :: rest => do
    let (vs, rest) ← listItems n rest
    return (listValue vs, rest)
  | n + 1, .leftBrace :: rest => do
    let (t, rest) ← inlineTable n .empty rest
    return (.table (.mk t.entries true), rest)
  | _ + 1, _ => none

def listItems : (rounds : Nat) → List Token → Option (List Value × List Token)
  | 0, _ => none
  | _ + 1, .rightBracket :: rest => some ([], rest)
  | n + 1, ts => do
    let (v, rest) ← value n ts
    match rest with
    | .comma :: rest => do
      let (vs, rest) ← listItems n rest
      return (v :: vs, rest)
    | .rightBracket :: rest => return ([v], rest)
    | _ => none

def inlineTable : (rounds : Nat) → Table → List Token → Option (Table × List Token)
  | 0, _, _ => none
  | _ + 1, t, .rightBrace :: rest => if t.entries.isEmpty then some (t, rest) else none
  | n + 1, t, .key k :: .equal :: rest => do
    let names ← keyNames k
    let (v, rest) ← value n rest
    let t ← t.setPath names v
    match rest with
    | .comma :: .rightBrace :: _ => none
    | .comma :: rest => inlineTable n t rest
    | .rightBrace :: rest => return (t, rest)
    | _ => none
  | _ + 1, _, _ => none

end

/-- A document that is being read. -/
structure State where
  root : Table
  /-- The names of the last heading. -/
  current : List String
  /-- The headings so far, as they are written. -/
  seen : List String

namespace State

/-- A line `[heading]`: each may stand once, and none may name a table between braces. -/
def heading (st : State) (text : String) : Option State := do
  if st.seen.contains text then none
  let names ← keyNames text
  let root ← st.root.change (fun t => if t.isInline then none else some t) names
  return ⟨root, names, text :: st.seen⟩

/-- A line `[[heading]]`: adds a table to the tables of the heading. -/
def doubleHeading (st : State) (text : String) : Option State := do
  let names ← keyNames text
  let last ← names.getLast?
  let root ← st.root.change (fun t =>
    match t.find? last with
    | none => some (t.set last (.tables [.empty]))
    | some (.tables ts) => some (t.set last (.tables (ts ++ [.empty])))
    | some _ => none) names.dropLast
  let seen := st.seen.filter fun s => !(text ++ ".").toList.isPrefixOf s.toList
  return ⟨root, names, text :: seen⟩

def assign (st : State) (key : String) (v : Value) : Option State := do
  let names ← keyNames key
  let last ← names.getLast?
  let root ← st.root.change (fun t =>
    if t.isInline || (t.find? last).isSome then none else some (t.set last v))
    (st.current ++ names.dropLast)
  return { st with root }

def readAll : (rounds : Nat) → State → List Token → Option State
  | _, st, [] => some st
  | 0, _, _ => none
  | n + 1, st, .leftBracket :: .heading text :: .rightBracket :: rest => do
    readAll n (← st.heading text) rest
  | n + 1, st, .doubleLeft :: .heading text :: .doubleRight :: rest => do
    readAll n (← st.doubleHeading text) rest
  | n + 1, st, .key k :: .equal :: rest => do
    let (v, rest) ← value (rest.length + 1) rest
    readAll n (← st.assign k v) rest
  | _ + 1, _, _ => none

end State

/-- A mark of the encoding at the start of a text does not count. -/
def dropMark : List Char → List Char
  | '\ufeff' :: rest => rest
  | cs => cs

def read? (text : String) : Option Table := do
  let cs := dropMark text.toList
  let ts ← tokens (cs.length + 1) false [] cs
  return (← State.readAll (ts.length + 1) ⟨.empty, [], []⟩ ts).root

end Document
end WordScript
