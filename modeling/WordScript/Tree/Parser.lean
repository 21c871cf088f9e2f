import WordScript.Token.Scanner
import WordScript.Tree

/-! Reading tokens into a tree, by recursive descent.

Each function is named for the production it reads and starts at its first token. Layout tokens
are read and dropped; every other token becomes a leaf. A level of the grammar at which no
operator stands adds no branch. -/
namespace WordScript

namespace Parser

/-- Why reading stopped: at a token that cannot stand there, or because the tokens ended before
the end of the text. Reading that is given enough fuel never runs out of it. -/
inductive Halt
  | unexpected (t : Token)
  | ranOut
  | outOfFuel
deriving DecidableEq, Repr

end Parser

abbrev Parser := StateT (List Token) (Except Parser.Halt)

namespace Parser

open Token (Kind)

def peek : Parser Token := fun
  | t :: rest => .ok (t, t :: rest)
  | [] => .error .ranOut

def reject {α : Type} : Parser α := fun
  | t :: _ => .error (.unexpected t)
  | [] => .error .ranOut

def outOfFuel {α : Type} : Parser α := fun _ => .error .outOfFuel

def at? (kind : Kind) : Parser Bool := return (← peek).kind = kind

/-- Reads one token, whatever it is. -/
def leaf : Parser Node := fun
  | t :: rest => .ok (.leaf t, rest)
  | [] => .error .ranOut

def want (kind : Kind) : Parser Node := do
  if ← at? kind then leaf else reject

def drop (kind : Kind) : Parser Unit := do
  let _ ← want kind

def binaryRest (operand : Parser Node) (isOp : Kind → Bool) : (fuel : Nat) → Node → Parser Node
  | 0, _ => outOfFuel
  | fuel + 1, lhs => do
    if isOp (← peek).kind then
      let op ← leaf
      let rhs ← operand
      binaryRest operand isOp fuel (.branch "BinaryExpression" [lhs, op, rhs])
    else return lhs

def binary (operand : Parser Node) (isOp : Kind → Bool) (fuel : Nat) : Parser Node := do
  binaryRest operand isOp fuel (← operand)

def isOr (k : Kind) : Bool := k == .keyword .or

def isAnd (k : Kind) : Bool := k == .keyword .and

def isComparison : Kind → Bool
  | .compare _ | .keyword .is => true
  | _ => false

def isSum (k : Kind) : Bool := k == .arith .plus || k == .arith .minus

def isProduct (k : Kind) : Bool :=
  k == .arith .star || k == .arith .slash || k == .arith .floorDiv || k == .arith .mod

def isAtom : Kind → Bool
  | .name | .number | .string | .boolean | .noneWord => true
  | _ => false

mutual

/-- Reads `expr := and_expr {'or' and_expr}` with `and_expr := not_expr {'and' not_expr}`. -/
def expr : (fuel : Nat) → Parser Node
  | 0 => outOfFuel
  | fuel + 1 => binary (binary (notExpr fuel) isAnd fuel) isOr fuel

/-- Reads `not_expr := 'not' not_expr | comparison`, where a comparison is made of sums, a sum of
products and a product of factors. -/
def notExpr : (fuel : Nat) → Parser Node
  | 0 => outOfFuel
  | fuel + 1 => do
    if ← at? (.keyword .not) then
      let op ← leaf
      return .branch "UnaryExpression" [op, ← notExpr fuel]
    else
      binary (binary (binary (factor fuel) isProduct fuel) isSum fuel) isComparison fuel

/-- Reads `factor := ('+' | '-') factor | power` with `power := primary ['**' factor]`. -/
def factor : (fuel : Nat) → Parser Node
  | 0 => outOfFuel
  | fuel + 1 => do
    if isSum (← peek).kind then
      let op ← leaf
      return .branch "UnaryExpression" [op, ← factor fuel]
    else
      let base ← primary fuel
      if ← at? (.arith .power) then
        let op ← leaf
        return .branch "BinaryExpression" [base, op, ← factor fuel]
      else return base

/-- Reads `primary := atom {arg_list}` with
`atom := NAME | NUMBER | STRING | BOOL | 'None' | '(' expr ')'`. -/
def primary : (fuel : Nat) → Parser Node
  | 0 => outOfFuel
  | fuel + 1 => do
    if isAtom (← peek).kind then
      calls fuel (← leaf)
    else if ← at? .lparen then
      let left ← leaf
      let inner ← expr fuel
      let right ← want .rparen
      calls fuel (.branch "ParenthesizedExpression" [left, inner, right])
    else reject

/-- Reads `{arg_list}` after the callee, with `arg_list := '(' [expr {',' expr} [',']] ')'`. -/
def calls : (fuel : Nat) → Node → Parser Node
  | 0, _ => outOfFuel
  | fuel + 1, callee => do
    if ← at? .lparen then
      let left ← leaf
      let rest ← args fuel
      calls fuel (.branch "CallExpression" [callee, .branch "ArgList" (left :: rest)])
    else return callee

def args : (fuel : Nat) → Parser (List Node)
  | 0 => outOfFuel
  | fuel + 1 => do
    if ← at? .rparen then return [← leaf]
    else
      let arg ← expr fuel
      if ← at? .comma then
        let comma ← leaf
        return arg :: comma :: (← args fuel)
      else return [arg, ← want .rparen]

end

def typeDef (lead : Kind) (fuel : Nat) : Parser Node := do
  let lead ← want lead
  return .branch "TypeDef" [lead, ← expr fuel]

def exprOrAssign (fuel : Nat) : Parser Node := do
  let target ← expr fuel
  let typed ← at? .colon
  let head ← if typed then pure [target, ← typeDef .colon fuel] else pure [target]
  if ← at? .assign then
    let sign ← leaf
    return .branch "AssignStatement" (head ++ [sign, ← expr fuel])
  else if typed then return .branch "AssignStatement" head
  else return .branch "ExpressionStatement" head

/-- Reads `simple_stmt := 'pass' | 'return' [expr] | expr_or_assign`. -/
def simpleStmt (fuel : Nat) : Parser Node := do
  if ← at? (.keyword .pass) then return .branch "PassStatement" [← leaf]
  else if ← at? (.keyword .ret) then
    let word ← leaf
    if ← at? .newline then return .branch "ReturnStatement" [word]
    else return .branch "ReturnStatement" [word, ← expr fuel]
  else exprOrAssign fuel

def simpleLine (fuel : Nat) : Parser Node := do
  let stmt ← simpleStmt fuel
  drop .newline
  return stmt

/-- The parameters up to and with the closing parenthesis, with `param := NAME [type_def]`. -/
def params : (fuel : Nat) → Parser (List Node)
  | 0 => outOfFuel
  | fuel + 1 => do
    if ← at? .rparen then return [← leaf]
    else
      let name ← want .name
      let param ← if ← at? .colon then pure [name, ← typeDef .colon fuel] else pure [name]
      if ← at? .comma then
        let comma ← leaf
        return param ++ comma :: (← params fuel)
      else return param ++ [← want .rparen]

def paramList (fuel : Nat) : Parser Node := do
  let left ← want .lparen
  return .branch "ParamList" (left :: (← params fuel))

mutual

/-- Reads `stmt := func_def | if_stmt | while_stmt | simple_stmt NEWLINE` with
`func_def := 'def' NAME param_list ['->' expr] body`,
`if_stmt := 'if' expr body {'elif' expr body} ['else' body]` and
`while_stmt := 'while' expr body`. -/
def stmt : (fuel : Nat) → Parser Node
  | 0 => outOfFuel
  | fuel + 1 => do
    if ← at? (.keyword .define) then
      let word ← leaf
      let name ← want .name
      let params ← paramList fuel
      let returns ← if ← at? .arrow then pure [← typeDef .arrow fuel] else pure []
      return .branch "FunctionDefinition" ([word, name, params] ++ returns ++ [← body fuel])
    else if ← at? (.keyword .ifWord) then
      let word ← leaf
      let cond ← expr fuel
      let body ← body fuel
      return .branch "IfStatement" (word :: cond :: body :: (← clauses fuel))
    else if ← at? (.keyword .whileWord) then
      let word ← leaf
      let cond ← expr fuel
      return .branch "WhileStatement" [word, cond, ← body fuel]
    else simpleLine fuel

def clauses : (fuel : Nat) → Parser (List Node)
  | 0 => outOfFuel
  | fuel + 1 => do
    if ← at? (.keyword .elifWord) then
      let word ← leaf
      let cond ← expr fuel
      let body ← body fuel
      return word :: cond :: body :: (← clauses fuel)
    else if ← at? (.keyword .elseWord) then
      let word ← leaf
      return [word, ← body fuel]
    else return []

/-- Reads `body := ':' (simple_stmt NEWLINE | NEWLINE INDENT stmt {stmt} DEDENT)`. -/
def body : (fuel : Nat) → Parser Node
  | 0 => outOfFuel
  | fuel + 1 => do
    let colon ← want .colon
    if ← at? .newline then
      drop .newline
      drop .indent
      return .branch "Body" (colon :: (← block fuel))
    else return .branch "Body" [colon, ← simpleLine fuel]

def block : (fuel : Nat) → Parser (List Node)
  | 0 => outOfFuel
  | fuel + 1 => do
    let first ← stmt fuel
    if ← at? .dedent then
      drop .dedent
      return [first]
    else return first :: (← block fuel)

end

def stmts : (fuel : Nat) → Parser (List Node)
  | 0 => outOfFuel
  | fuel + 1 => do
    if ← at? .eof then return []
    else
      let first ← stmt fuel
      return first :: (← stmts fuel)

def file (fuel : Nat) : Parser Node := return .branch "Script" (← stmts fuel)

/-- Enough fuel for any tokens: between two tokens read, the descent passes at most twelve
productions. -/
def fuelFor (tokens : List Token) : Nat := 16 * (tokens.length + 1)

end Parser

/-- The tree of a source. A token that cannot stand where it is wins over a lexical error
further on. -/
def Tree.parse (source : Bytes) : Except SyntaxError Tree :=
  let scan := Scanner.scan source
  match (Parser.file (Parser.fuelFor scan.tokens)).run scan.tokens with
  | .ok (root, _) => .ok ⟨root, source⟩
  | .error (.unexpected t) => .error ⟨t.span, .unexpected t⟩
  | .error .ranOut | .error .outOfFuel => .error (scan.fault.getD ⟨default, .openString⟩)

end WordScript
