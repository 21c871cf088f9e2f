import WordScript.Text.Utf8
import WordScript.Token

/-! Concrete syntax trees: tokens grouped under the names of the grammar.

A tree read from tokens has no empty branch, but trees may come from elsewhere. What an empty
branch lacks (a place, a text) is `none`. -/
namespace WordScript

inductive Node
  | leaf (token : Token)
  | branch (name : String) (content : List Node)
deriving Repr

namespace Node

/-- The grammar name of a node; a leaf that belongs to no class is named by its text. -/
def name : Node → String
  | .leaf t => t.label
  | .branch n _ => n

def content : Node → List Node
  | .leaf _ => []
  | .branch _ c => c

mutual

def span? : Node → Option Span
  | .leaf t => some t.span
  | .branch _ content =>
    match firstSpan? content, lastSpan? content with
    | some a, some b => some (a.over b)
    | _, _ => none

def firstSpan? : List Node → Option Span
  | [] => none
  | n :: _ => n.span?

def lastSpan? : List Node → Option Span
  | [] => none
  | [n] => n.span?
  | _ :: n :: rest => lastSpan? (n :: rest)

end

def start? : Node → Option Nat
  | .leaf t => some t.start
  | .branch _ (n :: _) => n.start?
  | .branch _ [] => none

mutual

def stop? : Node → Option Nat
  | .leaf t => some t.stop
  | .branch _ content => lastStop? content

def lastStop? : List Node → Option Nat
  | [] => none
  | [n] => n.stop?
  | _ :: n :: rest => lastStop? (n :: rest)

end

mutual

def leaves : Node → List Token
  | .leaf t => [t]
  | .branch _ content => leavesOf content

def leavesOf : List Node → List Token
  | [] => []
  | n :: rest => n.leaves ++ leavesOf rest

end

end Node

/-- A tree with the source its offsets refer to. -/
structure Tree where
  root : Node
  source : Bytes

def slice? (source : Bytes) (start stop : Nat) : Option Bytes :=
  if start ≤ stop ∧ stop ≤ source.length then some ((source.drop start).take (stop - start))
  else none

def Node.text? (source : Bytes) (n : Node) : Option String := do
  let start ← n.start?
  let stop ← n.stop?
  return Utf8.decode (← slice? source start stop)

end WordScript
