import WordScript.Tree

/-! Moving about in a tree one node at a time. -/
namespace WordScript

/-- A place in a tree, confined to the subtree of `base`. -/
structure Cursor where
  /-- The node the cursor started on. -/
  base : Node
  node : Node
  /-- The ancestors up to `base`, innermost first, each with the index of the child taken. -/
  trail : List (Node × Nat)

namespace Cursor

def first? (c : Cursor) : Option Cursor :=
  match c.node.content with
  | [] => none
  | n :: _ => some { c with node := n, trail := (c.node, 0) :: c.trail }

def next? (c : Cursor) : Option Cursor :=
  match c.trail with
  | [] => none
  | (parent, i) :: trail =>
    parent.content[i + 1]?.map fun n => { c with node := n, trail := (parent, i + 1) :: trail }

def parent? (c : Cursor) : Option Cursor :=
  match c.trail with
  | [] => none
  | (parent, _) :: trail => some { c with node := parent, trail }

end Cursor

/-- The descendant reached by taking the children with the given indices, and whether each step
met a branch with such a child. -/
def Node.descend? : Node → List Nat → Option Node
  | n, [] => some n
  | .branch _ content, i :: path => content[i]?.bind (descend? · path)
  | .leaf _, _ :: _ => none

end WordScript
