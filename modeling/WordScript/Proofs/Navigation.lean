import WordScript.Tree.Cursor

/-! Moving about in a tree.

A cursor keeps the way from its base to its node: each ancestor with the index of the child taken.
Moves keep that way in step with the node, so the node is always the descendant that the indices
lead to, and a move fails only where they would lead nowhere. -/
namespace WordScript

namespace Node

theorem descend?_cons (n : Node) (i : Nat) (path : List Nat) :
    n.descend? (i :: path) = n.content[i]?.bind (·.descend? path) := by
  cases n with
  | leaf t => rfl
  | branch name content => rfl

theorem descend?_concat (n : Node) (path : List Nat) (i : Nat) :
    n.descend? (path ++ [i]) = (n.descend? path).bind (·.content[i]?) := by
  induction path generalizing n with
  | nil =>
    rw [List.nil_append, descend?_cons]
    exact Option.bind_fun_some _
  | cons j path ih =>
    rw [List.cons_append, descend?_cons, descend?_cons, Option.bind_assoc]
    exact congrArg _ (funext ih)

end Node

/-- The ways to move a cursor. -/
inductive Move
  | first | next | parent
deriving DecidableEq, Repr

namespace Cursor

def move? (c : Cursor) : Move → Option Cursor
  | .first => c.first?
  | .next => c.next?
  | .parent => c.parent?

/-- A cursor after a move. Where there is nothing to move to it stays. -/
def move (c : Cursor) (m : Move) : Cursor := (c.move? m).getD c

/-- The indices of the children taken from the base to the node. -/
def path (c : Cursor) : List Nat := (c.trail.map (·.2)).reverse

/-- A trail from a node up to `n`, each ancestor a branch with the child that was taken. -/
inductive Leads (n : Node) : Node → List (Node × Nat) → Prop
  | here : Leads n n []
  | child {parent child : Node} {i : Nat} {trail : List (Node × Nat)}
      (above : Leads n parent trail) (taken : parent.content[i]? = some child) :
      Leads n child ((parent, i) :: trail)

/-- A cursor whose trail leads from its node to `n`. -/
structure Within (n : Node) (c : Cursor) : Prop where
  base : c.base = n
  leads : Leads n c.node c.trail

variable {n m : Node} {trail : List (Node × Nat)} {c d : Cursor}

theorem Within.move? (h : c.Within n) {m : Move} (moved : c.move? m = some d) : d.Within n := by
  obtain ⟨base, node, trail⟩ := c
  obtain ⟨rfl, leads⟩ := h
  cases m with
  | first =>
    cases content : node.content with
    | nil => simp [Cursor.move?, first?, content] at moved
    | cons child rest =>
      simp only [Cursor.move?, first?, content, Option.some.injEq] at moved
      subst moved
      exact ⟨rfl, leads.child (by simp [content])⟩
  | next =>
    cases leads with
    | here => cases moved
    | child above taken =>
      obtain ⟨sibling, found, rfl⟩ := Option.map_eq_some_iff.1 moved
      exact ⟨rfl, above.child found⟩
  | parent =>
    cases leads with
    | here => cases moved
    | child above taken =>
      cases moved
      exact ⟨rfl, above⟩

theorem Leads.descend? (h : Leads n m trail) :
    n.descend? (trail.map (·.2)).reverse = some m := by
  induction h with
  | here => rfl
  | child above taken ih =>
    rw [List.map_cons, List.reverse_cons, Node.descend?_concat, ih]
    exact taken

/-- The nodes that a loop meets which goes on to the next sibling for as long as there is one. -/
inductive Visits : Option Cursor → List Node → Prop
  | none : Visits none []
  | some {c : Cursor} {ns : List Node} (others : Visits c.next? ns) : Visits (some c) (c.node :: ns)

theorem Visits.unique (h : Visits o ns) (h' : Visits o ns') : ns = ns' := by
  induction h generalizing ns' with
  | none =>
    cases h'
    rfl
  | some _ ih =>
    cases h' with
    | some others => rw [ih others]

end Cursor
end WordScript
