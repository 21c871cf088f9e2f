import WordScript.Proofs.Positions
import WordScript.Proofs.TreeShape

/-! Where the nodes of a tree stand.

A node reaches from its first leaf to its last one. In a tree that is read from a source the leaves
stand behind each other, so that the parts of a node are apart from each other and inside it. -/
namespace WordScript
namespace Node

mutual

def Full : Node → Prop
  | .leaf _ => True
  | .branch _ content => content ≠ [] ∧ FullAll content

def FullAll : List Node → Prop
  | [] => True
  | n :: rest => n.Full ∧ FullAll rest

end

/-- The first and the last leaf of a node, between which it stands. -/
structure Ends (n : Node) (t u : Token) : Prop where
  first : n.leaves.head? = some t
  last : n.leaves.getLast? = some u
  start : n.start? = some t.start
  stop : n.stop? = some u.stop
  span : n.span? = some (t.span.over u.span)

/-- The first and the last leaf of siblings. -/
structure EndsAll (ns : List Node) (t u : Token) : Prop where
  first : (leavesOf ns).head? = some t
  last : (leavesOf ns).getLast? = some u
  start : ns.head?.bind start? = some t.start
  stop : lastStop? ns = some u.stop
  firstSpan : ∃ s, firstSpan? ns = some s ∧ s.start = t.span.start
  lastSpan : ∃ s, lastSpan? ns = some s ∧ s.stop = u.span.stop

theorem EndsAll.branch {name : String} {content : List Node} (h : EndsAll content t u) :
    Ends (.branch name content) t u where
  first := h.first
  last := h.last
  start := by
    have start := h.start
    cases content with
    | nil => cases start
    | cons n rest => simpa [start?] using start
  stop := h.stop
  span := by
    obtain ⟨a, ha, first⟩ := h.firstSpan
    obtain ⟨b, hb, last⟩ := h.lastSpan
    simp [span?, ha, hb, Span.over, first, last]

mutual

theorem Full.ends : (n : Node) → n.Full → ∃ t u, n.Ends t u
  | .leaf t, _ => ⟨t, t, rfl, rfl, rfl, rfl, rfl⟩
  | .branch _ content, h => by
    obtain ⟨t, u, ends⟩ := FullAll.ends content h.2 h.1
    exact ⟨t, u, ends.branch⟩

theorem FullAll.ends : (ns : List Node) → FullAll ns → ns ≠ [] → ∃ t u, EndsAll ns t u
  | [], _, h => absurd rfl h
  | [n], h, _ => by
    obtain ⟨t, u, ends⟩ := Full.ends n h.1
    refine ⟨t, u, ?_, ?_, by simpa using ends.start, ends.stop, ⟨_, ends.span, rfl⟩,
      ⟨_, ends.span, rfl⟩⟩
    · simpa [leavesOf] using ends.first
    · simpa [leavesOf] using ends.last
  | n :: m :: rest, h, _ => by
    obtain ⟨t, _, ends⟩ := Full.ends n h.1
    obtain ⟨_, u, others⟩ := FullAll.ends (m :: rest) h.2 (by simp)
    refine ⟨t, u, ?_, ?_, by simpa using ends.start, others.stop, ⟨_, ends.span, rfl⟩,
      others.lastSpan⟩
    · simp [leavesOf, ends.first]
    · rw [leavesOf, List.getLast?_append, others.last]
      rfl

end

/-- Siblings whose leaves stand behind each other in a source. -/
structure LaidAll (source : Bytes) (ns : List Node) : Prop where
  full : FullAll ns
  placed : ∀ t ∈ leavesOf ns, t.Placed source
  ordered : (leavesOf ns).Pairwise fun t u => t.stop ≤ u.start

/-- A node whose leaves stand behind each other in a source. -/
def Laid (source : Bytes) (n : Node) : Prop := LaidAll source [n]

section laid

variable {source : Bytes} {n m : Node} {ms ns : List Node} {name : String}

theorem fullAll_of_sublist (h : ms.Sublist ns) (full : FullAll ns) : FullAll ms := by
  induction h with
  | slnil => trivial
  | cons n _ ih => exact ih full.2
  | cons_cons n _ ih => exact ⟨full.1, ih full.2⟩

theorem leavesOf_sublist (h : ms.Sublist ns) : (leavesOf ms).Sublist (leavesOf ns) := by
  induction h with
  | slnil => exact .refl _
  | cons n _ ih => exact ih.trans (List.sublist_append_right _ _)
  | cons_cons n _ ih => exact ih.append_left _

theorem LaidAll.sublist (h : LaidAll source ns) (sub : ms.Sublist ns) : LaidAll source ms where
  full := fullAll_of_sublist sub h.full
  placed t ht := h.placed t ((leavesOf_sublist sub).subset ht)
  ordered := h.ordered.sublist (leavesOf_sublist sub)

theorem LaidAll.laid (h : LaidAll source ns) (mem : n ∈ ns) : n.Laid source :=
  h.sublist (List.singleton_sublist.2 mem)

theorem LaidAll.tail (h : LaidAll source (n :: ns)) : LaidAll source ns :=
  h.sublist (List.sublist_cons_self n ns)

theorem Laid.parts (h : (Node.branch name ns).Laid source) : LaidAll source ns := by
  refine ⟨h.full.1.2, fun t ht => h.placed t ?_, ?_⟩
  · simpa [leavesOf, leaves] using ht
  · simpa [leavesOf, leaves] using h.ordered

theorem Laid.token (h : (Node.leaf t).Laid source) : t.Placed source :=
  h.placed t (by simp [leavesOf, leaves])

theorem LaidAll.first_le (h : LaidAll source ns) (first : (leavesOf ns).head? = some t)
    (mem : u ∈ leavesOf ns) : t.start ≤ u.start := by
  obtain ⟨rest, same⟩ := List.head?_eq_some_iff.1 first
  have placed := h.placed
  have ordered := h.ordered
  rw [same] at mem placed ordered
  rcases List.mem_cons.1 mem with rfl | hu
  · exact Nat.le_refl _
  · exact Nat.le_trans (placed t (by simp)).order (List.rel_of_pairwise_cons ordered hu)

theorem LaidAll.le_last (h : LaidAll source ns) (last : (leavesOf ns).getLast? = some u)
    (mem : t ∈ leavesOf ns) : t.stop ≤ u.stop := by
  obtain ⟨before, same⟩ := List.getLast?_eq_some_iff.1 last
  have placed := h.placed
  have ordered := h.ordered
  rw [same] at mem placed ordered
  rcases List.mem_append.1 mem with ht | ht
  · have behind := (List.pairwise_append.1 ordered).2.2 t ht u (by simp)
    exact Nat.le_trans behind (placed u (by simp)).order
  · cases List.mem_singleton.1 ht
    exact Nat.le_refl _

/-- The range and the span of a laid node. -/
structure Ranges (source : Bytes) (n : Node) (a b : Nat) : Prop where
  start : n.start? = some a
  stop : n.stop? = some b
  order : a ≤ b
  bound : b ≤ source.length
  span : n.span? = some (.ofRange source a b)

theorem Laid.ranges (h : n.Laid source) : ∃ a b, n.Ranges source a b := by
  obtain ⟨t, u, ends⟩ := Full.ends n h.full.1
  have same : leavesOf [n] = n.leaves := by simp [leavesOf]
  have memt : t ∈ leavesOf [n] := same ▸ List.mem_of_mem_head? ends.first
  have memu : u ∈ leavesOf [n] := same ▸ List.mem_of_getLast? ends.last
  have ht := h.placed t memt
  have hu := h.placed u memu
  have order := Nat.le_trans (h.first_le (same ▸ ends.first) memu) hu.order
  refine ⟨t.start, u.stop, ends.start, ends.stop, order, hu.bound, ?_⟩
  rw [ends.span, ht.span, hu.span]
  rfl

theorem Ranges.selects (h : n.Ranges source a b) :
    (Span.ofRange source a b).Selects source := ⟨a, b, h.order, h.bound, rfl⟩

theorem Laid.span (h : n.Laid source) : ∃ s, n.span? = some s ∧ s.Selects source := by
  obtain ⟨a, b, ranges⟩ := h.ranges
  exact ⟨_, ranges.span, ranges.selects⟩

theorem Laid.text (h : n.Laid source) : ∃ x, n.text? source = some x := by
  obtain ⟨a, b, ranges⟩ := h.ranges
  simp [text?, ranges.start, ranges.stop, slice?, ranges.order, ranges.bound]

theorem LaidAll.apart (h : LaidAll source [n, m]) (hn : n.Ranges source a b)
    (hm : m.Ranges source c d) : b ≤ c := by
  obtain ⟨_, t, first⟩ := Full.ends n h.full.1
  obtain ⟨u, _, second⟩ := Full.ends m h.full.2.1
  have start := second.start.symm.trans hm.start
  have stop := first.stop.symm.trans hn.stop
  simp only [Option.some.injEq] at start stop
  have ordered := h.ordered
  simp only [leavesOf, List.append_nil] at ordered
  have behind := (List.pairwise_append.1 ordered).2.2 t (List.mem_of_getLast? first.last) u
    (List.mem_of_mem_head? second.first)
  omega

theorem LaidAll.hull (h : LaidAll source [n, m]) :
    ∃ s s', n.span? = some s ∧ m.span? = some s' ∧ (s.over s').Selects source := by
  obtain ⟨a, b, hn⟩ := (h.laid (by simp) : n.Laid source).ranges
  obtain ⟨c, d, hm⟩ := (h.laid (by simp) : m.Laid source).ranges
  have apart := h.apart hn hm
  have first := hn.order
  have second := hm.order
  exact ⟨_, _, hn.span, hm.span, a, d, by omega, hm.bound, rfl⟩

theorem LaidAll.inside (h : LaidAll source ns) (hn : (Node.branch name ns).Ranges source a b)
    (mem : m ∈ ns) (hm : m.Ranges source c d) : a ≤ c ∧ d ≤ b := by
  obtain ⟨t, u, whole⟩ := FullAll.ends ns h.full (List.ne_nil_of_mem mem)
  have here : (Node.branch name ns).Ends t u := whole.branch
  obtain ⟨v, w, part⟩ := Full.ends m (h.laid mem).full.1
  have start := here.start.symm.trans hn.start
  have stop := here.stop.symm.trans hn.stop
  have start' := part.start.symm.trans hm.start
  have stop' := part.stop.symm.trans hm.stop
  simp only [Option.some.injEq] at start stop start' stop'
  have leaf : ∀ x ∈ m.leaves, x ∈ leavesOf ns := fun x hx =>
    (leavesOf_sublist (List.singleton_sublist.2 mem)).subset (by simpa [leavesOf] using hx)
  have first := h.first_le whole.first (leaf v (List.mem_of_mem_head? part.first))
  have last := h.le_last whole.last (leaf w (List.mem_of_getLast? part.last))
  omega

/-- A node with its range, which holds those of its parts one behind the other. -/
structure Covers (source : Bytes) (n : Node) (a b : Nat) : Prop extends n.Ranges source a b where
  parts : ∀ m ∈ n.content, ∃ c d, m.Ranges source c d ∧ a ≤ c ∧ d ≤ b
  apart : n.content.Pairwise fun l r => ∀ c d, l.stop? = some c → r.start? = some d → c ≤ d

theorem LaidAll.pairwise (h : LaidAll source ns) :
    ns.Pairwise fun l r => ∀ c d, l.stop? = some c → r.start? = some d → c ≤ d := by
  refine List.pairwise_iff_forall_sublist.2 fun {l r} sub c d hc hd => ?_
  have both := h.sublist sub
  obtain ⟨_, b, hl⟩ := (both.laid (by simp) : l.Laid source).ranges
  obtain ⟨c', _, hr⟩ := (both.laid (by simp) : r.Laid source).ranges
  have stop := hl.stop.symm.trans hc
  have start := hr.start.symm.trans hd
  simp only [Option.some.injEq] at stop start
  have := both.apart hl hr
  omega

theorem Laid.covers (h : n.Laid source) : ∃ a b, n.Covers source a b := by
  obtain ⟨a, b, ranges⟩ := h.ranges
  cases n with
  | leaf t => exact ⟨a, b, ranges, by simp [Node.content], by simp [Node.content]⟩
  | branch name ns =>
    refine ⟨a, b, ranges, fun m hm => ?_, h.parts.pairwise⟩
    obtain ⟨c, d, part⟩ := (h.parts.laid hm).ranges
    exact ⟨c, d, part, h.parts.inside ranges hm part⟩

end laid

/-- A node and the nodes inside it. -/
inductive Part : Node → Node → Prop
  | self {n : Node} : Part n n
  | inside {n m : Node} {name : String} {ns : List Node} (mem : m ∈ ns) (part : Part n m) :
      Part n (.branch name ns)

theorem Laid.part (h : m.Laid source) (part : Part n m) : n.Laid source := by
  induction part with
  | self => exact h
  | inside mem _ ih => exact ih (h.parts.laid mem)

end Node

namespace Grammar

open Node (FullAll)

variable {ns : List Node}

theorem fullAll_append (hm : FullAll ms) (hn : FullAll ns) : FullAll (ms ++ ns) := by
  induction ms with
  | nil => exact hn
  | cons m ms ih => exact ⟨hm.1, ih hm.2⟩

theorem fullAll_of_mem (h : ∀ n ∈ ns, n.Full) : FullAll ns := by
  induction ns with
  | nil => trivial
  | cons n ns ih => exact ⟨h n (by simp), ih fun m hm => h m (by simp [hm])⟩

mutual

theorem IsExpr.full : {n : Node} → IsExpr n → n.Full
  | _, .atom _ => trivial
  | _, .paren inner => ⟨by simp, trivial, inner.full, trivial, trivial⟩
  | _, .unary operand => ⟨by simp, trivial, operand.full, trivial⟩
  | _, .binary lhs rhs => ⟨by simp, lhs.full, trivial, rhs.full, trivial⟩
  | _, .call callee items => ⟨by simp, callee.full, ⟨by simp, trivial, items.full⟩, trivial⟩

theorem IsArgs.full : {ns : List Node} → IsArgs ns → FullAll ns
  | _, .close => ⟨trivial, trivial⟩
  | _, .item first others => ⟨first.full, others.full⟩
  | _, .comma _ others => ⟨trivial, others.full⟩

end

theorem IsType.full : IsType n → n.Full
  | .mk label => ⟨by simp, trivial, label.full, trivial⟩

theorem IsParams.full (h : IsParams ns) : FullAll ns := by
  induction h with
  | nil => trivial
  | bare _ _ ih => exact ⟨trivial, ih⟩
  | typed _ annotated _ ih => exact ⟨trivial, annotated.full, ih⟩
  | comma _ _ ih => exact ⟨trivial, ih⟩

theorem bodyNode_full (h : ∀ s ∈ block, s.Full) :
    (bodyNode colon block).Full := ⟨by simp, trivial, fullAll_of_mem h⟩

mutual

theorem IsStmt.full : {n : Node} → IsStmt n → n.Full
  | _, .pass => ⟨by simp, trivial, trivial⟩
  | _, .ret => ⟨by simp, trivial, trivial⟩
  | _, .retValue value => ⟨by simp, trivial, value.full, trivial⟩
  | _, .expr value => ⟨by simp, value.full, trivial⟩
  | _, .assign _ target value => ⟨by simp, target.full, trivial, value.full, trivial⟩
  | _, .declare target annotated => ⟨by simp, target.full, annotated.full, trivial⟩
  | _, .init target annotated value =>
    ⟨by simp, target.full, annotated.full, trivial, value.full, trivial⟩
  | _, .func items typed body => by
    refine ⟨by simp, trivial, trivial,
      ⟨by simp, trivial, fullAll_append items.full ⟨trivial, trivial⟩⟩, fullAll_append ?_ ⟨?_, trivial⟩⟩
    · exact fullAll_of_mem fun type ht => (typed type (by simpa using ht)).full
    · exact bodyNode_full fun s hs => (body s hs).full
  | _, .cond test body others =>
    ⟨by simp, trivial, test.full, bodyNode_full fun s hs => (body s hs).full, others.full⟩
  | _, .while test body =>
    ⟨by simp, trivial, test.full, bodyNode_full fun s hs => (body s hs).full, trivial⟩

theorem IsClauses.full : {ns : List Node} → IsClauses ns → FullAll ns
  | _, .none => trivial
  | _, .elif _ test body others =>
    ⟨trivial, test.full, bodyNode_full fun s hs => (body s hs).full, others.full⟩
  | _, .otherwise _ body => ⟨trivial, bodyNode_full fun s hs => (body s hs).full, trivial⟩

end

end Grammar

namespace Tree

variable {source : Bytes} {tree : Tree}

theorem laid_of_parse (h : Tree.parse source = .ok tree) :
    Node.LaidAll source tree.root.content := by
  obtain ⟨-, leaves, ss, same, hss⟩ := shape_of_parse h
  rw [same, Node.leaves] at leaves
  rw [same]
  show Node.LaidAll source ss
  refine ⟨Grammar.fullAll_of_mem fun s hs => (hss s hs).full, fun t ht => ?_, ?_⟩
  · rw [leaves] at ht
    exact Scanner.scan_placed (List.mem_filter.1 ht).1
  · rw [leaves, Grammar.texts, List.pairwise_filter]
    refine (Scanner.scan_ordered source).imp fun {t u} before _ text => before ?_
    simpa using text

/-- Every node of a tree that is read, but an empty one, stands where its offsets say, and so do its
parts, inside it and one behind the other. -/
theorem covers_of_parse (h : Tree.parse source = .ok tree) {n : Node} (part : n.Part tree.root)
    (filled : ∀ name, n ≠ .branch name []) : ∃ a b, n.Covers source a b := by
  obtain ⟨-, -, ss, same, -⟩ := shape_of_parse h
  have laid := laid_of_parse h
  rw [same] at part laid
  have laid : Node.LaidAll source ss := laid
  cases part with
  | self =>
    have some : ss ≠ [] := fun none => filled "Script" (by rw [none])
    have whole : (Node.branch "Script" ss).Laid source :=
      ⟨⟨⟨some, laid.full⟩, trivial⟩, by simpa [Node.leavesOf, Node.leaves] using laid.placed,
        by simpa [Node.leavesOf, Node.leaves] using laid.ordered⟩
    exact whole.covers
  | inside mem part => exact ((laid.laid mem).part part).covers

end Tree
end WordScript
