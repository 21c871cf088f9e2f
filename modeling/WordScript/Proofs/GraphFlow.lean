import Mathlib.Logic.Relation
import WordScript.Program.Returns
import WordScript.Proofs.GraphBuilding

/-! How control can flow through the blocks of a body.

Between two points of building, control can get from the block that was current to every block made
since, and every new jump leads to a block made since that is still there, or to a given one
outside. A block is ended when it is left, and never again: building goes on in the same way if
ending a block twice is refused. -/
namespace WordScript
namespace BlockGraph

/-- The blocks that control can go to from the end of a block. -/
def Terminator.targets : Terminator → List Nat
  | .ret _ => []
  | .jump n => [n]
  | .branch _ yes no => [yes, no]

def Block.targets (k : Block) : List Nat := (k.term.map Terminator.targets).getD []

def Edge (blocks : List Block) (i j : Nat) : Prop := ∃ k ∈ blocks, k.number = i ∧ j ∈ k.targets

def Path (blocks : List Block) : Nat → Nat → Prop := Relation.ReflTransGen (Edge blocks)

theorem Path.mono (h : ∀ i j, Edge bs i j → Edge cs i j) (p : Path bs i j) :
    Path cs i j := Relation.ReflTransGen.mono (fun i j => h i j) _ _ p

theorem Block.isSome_of_target {k : Block} (h : j ∈ k.targets) : k.term.isSome = true := by
  cases ht : k.term with
  | none =>
    rw [Block.targets, ht] at h
    cases h
  | some t => rfl

section edges

variable {base i j n : Nat} {b c d : Body}

theorem Grows.edge (h : Grows base b c) (e : Edge b.blocks i j) : Edge c.blocks i j := by
  obtain ⟨k, hk, hn, hj⟩ := e
  exact ⟨k, h.closed k hk (Block.isSome_of_target hj), hn, hj⟩

theorem Grows.path (h : Grows base b c) (p : Path b.blocks i j) : Path c.blocks i j :=
  p.mono fun _ _ => h.edge

theorem Grows.number (h : Grows base b c) (hk : k ∈ b.blocks) (hb : k.number ≤ base) :
    ∃ k' ∈ c.blocks, k'.number = k.number := by
  by_cases hn : k.number = b.current
  · obtain ⟨k', hk', hn', -⟩ := h.current k hk hn
    exact ⟨k', hk', hn'⟩
  · cases ht : k.term with
    | none => exact ⟨k, h.waiting k hk ht hn hb, rfl⟩
    | some t => exact ⟨k, h.closed k hk (by rw [ht]; rfl), rfl⟩

theorem edge_onCurrent (hf : ∀ k, (f k).number = k.number) (ht : ∀ k, (f k).term = k.term) :
    Edge (b.onCurrent f).blocks i j ↔ Edge b.blocks i j := by
  have targets : ∀ k, (f k).targets = k.targets := fun k => by rw [Block.targets, ht, Block.targets]
  constructor
  · rintro ⟨k, hk, hn, hj⟩
    obtain ⟨k', hk', rfl⟩ := Body.mem_onCurrent.1 hk
    split at hn <;> split at hj
    · exact ⟨k', hk', (hf k').symm.trans hn, targets k' ▸ hj⟩
    · contradiction
    · contradiction
    · exact ⟨k', hk', hn, hj⟩
  · rintro ⟨k, hk, hn, hj⟩
    refine ⟨_, Body.mem_onCurrent.2 ⟨k, hk, rfl⟩, ?_, ?_⟩
    · split
      · exact (hf k).trans hn
      · exact hn
    · split
      · exact (targets k).symm ▸ hj
      · exact hj

theorem Lengthens.edge (h : Lengthens b c) : Edge c.blocks i j ↔ Edge b.blocks i j := by
  obtain ⟨is, hc⟩ := h.blocks
  rw [hc]
  exact edge_onCurrent (fun _ => rfl) fun _ => rfl

theorem edge_grow : Edge b.grow.blocks i j ↔ Edge b.blocks i j := by
  constructor
  · rintro ⟨k, hk, hn, hj⟩
    rcases List.mem_append.1 hk with hk | hk
    · exact ⟨k, hk, hn, hj⟩
    · rw [List.mem_singleton.1 hk] at hj
      cases hj
  · rintro ⟨k, hk, hn, hj⟩
    exact ⟨k, List.mem_append_left _ hk, hn, hj⟩

theorem edge_close (hs : b.Sound) (ho : b.Open) :
    Edge (b.close t).blocks i j ↔ Edge b.blocks i j ∨ (i = b.current ∧ j ∈ t.targets) := by
  constructor
  · rintro ⟨k, hk, hn, hj⟩
    obtain ⟨k', hk', rfl⟩ := Body.mem_onCurrent.1 hk
    by_cases hk'' : k'.number = b.current
    · rw [if_pos hk''] at hn hj
      exact .inr ⟨hn.symm.trans hk'', hj⟩
    · rw [if_neg hk''] at hn hj
      exact .inl ⟨k', hk', hn, hj⟩
  · rintro (⟨k, hk, hn, hj⟩ | ⟨rfl, hj⟩)
    · have other : k.number ≠ b.current := by
        intro same
        have ended := Block.isSome_of_target hj
        rw [ho k hk same] at ended
        cases ended
      exact ⟨k, Body.mem_onCurrent.2 ⟨k, hk, if_neg other⟩, hn, hj⟩
    · obtain ⟨k, hk, hn⟩ := hs.current
      exact ⟨_, Body.mem_onCurrent.2 ⟨k, hk, if_pos hn⟩, hn, hj⟩

/-- A block that waits has no edges, so that removing it removes none. -/
theorem edge_without (hs : b.Sound) (hw : b.Waits n) :
    Edge (b.without n).blocks i j ↔ Edge b.blocks i j := by
  constructor
  · rintro ⟨k, hk, hn, hj⟩
    exact ⟨k, List.mem_of_mem_filter hk, hn, hj⟩
  · rintro ⟨k, hk, hn, hj⟩
    refine ⟨k, List.mem_filter.2 ⟨hk, decide_eq_true ?_⟩, hn, hj⟩
    intro same
    rw [hs.unique hk hw.mem same] at hj
    cases hj

theorem Lengthens.block (h : Lengthens b c) (hk : k ∈ c.blocks) :
    ∃ k' ∈ b.blocks, k'.number = k.number ∧ k'.term = k.term ∧ (k.number ≠ c.current → k' = k) := by
  have current := h.current
  obtain ⟨is, hc⟩ := h.blocks
  rw [hc] at hk
  obtain ⟨k', hk', rfl⟩ := Body.mem_onCurrent.1 hk
  refine ⟨k', hk', ?_⟩
  by_cases hn : k'.number = b.current
  · rw [if_pos hn]
    exact ⟨rfl, rfl, fun other => absurd (hn.trans current.symm) other⟩
  · rw [if_neg hn]
    exact ⟨rfl, rfl, fun _ => rfl⟩

end edges

/-- What was built from one body to another. Blocks that wait for their code are listed, and so are
the blocks outside that control can get to. -/
structure Weaves (wait out : List Nat) (b c : Body) : Prop where
  made : b.made ≤ c.made
  unended : ∀ k ∈ c.blocks, k.term = none → k.number ≠ c.current →
    k.number ∈ wait ∨ k ∈ b.blocks ∧ k.number ≠ b.current
  reached : ∀ k ∈ c.blocks, b.made < k.number →
    k.number ∈ wait ∨ Path c.blocks b.current k.number
  current : Path c.blocks b.current c.current
  edges : ∀ i j, Edge c.blocks i j → Edge b.blocks i j ∨
    (b.made < j ∧ ∃ k ∈ c.blocks, k.number = j) ∨ j ∈ out
  outs : ∀ j ∈ out, Path c.blocks b.current j
  kept : ∀ k ∈ c.blocks, k.number ≤ b.made → ∃ k' ∈ b.blocks, k'.number = k.number

namespace Weaves

variable {wait out wait' out' : List Nat} {b c d e g : Body} {n yes no bit : Nat}

theorem lengthens (hs : b.Sound) (h : Lengthens b c) : Weaves [] [] b c where
  made := Nat.le_of_eq h.made.symm
  unended k hk ht hn := by
    obtain ⟨k', hk', -, -, same⟩ := h.block hk
    obtain rfl := same hn
    exact .inr ⟨hk', h.current ▸ hn⟩
  reached k hk hb := by
    obtain ⟨k', hk', hn, -⟩ := h.block hk
    have counted := hs.counted k' hk'
    omega
  current := h.current ▸ .refl
  edges i j e := .inl (h.edge.1 e)
  outs := nofun
  kept k hk _ := by
    obtain ⟨k', hk', hn, -⟩ := h.block hk
    exact ⟨k', hk', hn⟩

theorem grow (b : Body) (hs : b.Sound) : Weaves [b.made + 1] [] b b.grow where
  made := Nat.le_succ _
  unended k hk ht hn := by
    rcases List.mem_append.1 hk with hk | hk
    · exact .inr ⟨hk, hn⟩
    · rw [List.mem_singleton.1 hk]
      exact .inl (List.mem_singleton_self _)
  reached k hk hb := by
    rcases List.mem_append.1 hk with hk | hk
    · exact absurd (hs.counted k hk) (Nat.not_le.2 hb)
    · rw [List.mem_singleton.1 hk]
      exact .inl (List.mem_singleton_self _)
  current := .refl
  edges i j e := .inl (edge_grow.1 e)
  outs := nofun
  kept k hk hb := by
    rcases List.mem_append.1 hk with hk | hk
    · exact ⟨k, hk, rfl⟩
    · rw [List.mem_singleton.1 hk] at hb
      exact absurd hb (Nat.not_succ_le_self _)

/-- What waits in the middle may be used up later, so that the blocks that wait are given anew. -/
theorem trans (h : Weaves wait out b d) (g : Weaves wait' out' d c) (grows : Grows d.made d c)
    (hd : d.Sound) : Weaves (wait ++ wait') (out ++ out') b c where
  made := Nat.le_trans h.made g.made
  unended k hk ht hn := by
    rcases g.unended k hk ht hn with hw | ⟨hk, hn⟩
    · exact .inl (List.mem_append_right _ hw)
    · exact (h.unended k hk ht hn).imp_left (List.mem_append_left _)
  reached k hk hb := by
    by_cases new : d.made < k.number
    · rcases g.reached k hk new with hw | path
      · exact .inl (List.mem_append_right _ hw)
      · exact .inr ((grows.path h.current).trans path)
    · obtain ⟨k', hk', hn⟩ := g.kept k hk (Nat.not_lt.1 new)
      rcases h.reached k' hk' (hn ▸ hb) with hw | path
      · exact .inl (List.mem_append_left _ (hn ▸ hw))
      · exact .inr (grows.path (hn ▸ path))
  current := (grows.path h.current).trans g.current
  edges i j e := by
    rcases g.edges i j e with e | ⟨new, there⟩ | hj
    · rcases h.edges i j e with e | ⟨new, k, hk, rfl⟩ | hj
      · exact .inl e
      · exact .inr (.inl ⟨new, grows.number hk (hd.counted k hk)⟩)
      · exact .inr (.inr (List.mem_append_left _ hj))
    · exact .inr (.inl ⟨Nat.lt_of_le_of_lt h.made new, there⟩)
    · exact .inr (.inr (List.mem_append_right _ hj))
  outs j hj := by
    rcases List.mem_append.1 hj with hj | hj
    · exact grows.path (h.outs j hj)
    · exact (grows.path h.current).trans (g.outs j hj)
  kept k hk hb := by
    obtain ⟨k', hk', hn⟩ := g.kept k hk (Nat.le_trans hb h.made)
    obtain ⟨k'', hk'', hn'⟩ := h.kept k' hk' (hn ▸ hb)
    exact ⟨k'', hk'', hn'.trans hn⟩

theorem close (hs : b.Sound) (ho : b.Open) (t : Terminator) : Weaves [] t.targets b (b.close t) where
  made := Nat.le_refl _
  unended k hk ht hn := by
    obtain ⟨k', hk', rfl⟩ := Body.mem_onCurrent.1 hk
    by_cases same : k'.number = b.current
    · rw [if_pos same] at ht
      cases ht
    · rw [if_neg same]
      exact .inr ⟨hk', same⟩
  reached k hk hb := by
    have counted := (hs.close t).counted k hk
    exact absurd counted (Nat.not_le.2 hb)
  current := .refl
  edges i j e := by
    rcases (edge_close hs ho).1 e with e | ⟨-, hj⟩
    · exact .inl e
    · exact .inr (.inr hj)
  outs j hj := .single ((edge_close hs ho).2 (.inr ⟨rfl, hj⟩))
  kept k hk _ := by
    obtain ⟨k', hk', rfl⟩ := Body.mem_onCurrent.1 hk
    refine ⟨k', hk', ?_⟩
    split <;> rfl

theorem settle (hs : b.Sound) (t : Terminator) :
    Weaves [] (if b.isOpen then t.targets else []) b (b.settle t) := by
  rw [Body.settle]
  cases hopen : b.isOpen with
  | true => exact close hs (Body.isOpen_iff.1 hopen) t
  | false => exact lengthens hs (.refl b)

theorem goto (h : Weaves wait out b c) (he : c.Ended) (hp : Path c.blocks b.current n)
    (hw : ∀ m ∈ wait, m = n ∨ m ∈ wait') : Weaves wait' out b (c.goto n) where
  made := h.made
  unended k hk ht hn := by
    have other : k.number ≠ c.current := by
      intro same
      have ended := he k hk same
      rw [ht] at ended
      cases ended
    refine (h.unended k hk ht other).imp_left fun hk => ?_
    exact (hw _ hk).resolve_left hn
  reached k hk hb := by
    rcases h.reached k hk hb with hk | path
    · rcases hw _ hk with rfl | hk
      · exact .inr hp
      · exact .inl hk
    · exact .inr path
  current := hp
  edges := h.edges
  outs := h.outs
  kept := h.kept

theorem narrow (h : Weaves wait out b c) (sub : ∀ j ∈ out', j ∈ out)
    (ho : ∀ j ∈ out, j ∈ out' ∨ b.made < j ∧ ∃ k ∈ c.blocks, k.number = j) :
    Weaves wait out' b c where
  made := h.made
  unended := h.unended
  reached := h.reached
  current := h.current
  edges i j e := by
    rcases h.edges i j e with e | new | hj
    · exact .inl e
    · exact .inr (.inl new)
    · exact .inr (ho j hj).symm
  outs j hj := h.outs j (sub j hj)
  kept := h.kept

/-- The code that runs if a condition holds is woven in, and the block for what comes after is
entered. -/
theorem fork (h : Weaves [yes, no] [] b d) (forks : Forks b.made d yes no)
    (inner : Weaves [] [] ((d.close (.branch bit yes no)).goto yes) g)
    (builds : Builds ((d.close (.branch bit yes no)).goto yes) g) (target : Nat) :
    Weaves [] (if g.isOpen then [target] else []) b ((g.jump target).goto no) := by
  have closes : Grows d.made d (d.close (.branch bit yes no)) := .close forks.opened _
  have ended := h.trans (close forks.sound forks.opened (.branch bit yes no)) closes forks.sound
  have entered : Weaves [no] [yes, no] b ((d.close (.branch bit yes no)).goto yes) :=
    ended.goto (Body.Ended.close d _) (ended.outs yes (by simp [Terminator.targets])) (by simp)
  have through := (entered.trans inner builds.grows (forks.inside_sound _)).trans
    (settle builds.sound (.jump target)) (.settle _ _ _) builds.sound
  have left : Weaves [] _ b ((g.jump target).goto no) :=
    through.goto (builds.sound.settle_ended _) (through.outs no (by simp)) (by simp)
  -- Both blocks of the fork are new, and both are still there.
  have waits : ((d.close (.branch bit yes no)).goto yes).blocks =
      (d.close (.branch bit yes no)).blocks := rfl
  obtain ⟨k, hk, hn⟩ := builds.grows.number (waits ▸ (forks.waitsYes.close _).mem)
    (forks.waitsYes.le_made forks.sound)
  have thereYes := (Grows.settle k.number (.jump target) g).number hk (Nat.le_refl _)
  rw [hn] at thereYes
  have thereNo := (forks.after_sound builds target).current
  refine left.narrow ?_ ?_
  · intro j hj
    exact List.mem_append_right _ hj
  · intro j hj
    rcases List.mem_append.1 hj with hj | hj
    · rcases List.mem_pair.1 hj with rfl | rfl
      · exact .inr ⟨forks.yesNew, thereYes⟩
      · exact .inr ⟨forks.noNew, thereNo⟩
    · exact .inl hj

end Weaves

section weaving

variable {ctx : Context}
variable {b c : Body}

theorem header_weaves (hs : b.Sound) (ho : b.Open) :
    Weaves [b.made + 2, b.made + 3] [] b
      ((b.grow.grow.grow.close (.jump (b.made + 1))).goto (b.made + 1)) := by
  have start := ((Weaves.grow b hs).trans (.grow _ hs.grow) (.grow _ _) hs.grow).trans
    (.grow _ hs.grow.grow) (.grow _ _) hs.grow.grow
  have sound := hs.grow.grow.grow
  have opened := ho.grow.grow.grow
  have ended := start.trans (.close sound opened (.jump (b.made + 1))) (.close opened _) sound
  have entered : Weaves [b.made + 2, b.made + 3] _ b
      ((b.grow.grow.grow.close (.jump (b.made + 1))).goto (b.made + 1)) :=
    ended.goto (Body.Ended.close _ _) (ended.outs (b.made + 1) (by simp [Terminator.targets]))
      (by simp [Body.grow])
  have header := ((Body.Waits.new hs).grow.grow).close (.jump (b.made + 1))
  refine entered.narrow (by simp) ?_
  intro j hj
  obtain rfl : j = b.made + 1 := by simpa [Terminator.targets] using hj
  exact .inr ⟨Nat.lt_succ_self _, _, header.mem, rfl⟩

/-- A block that was made first and that control cannot get to is removed. -/
theorem removed_weaves (sound : c.Sound) (waits : c.Waits (b.made + 1))
    (h : Weaves [] [] b.grow c) : Weaves [] [] b (c.without (b.made + 1)) where
  made := Nat.le_of_succ_le h.made
  unended k hk ht hn := by
    obtain ⟨hk, other⟩ := List.mem_filter.1 hk
    obtain ⟨hk, hn⟩ := (h.unended k hk ht hn).resolve_left List.not_mem_nil
    rcases List.mem_append.1 hk with hk | hk
    · exact .inr ⟨hk, hn⟩
    · rw [List.mem_singleton.1 hk] at other
      simp at other
  reached k hk hb := by
    obtain ⟨hk, other⟩ := List.mem_filter.1 hk
    have new : b.made + 1 < k.number := Nat.lt_of_le_of_ne hb (of_decide_eq_true other).symm
    have path := (h.reached k hk new).resolve_left List.not_mem_nil
    exact .inr (path.mono fun _ _ => (edge_without sound waits).2)
  current := h.current.mono fun _ _ => (edge_without sound waits).2
  edges i j e := by
    rcases h.edges i j ((edge_without sound waits).1 e) with e | ⟨new, k, hk, rfl⟩ | hj
    · exact .inl (edge_grow.1 e)
    · have other : k.number ≠ b.made + 1 := Nat.ne_of_gt new
      exact .inr (.inl ⟨Nat.lt_of_succ_lt new, k, List.mem_filter.2 ⟨hk, decide_eq_true other⟩, rfl⟩)
    · cases hj
  outs := nofun
  kept k hk hb := by
    obtain ⟨k', hk', hn⟩ := h.kept k (List.mem_of_mem_filter hk) (Nat.le_succ_of_le hb)
    rcases List.mem_append.1 hk' with hk' | hk'
    · exact ⟨k', hk', hn⟩
    · rw [List.mem_singleton.1 hk'] at hn
      change b.made + 1 = k.number at hn
      omega

/-- The exit of a conditional is entered if control can get to it, and removed otherwise. -/
theorem exit_weaves {g : Body} (hs : b.Sound) (sound : g.Sound) (waits : g.Waits (b.made + 1))
    (h : Weaves [] out b.grow (g.jump (b.made + 1)))
    (grows : Grows b.grow.made b.grow (g.jump (b.made + 1))) (ho : ∀ j ∈ out, j = b.made + 1)
    (hr : reached = true ↔ b.made + 1 ∈ out) :
    Weaves [] [] b (if reached then (g.jump (b.made + 1)).goto (b.made + 1)
      else (g.jump (b.made + 1)).without (b.made + 1)) := by
  have stays := (Grows.settle (b.made + 1) (.jump (b.made + 1)) g).waits waits (Nat.le_refl _)
  cases reached with
  | true =>
    have whole := (Weaves.grow b hs).trans h grows hs.grow
    have entered : Weaves [] _ b ((g.jump (b.made + 1)).goto (b.made + 1)) :=
      whole.goto (sound.settle_ended _) (whole.outs _ (hr.1 rfl)) (by simp)
    refine entered.narrow nofun ?_
    intro j hj
    obtain rfl := ho j hj
    exact .inr ⟨Nat.lt_succ_self _, _, stays.mem, rfl⟩
  | false =>
    obtain rfl : out = [] := by
      rw [List.eq_nil_iff_forall_not_mem]
      intro j hj
      have same := ho j hj
      exact absurd (hr.2 (same ▸ hj)) (by decide)
    exact removed_weaves (sound.settle _) stays h

theorem Body.Sound.isOpen_eq_false (h : b.Sound) (he : b.Ended) : b.isOpen = false := by
  obtain ⟨k, hk, hn⟩ := h.current
  rw [Bool.eq_false_iff, ne_eq, Body.isOpen_iff]
  intro hopen
  have ended := he k hk hn
  rw [hopen k hk hn] at ended
  cases ended

theorem Body.Ended.without (h : b.Ended) : (b.without n).Ended :=
  fun k hk => h k (List.mem_of_mem_filter hk)

/-- A conditional is left with an open block if and only if one of its branches reaches the exit. -/
theorem exit_isOpen {g : Body} (hs : g.Sound) (hw : g.Waits exit)
    (hr : g.isOpen = true → reached = true) :
    (if reached then (g.jump exit).goto exit else (g.jump exit).without exit).isOpen = reached := by
  have waits := (Grows.settle exit (.jump exit) g).waits hw (Nat.le_refl _)
  cases reached with
  | true => exact Body.isOpen_iff.2 ((hs.settle _).goto_open waits)
  | false =>
    have sound := (hs.settle (.jump exit)).without waits.apart
    exact sound.isOpen_eq_false (hs.settle_ended _).without

/-- What was built is woven into what was there before, and its last block is open unless it
returns. -/
structure Woven (returns : Bool) (b c : Body) : Prop extends Builds b c where
  weaves : Weaves [] [] b c
  isOpen : c.isOpen = !returns

/-- What was built before the last block is open again. It is told whether control can get to the
exit. -/
structure Branches (exit : Nat) (reached returns : Bool) (b c : Body) : Prop
    extends Builds b c where
  opened : c.Open
  weaves : Weaves [] (if reached then [exit] else []) b c
  reaches : reached = !returns

theorem Lengthens.woven (h : Lengthens b c) (hs : b.Sound) (ho : b.Open) : Woven false b c :=
  ⟨h.builds hs ho, .lengthens hs h, Body.isOpen_iff.2 (h.opened ho)⟩

theorem branch_branches
    (hbody : ∀ {b c}, stmts ctx body b = .ok ((), c) → b.Sound → b.Open → Woven (Stmt.anyReturns body) b c)
    (h : branch ctx exit e (stmts ctx body) b = .ok (reached, c)) (hs : b.Sound) (ho : b.Open) :
    Branches exit reached (Stmt.anyReturns body) b c := by
  obtain ⟨bit, d, g, hcond, hg, rfl, rfl⟩ := branch_ok h
  have test := condition_lengthens hcond
  have forks := (Forks.branch hs ho).lengthens test
  have inside := hbody hg (forks.inside_sound _) (forks.inside_open _)
  have two := (Grows.grow b.made b).trans (.grow _ _)
  have start := ((Weaves.grow b hs).trans (.grow _ hs.grow) (.grow _ _) hs.grow).trans
    (.lengthens hs.grow.grow test) (test.grows ho.grow.grow) hs.grow.grow
  have grows := (two.trans (test.grows ho.grow.grow)).trans (forks.grows inside.toBuilds exit)
  exact ⟨⟨forks.after_sound inside.toBuilds exit, grows⟩, forks.after_open inside.toBuilds exit,
    start.fork forks inside.weaves inside.toBuilds exit, inside.isOpen⟩

mutual

theorem stmt_woven : (s : Stmt) → ∀ {b c}, stmt ctx s b = .ok ((), c) → b.Sound → b.Open →
    Woven s.returns b c
  | .pass span, b, c, h, hs, ho => by
    cases h
    exact (Lengthens.refl b).woven hs ho
  | .assign span x scope e, b, c, h, hs, ho => by
    obtain ⟨cell, v, d, -, he, rfl⟩ := stmt_assign_ok h
    exact ((expr_lengthens e he).1.trans (.append _ _)).woven hs ho
  | .expr span e, b, c, h, hs, ho => by
    obtain ⟨v, d, he, rfl⟩ := stmt_expr_ok h
    have first := (expr_lengthens e he).1
    cases ctx.scratch with
    | none => exact first.woven hs ho
    | some id => exact (first.trans (.append _ _)).woven hs ho
  | .ret span e, b, c, h, hs, ho => by
    obtain ⟨v, d, he, rfl⟩ := stmt_ret_ok h
    have first := (expr_lengthens e he).1
    have opened := first.opened ho
    have sound := first.sound hs
    have last := Weaves.close sound opened (.ret (some v))
    exact ⟨⟨sound.close _, (first.grows ho).trans (.close opened _)⟩,
      (Weaves.lengthens hs first).trans last (.close opened _) sound,
      (sound.close _).isOpen_eq_false (.close d _)⟩
  | .while span e body, b, c, h, hs, ho => by
    obtain ⟨bit, d, g, hcond, hg, rfl⟩ := stmt_while_ok h
    have test := condition_lengthens hcond
    have header := Forks.loop hs
    have forks := header.lengthens test
    have inside := stmts_woven body hg (forks.inside_sound _) (forks.inside_open _)
    have builds := inside.toBuilds
    have start := (header_weaves hs ho).trans (.lengthens header.sound test)
      (test.grows header.opened) header.sound
    have grows := ((loop_grows ho).trans (test.grows header.opened)).trans
      (forks.grows builds (b.made + 1))
    refine ⟨⟨forks.after_sound builds _, grows⟩, ?_,
      Body.isOpen_iff.2 (forks.after_open builds _)⟩
    -- The header is new, so that jumping back to it does not lead outside.
    refine (start.fork forks inside.weaves builds (b.made + 1)).narrow nofun ?_
    obtain ⟨k, hk, hn⟩ := forks.sound.current
    obtain ⟨k', hk', hn', -⟩ := (forks.grows builds (b.made + 1)).current k hk hn
    have there : k'.number = b.made + 1 := hn'.trans (hn.trans test.current)
    intro j hj
    obtain rfl : j = b.made + 1 := by
      cases hg : g.isOpen <;> simp_all
    exact .inr ⟨Nat.lt_succ_self _, k', hk', there⟩
  | .cond span e body clauses otherwise, b, c, h, hs, ho => by
    obtain ⟨first, others, d, d', g, hfirst, hothers, hlast, rfl⟩ := stmt_cond_ok h
    have one := branch_branches (stmts_woven body) hfirst hs.grow ho.grow
    have two := elifs_branch clauses hothers one.sound one.opened
    have three := stmts_woven otherwise hlast two.sound two.opened
    have inner := (one.toBuilds.trans two.toBuilds).trans three.toBuilds
    -- The exit waits while the branches are built, and it is new.
    have waits := inner.waits hs.grow (.new hs)
    obtain ⟨sound, last⟩ := exit_builds three.sound waits (Nat.lt_succ_self b.made)
      (first || others || g.isOpen)
    have grows := (Grows.grow b.made b).trans (inner.grows.mono (Nat.le_succ _))
    have woven := ((one.weaves.trans two.weaves two.grows one.sound).trans three.weaves three.grows
      two.sound).trans (.settle three.sound (.jump (b.made + 1))) (.settle _ _ _) three.sound
    refine ⟨⟨sound, (grows.trans (.settle _ _ g)).trans last⟩,
      exit_weaves hs three.sound waits woven (inner.grows.trans (.settle _ _ g)) ?_ ?_, ?_⟩
    · cases first <;> cases others <;> simp [Terminator.targets]
    · cases first <;> simp [Terminator.targets]
    · rw [exit_isOpen three.sound waits (by simp +contextual), three.isOpen, one.reaches,
        two.reaches]
      simp [Stmt.returns]
  | .unknown span, b, c, h, _, _ => by cases h

theorem stmts_woven : (ss : List Stmt) → ∀ {b c}, stmts ctx ss b = .ok ((), c) → b.Sound →
    b.Open → Woven (Stmt.anyReturns ss) b c
  | [], b, c, h, hs, ho => by
    cases h
    exact (Lengthens.refl b).woven hs ho
  | s :: rest, b, c, h, hs, ho => by
    obtain ⟨d, hd, hrest⟩ := stmts_cons_ok h
    have head := stmt_woven s hd hs ho
    rcases hrest with ⟨hopen, hrest⟩ | ⟨hended, rfl⟩
    · have others := stmts_woven rest hrest head.sound (Body.isOpen_iff.1 hopen)
      refine ⟨head.toBuilds.trans others.toBuilds,
        head.weaves.trans others.weaves others.grows head.sound, ?_⟩
      rw [others.isOpen, Stmt.anyReturns, Bool.not_or, ← head.isOpen, hopen, Bool.true_and]
    · refine ⟨head.toBuilds, head.weaves, ?_⟩
      rw [Stmt.anyReturns, Bool.not_or, ← head.isOpen, hended, Bool.false_and]

theorem elifs_branch : (es : List Elif) → ∀ {exit b c reached},
    elifs ctx exit es b = .ok (reached, c) → b.Sound → b.Open →
      Branches exit reached (Stmt.everyReturns es) b c
  | [], exit, b, c, reached, h, hs, ho => by
    cases h
    exact ⟨(Lengthens.refl b).builds hs ho, ho, .lengthens hs (.refl b), rfl⟩
  | .mk span e body :: rest, exit, b, c, reached, h, hs, ho => by
    obtain ⟨first, others, d, hfirst, hothers, rfl⟩ := elifs_cons_ok h
    have one := branch_branches (stmts_woven body) hfirst hs ho
    have two := elifs_branch rest hothers one.sound one.opened
    refine ⟨one.toBuilds.trans two.toBuilds, two.opened,
      (one.weaves.trans two.weaves two.grows one.sound).narrow ?_ ?_, ?_⟩
    · cases first <;> simp
    · cases first <;> cases others <;> simp
    · rw [one.reaches, two.reaches, Stmt.everyReturns, Elif.returns, Bool.not_and]

end

theorem stmt_builds (h : stmt ctx s b = .ok ((), c)) (hs : b.Sound) (ho : b.Open) :
    Builds b c := (stmt_woven s h hs ho).toBuilds

theorem stmts_build (h : stmts ctx ss b = .ok ((), c)) (hs : b.Sound) (ho : b.Open) :
    Builds b c := (stmts_woven ss h hs ho).toBuilds

end weaving

/-- Ends the current block, and refuses to do so twice. -/
def endOnce (t : Terminator) : Build Unit := do
  if ← isOpen then terminate t else throw .crash

def branchOnce (ctx : Context) (exit : Nat) (c : Expr) (body : Build Unit) : Build Bool := do
  let thenBlock ← newBlock
  let elseBlock ← newBlock
  let bit ← condition ctx c
  endOnce (.branch bit thenBlock elseBlock)
  enter thenBlock
  body
  let reached ← jumpIfOpen exit
  enter elseBlock
  return reached

mutual

def stmtOnce (ctx : Context) : Stmt → Build Unit
  | .ret _ e => do
    let v ← expr ctx e
    endOnce (.ret (some v))
  | .while _ c body => do
    let header ← newBlock
    let inside ← newBlock
    let exit ← newBlock
    endOnce (.jump header)
    enter header
    let bit ← condition ctx c
    endOnce (.branch bit inside exit)
    enter inside
    stmtsOnce ctx body
    let _ ← jumpIfOpen header
    enter exit
  | .cond _ c body clauses otherwise => do
    let exit ← newBlock
    let first ← branchOnce ctx exit c (stmtsOnce ctx body)
    let others ← elifsOnce ctx exit clauses
    stmtsOnce ctx otherwise
    let last ← jumpIfOpen exit
    if first || others || last then enter exit else removeBlock exit
  | s => stmt ctx s

def stmtsOnce (ctx : Context) : List Stmt → Build Unit
  | [] => pure ()
  | s :: rest => do
    stmtOnce ctx s
    if ← isOpen then stmtsOnce ctx rest

def elifsOnce (ctx : Context) (exit : Nat) : List Elif → Build Bool
  | [] => return false
  | .mk _ c body :: rest => do
    let first ← branchOnce ctx exit c (stmtsOnce ctx body)
    let others ← elifsOnce ctx exit rest
    return first || others

end

/-- The body of a function, built without ending a block twice. -/
def funcBodyOnce (ctx : Context) (count : Nat) (f : FuncDef) : Build Unit := do
  let params ← paramSlots count 0 f.params
  let locals ← localSlots f.locals
  let slots := locals.reverse ++ params.reverse
  stmtsOnce { ctx with slots } f.body
  if ← isOpen then endOnce (.ret (some (.ofInt (defaultValue f.returns))))

/-- The body of the top level, built without ending a block twice. -/
def startBodyOnce (ctx : Context) (body : List Stmt) : Build Unit := do
  let scratch ← newSlot (.ofInt 0)
  stmtsOnce { ctx with scratch := some scratch } body
  if hasResult body then
    let v ← emitResult fun id => .load id (.slot scratch)
    endOnce (.ret (some (.result v)))
  else endOnce (.ret none)

section once

variable {α β : Type} {ctx : Context} {b : Body}

theorem endOnce_run (t : Terminator) (ho : b.Open) : endOnce t b = terminate t b := by
  rw [endOnce, build_bind_run (isOpen_run b), Body.isOpen_iff.2 ho]
  rfl

theorem build_bind_congr {f : α → Build β} (h : ∀ a c, x b = .ok (a, c) → f a c = g a c) :
    (x >>= f) b = (x >>= g) b := by
  cases hx : x b with
  | error e => simp only [Bind.bind, StateT.bind, hx, Except.bind]
  | ok r =>
    rw [build_bind_run hx, build_bind_run hx]
    exact h r.1 r.2 hx

theorem build_bind_left (h : x b = y b) (f : α → Build β) : (x >>= f) b = (y >>= f) b := by
  simp only [Bind.bind, StateT.bind, h]

theorem branch_once (hs : b.Sound) (ho : b.Open)
    (h : ∀ b : Body, b.Sound → b.Open → once b = body b) :
    branchOnce ctx exit e once b = branch ctx exit e body b := by
  refine build_bind_congr fun yes c hc => ?_
  cases hc
  refine build_bind_congr fun no c hc => ?_
  cases hc
  refine build_bind_congr fun bit d hcond => ?_
  have forks := (Forks.branch hs ho).lengthens (condition_lengthens hcond)
  refine (build_bind_left (endOnce_run _ forks.opened) _).trans ?_
  rw [build_bind_run (terminate_run _ _), build_bind_run (enter_run _ _)]
  exact build_bind_left (h _ (forks.inside_sound _) (forks.inside_open _)) _

mutual

theorem stmt_once : (s : Stmt) → ∀ {b : Body}, b.Sound → b.Open → stmtOnce ctx s b = stmt ctx s b
  | .pass span, b, _, _ => by rw [stmtOnce] <;> simp
  | .assign span x scope e, b, _, _ => by rw [stmtOnce] <;> simp
  | .expr span e, b, _, _ => by rw [stmtOnce] <;> simp
  | .unknown span, b, _, _ => by rw [stmtOnce] <;> simp
  | .ret span e, b, _, ho => by
    refine build_bind_congr fun v d he => ?_
    exact endOnce_run _ ((expr_lengthens e he).1.opened ho)
  | .while span e body, b, hs, ho => by
    refine build_bind_congr fun header c hc => ?_
    cases hc
    refine build_bind_congr fun inside c hc => ?_
    cases hc
    refine build_bind_congr fun exit c hc => ?_
    cases hc
    refine (build_bind_left (endOnce_run _ ho.grow.grow.grow) _).trans ?_
    refine build_bind_congr fun _ c hc => ?_
    cases hc
    refine build_bind_congr fun _ c hc => ?_
    cases hc
    refine build_bind_congr fun bit d hcond => ?_
    have forks := (Forks.loop hs).lengthens (condition_lengthens hcond)
    refine (build_bind_left (endOnce_run _ forks.opened) _).trans ?_
    refine build_bind_congr fun _ c hc => ?_
    cases hc
    refine build_bind_congr fun _ c hc => ?_
    cases hc
    exact build_bind_left (stmts_once body (forks.inside_sound _) (forks.inside_open _)) _
  | .cond span e body clauses otherwise, b, hs, ho => by
    refine build_bind_congr fun exit c hc => ?_
    cases hc
    refine (build_bind_left (branch_once hs.grow ho.grow fun b => stmts_once body) _).trans ?_
    refine build_bind_congr fun first d hfirst => ?_
    have one := branch_branches (stmts_woven body) hfirst hs.grow ho.grow
    refine (build_bind_left (elifs_once clauses one.sound one.opened) _).trans ?_
    refine build_bind_congr fun others d' hothers => ?_
    have two := elifs_branch clauses hothers one.sound one.opened
    exact build_bind_left (stmts_once otherwise two.sound two.opened) _

theorem stmts_once : (ss : List Stmt) → ∀ {b : Body}, b.Sound → b.Open →
    stmtsOnce ctx ss b = stmts ctx ss b
  | [], b, _, _ => by rw [stmtsOnce, stmts]
  | s :: rest, b, hs, ho => by
    refine (build_bind_left (stmt_once s hs ho) _).trans ?_
    refine build_bind_congr fun _ d hd => ?_
    rw [build_bind_run (isOpen_run d), build_bind_run (isOpen_run d)]
    cases hopen : d.isOpen with
    | false => rfl
    | true =>
      exact stmts_once rest (stmt_builds hd hs ho).sound (Body.isOpen_iff.1 hopen)

theorem elifs_once : (es : List Elif) → ∀ {exit : Nat} {b : Body}, b.Sound → b.Open →
    elifsOnce ctx exit es b = elifs ctx exit es b
  | [], exit, b, _, _ => by rw [elifsOnce, elifs]
  | .mk span e body :: rest, exit, b, hs, ho => by
    refine (build_bind_left (branch_once hs ho fun b => stmts_once body) _).trans ?_
    refine build_bind_congr fun first d hfirst => ?_
    have one := branch_branches (stmts_woven body) hfirst hs ho
    exact build_bind_left (elifs_once rest one.sound one.opened) _

end

end once

end BlockGraph
end WordScript
