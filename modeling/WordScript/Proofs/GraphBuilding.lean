import Mathlib.Data.List.Nodup
import Mathlib.Tactic.Common
import WordScript.BlockGraph.Lowering

/-! How a body grows while it is built.

A body is built by steps that can stop. What each step leaves is stated as an equation, and from
these it follows what a whole statement can do to a body: blocks that are ended stay as they are,
the current block only gets longer until it is ended, and blocks made earlier that wait for their
code are left alone. -/
namespace WordScript
namespace BlockGraph

variable {b c : Body}

section

-- The equations are derived here, once for all proofs below.
attribute [local simp] expr arguments stmt stmts elifs

end

theorem build_bind_ok {α β : Type} {x : Build α} {f : α → Build β} {r : β × Body} :
    (x >>= f) b = .ok r ↔ ∃ a c, x b = .ok (a, c) ∧ f a c = .ok r := by
  simp only [Bind.bind, StateT.bind, Except.bind]
  cases x b with
  | error e => simp
  | ok p =>
    constructor
    · intro h
      exact ⟨p.1, p.2, rfl, h⟩
    · rintro ⟨a, c, hp, h⟩
      cases hp
      exact h

theorem build_bind_run {α β : Type} {x : Build α} {a : α} (h : x b = .ok (a, c)) (f : α → Build β) :
    (x >>= f) b = f a c := by
  simp only [Bind.bind, StateT.bind, h, Except.bind]

namespace Body

def onCurrent (b : Body) (f : Block → Block) : Body :=
  { b with blocks := b.blocks.map fun k => if k.number = b.current then f k else k }

def append (b : Body) (i : Inst) : Body := b.onCurrent fun k => { k with insts := k.insts ++ [i] }

def give (b : Body) (inst : Nat → Inst) : Body :=
  { b.append (inst b.results) with results := b.results + 1 }

def close (b : Body) (t : Terminator) : Body := b.onCurrent fun k => { k with term := some t }

def grow (b : Body) : Body :=
  { b with made := b.made + 1, blocks := b.blocks ++ [⟨b.made + 1, [], none⟩] }

def goto (b : Body) (n : Nat) : Body := { b with current := n }

def without (b : Body) (n : Nat) : Body := { b with blocks := b.blocks.filter (·.number ≠ n) }

def isOpen (b : Body) : Bool := b.blocks.all fun k => k.number ≠ b.current || k.term.isNone

/-- Ends the current block unless it is ended. -/
def settle (b : Body) (t : Terminator) : Body := if b.isOpen then b.close t else b

abbrev jump (b : Body) (n : Nat) : Body := b.settle (.jump n)

end Body

section steps

variable (b : Body)

theorem emit_run (i : Inst) : emit i b = .ok ((), b.append i) := rfl

theorem emitResult_run (inst : Nat → Inst) :
    emitResult inst b = .ok (b.results, b.give inst) := rfl

theorem terminate_run (t : Terminator) : terminate t b = .ok ((), b.close t) := rfl

theorem newBlock_run : newBlock b = .ok (b.made + 1, b.grow) := rfl

theorem removeBlock_run (n : Nat) : removeBlock n b = .ok ((), b.without n) := rfl

theorem enter_run (n : Nat) : enter n b = .ok ((), b.goto n) := rfl

theorem isOpen_run : isOpen b = .ok (b.isOpen, b) := rfl

theorem jumpIfOpen_run (n : Nat) : jumpIfOpen n b = .ok (b.isOpen, b.jump n) := by
  have opens : jumpIfOpen n b =
      (if b.isOpen then terminate (.jump n) >>= fun _ => pure true else pure false : Build Bool) b :=
    rfl
  rw [opens, Body.jump, Body.settle]
  cases b.isOpen <;> rfl

theorem newSlot_run (v : Operand) :
    newSlot v b = .ok (b.results, (b.give .alloca).append (.store v (.slot b.results))) := rfl

end steps

section inversion

variable {ctx : Context} {b c : Body} {span : Span} {type : Option Ty} {v : Operand}

theorem cell_ok (h : ctx.cell span x scope b = .ok (cell, c)) :
    c = b ∧ ((scope = .slot ∧ ∃ id, ctx.slots.lookup x = some id ∧ cell = .slot id) ∨
      (scope = .global ∧ x ∈ ctx.globals ∧ cell = .global x)) := by
  cases scope with
  | unresolved => cases h
  | other code => cases h
  | slot =>
    cases hl : ctx.slots.lookup x with
    | none =>
      simp only [Context.cell, hl] at h
      cases h
    | some id =>
      simp only [Context.cell, hl] at h
      cases h
      exact ⟨rfl, .inl ⟨rfl, id, rfl, rfl⟩⟩
  | global =>
    simp only [Context.cell] at h
    by_cases hx : ctx.globals.contains x = true
    · rw [if_pos hx] at h
      cases h
      exact ⟨rfl, .inr ⟨rfl, List.contains_iff_mem.1 hx, rfl⟩⟩
    · rw [if_neg hx] at h
      cases h

/-- The function that is meant by a call: `print` stands for the printer of its argument. -/
inductive Named : String → List Expr → String → Prop
  | print {arg : Expr} {rest : List Expr} {name : String} (h : printer? arg.type = some name) :
      Named "print" (arg :: rest) name
  | other {f : String} (args : List Expr) (h : f ≠ "print") : Named f args f

theorem callee_ok (h : ctx.callee span f args b = .ok (callee, c)) :
    c = b ∧ ∃ name, Named f args name ∧ ctx.callee? name = some callee := by
  unfold Context.callee at h
  by_cases hf : f = "print"
  · subst hf
    cases args with
    | nil => cases h
    | cons arg rest =>
      cases hp : printer? arg.type with
      | none =>
        simp only [hp] at h
        cases h
      | some name =>
        simp only [hp, pure_bind] at h
        cases hc : ctx.callee? name with
        | none =>
          simp only [hc] at h
          cases h
        | some found =>
          simp only [hc] at h
          cases h
          exact ⟨rfl, name, .print hp, hc⟩
  · rw [if_neg hf] at h
    simp only [pure_bind] at h
    cases hc : ctx.callee? f with
    | none =>
      simp only [hc] at h
      cases h
    | some found =>
      simp only [hc] at h
      cases h
      exact ⟨rfl, f, .other args hf, hc⟩

theorem expr_name_ok (h : expr ctx (.name span type x scope) b = .ok (v, c)) :
    ∃ cell, ctx.cell span x scope b = .ok (cell, b) ∧ v = .result b.results ∧
      c = b.give fun id => .load id cell := by
  obtain ⟨cell, d, hcell, hload⟩ := build_bind_ok.1 h
  obtain ⟨rfl, -⟩ := cell_ok hcell
  cases hload
  exact ⟨cell, hcell, rfl, rfl⟩

/-- The instruction of an operator with one operand. -/
def unaryInst (op : UnaryOp) (v : Operand) (id : Nat) : Option Inst :=
  match op with
  | .neg => some (.arith id .mul v (.ofInt (-1)))
  | .not => some (.arith id .xor v (.ofInt 1))
  | .other _ => none

theorem expr_unary_ok (h : expr ctx (.unary span type op e) b = .ok (v, c)) :
    ∃ u d inst, expr ctx e b = .ok (u, d) ∧ v = .result d.results ∧ c = d.give inst ∧
      ∀ id, unaryInst op u id = some (inst id) := by
  obtain ⟨u, d, he, h⟩ := build_bind_ok.1 h
  cases op with
  | neg =>
    cases h
    exact ⟨u, d, _, he, rfl, rfl, fun _ => rfl⟩
  | not =>
    cases h
    exact ⟨u, d, _, he, rfl, rfl, fun _ => rfl⟩
  | other code => cases h

theorem expr_binary_ok (h : expr ctx (.binary span type op lhs rhs) b = .ok (v, c)) :
    ∃ l r d d' o, expr ctx lhs b = .ok (l, d) ∧ expr ctx rhs d = .ok (r, d') ∧
      op.wordOp? ctx.mode = some o ∧ binary o l r d' = .ok (v, c) := by
  obtain ⟨l, d, hl, h⟩ := build_bind_ok.1 h
  obtain ⟨r, d', hr, h⟩ := build_bind_ok.1 h
  cases ho : op.wordOp? ctx.mode with
  | none =>
    simp only [ho] at h
    cases h
  | some o =>
    simp only [ho] at h
    exact ⟨l, r, d, d', o, hl, hr, rfl, h⟩

theorem binary_ok (h : binary o l r b = .ok (v, c)) :
    (o.isComparison = true ∧ v = .result (b.results + 1) ∧
      c = (b.give fun id => .compare id o l r).give fun id => .widen id b.results) ∨
    (o.isComparison = false ∧ v = .result b.results ∧ c = b.give fun id => .arith id o l r) := by
  rw [binary] at h
  cases ho : o.isComparison with
  | true =>
    rw [ho] at h
    cases h
    exact .inl ⟨rfl, rfl, rfl⟩
  | false =>
    rw [ho] at h
    cases h
    exact .inr ⟨rfl, rfl, rfl⟩

theorem expr_call_ok (h : expr ctx (.call span type f args) b = .ok (v, c)) :
    ∃ vs d name callee, arguments ctx args b = .ok (vs, d) ∧ Named f args name ∧
      ctx.callee? name = some callee ∧ v = .result d.results ∧
      c = d.give fun id => .call id callee vs := by
  obtain ⟨vs, d, hargs, h⟩ := build_bind_ok.1 h
  obtain ⟨callee, d', hcallee, hcall⟩ := build_bind_ok.1 h
  obtain ⟨rfl, name, named, found⟩ := callee_ok hcallee
  cases hcall
  exact ⟨vs, d', name, callee, hargs, named, found, rfl, rfl⟩

theorem arguments_cons_ok (h : arguments ctx (e :: rest) b = .ok (vs, c)) :
    ∃ v vs' d, expr ctx e b = .ok (v, d) ∧ arguments ctx rest d = .ok (vs', c) ∧
      vs = v :: vs' := by
  obtain ⟨v, d, he, h⟩ := build_bind_ok.1 h
  obtain ⟨vs', d', hrest, h⟩ := build_bind_ok.1 h
  cases h
  exact ⟨v, vs', d, he, hrest, rfl⟩

end inversion

/-- Instructions were added to the current block, and nothing else was changed. -/
structure Lengthens (b c : Body) : Prop where
  made : c.made = b.made
  current : c.current = b.current
  results : b.results ≤ c.results
  blocks : ∃ is, c = { b.onCurrent fun k => { k with insts := k.insts ++ is } with
    results := c.results }

namespace Lengthens

variable {b c d : Body}

theorem refl (b : Body) : Lengthens b b := by
  refine ⟨rfl, rfl, Nat.le_refl _, [], ?_⟩
  simp [Body.onCurrent]

theorem trans (h : Lengthens b c) (k : Lengthens c d) : Lengthens b d := by
  obtain ⟨is, hc⟩ := h.blocks
  obtain ⟨js, hd⟩ := k.blocks
  refine ⟨k.made.trans h.made, k.current.trans h.current, Nat.le_trans h.results k.results, is ++ js, ?_⟩
  rw [hd, hc]
  simp only [Body.onCurrent, List.map_map, Body.mk.injEq, and_true]
  refine List.map_congr_left fun block _ => ?_
  by_cases hk : block.number = b.current <;> simp [hk]

theorem append (b : Body) (i : Inst) : Lengthens b (b.append i) := ⟨rfl, rfl, Nat.le_refl _, [i], rfl⟩

theorem give (b : Body) (inst : Nat → Inst) : Lengthens b (b.give inst) :=
  ⟨rfl, rfl, Nat.le_succ _, [inst b.results], rfl⟩

end Lengthens

def Operand.Below (n : Nat) : Operand → Prop
  | .result id => id < n
  | _ => True

theorem Operand.Below.mono {v : Operand} (h : v.Below n) (hk : n ≤ k) : v.Below k := by
  cases v with
  | result id => exact Nat.lt_of_lt_of_le h hk
  | _ => trivial

theorem binary_lengthens (h : binary o l r b = .ok (v, c)) : Lengthens b c ∧ v.Below c.results := by
  rcases binary_ok h with ⟨-, rfl, rfl⟩ | ⟨-, rfl, rfl⟩
  · exact ⟨(Lengthens.give _ _).trans (Lengthens.give _ _), Nat.lt_succ_self _⟩
  · exact ⟨Lengthens.give _ _, Nat.lt_succ_self _⟩

mutual

theorem expr_lengthens : (e : Expr) → ∀ {b v c}, expr ctx e b = .ok (v, c) →
    Lengthens b c ∧ v.Below c.results
  | .literal l, b, v, c, h => by
    cases h
    exact ⟨.refl b, trivial⟩
  | .name span t x scope, b, v, c, h => by
    obtain ⟨cell, -, rfl, rfl⟩ := expr_name_ok h
    exact ⟨.give _ _, Nat.lt_succ_self _⟩
  | .unary span t op e, b, v, c, h => by
    obtain ⟨u, d, inst, he, rfl, rfl, -⟩ := expr_unary_ok h
    exact ⟨(expr_lengthens e he).1.trans (.give _ _), Nat.lt_succ_self _⟩
  | .binary span t op lhs rhs, b, v, c, h => by
    obtain ⟨l, r, d, d', o, hl, hr, -, h⟩ := expr_binary_ok h
    obtain ⟨last, below⟩ := binary_lengthens h
    exact ⟨((expr_lengthens lhs hl).1.trans (expr_lengthens rhs hr).1).trans last, below⟩
  | .call span t f args, b, v, c, h => by
    obtain ⟨vs, d, name, callee, hargs, -, -, rfl, rfl⟩ := expr_call_ok h
    exact ⟨(arguments_lengthen args hargs).1.trans (.give _ _), Nat.lt_succ_self _⟩
  | .unknown span t, b, v, c, h => by cases h

theorem arguments_lengthen : (args : List Expr) → ∀ {b vs c},
    arguments ctx args b = .ok (vs, c) → Lengthens b c ∧ ∀ v ∈ vs, v.Below c.results
  | [], b, vs, c, h => by
    cases h
    exact ⟨.refl b, nofun⟩
  | e :: rest, b, vs, c, h => by
    obtain ⟨v, vs', d, he, hrest, rfl⟩ := arguments_cons_ok h
    obtain ⟨first, below⟩ := expr_lengthens e he
    obtain ⟨others, belows⟩ := arguments_lengthen rest hrest
    refine ⟨first.trans others, ?_⟩
    intro u hu
    rcases List.mem_cons.1 hu with rfl | hu
    · exact below.mono others.results
    · exact belows u hu

end

namespace Body

/-- Every block has a number of its own, and one block is current. -/
structure Sound (b : Body) : Prop where
  distinct : (b.blocks.map (·.number)).Nodup
  counted : ∀ k ∈ b.blocks, k.number ≤ b.made
  current : ∃ k ∈ b.blocks, k.number = b.current

def Open (b : Body) : Prop := ∀ k ∈ b.blocks, k.number = b.current → k.term = none

def Ended (b : Body) : Prop := ∀ k ∈ b.blocks, k.number = b.current → k.term.isSome = true

/-- A block was made and waits for its code. -/
structure Waits (b : Body) (n : Nat) : Prop where
  mem : (⟨n, [], none⟩ : Block) ∈ b.blocks
  apart : n ≠ b.current

variable {b c : Body} {n : Nat}

theorem isOpen_iff : b.isOpen = true ↔ b.Open := by
  simp only [isOpen, List.all_eq_true, Bool.or_eq_true, decide_eq_true_eq,
    Option.isNone_iff_eq_none]
  exact forall₂_congr fun k _ => by rw [← Decidable.imp_iff_not_or]

theorem Sound.unique (h : b.Sound) (hk : k ∈ b.blocks) (hk' : k' ∈ b.blocks)
    (hn : k.number = k'.number) : k = k' := List.inj_on_of_nodup_map h.distinct hk hk' hn

theorem Sound.ended (h : b.Sound) (hb : b.isOpen = false) : b.Ended := by
  have closed : ¬ b.Open := by
    rw [← isOpen_iff, hb]
    decide
  intro k hk hn
  by_contra hterm
  refine closed fun k' hk' hn' => ?_
  rw [h.unique hk' hk (hn'.trans hn.symm)]
  exact Option.not_isSome_iff_eq_none.1 hterm

theorem Sound.current_le (h : b.Sound) : b.current ≤ b.made := by
  obtain ⟨k, hk, hn⟩ := h.current
  exact hn ▸ h.counted k hk

theorem mem_onCurrent : k ∈ (b.onCurrent f).blocks ↔
    ∃ k' ∈ b.blocks, (if k'.number = b.current then f k' else k') = k := by
  rw [onCurrent, List.mem_map]

section onCurrent

variable {f : Block → Block}

theorem Sound.onCurrent (h : b.Sound) (hf : ∀ k, (f k).number = k.number) :
    (b.onCurrent f).Sound := by
  have numbers : (b.onCurrent f).blocks.map (·.number) = b.blocks.map (·.number) := by
    rw [Body.onCurrent, List.map_map]
    refine List.map_congr_left fun k _ => ?_
    by_cases hk : k.number = b.current <;> simp [hk, hf]
  refine ⟨numbers ▸ h.distinct, ?_, ?_⟩
  · intro k hk
    obtain ⟨k', hk', rfl⟩ := mem_onCurrent.1 hk
    have counted := h.counted k' hk'
    split
    · rw [hf]
      exact counted
    · exact counted
  · obtain ⟨k, hk, hn⟩ := h.current
    exact ⟨f k, mem_onCurrent.2 ⟨k, hk, if_pos hn⟩, (hf k).trans hn⟩

theorem Sound.close (h : b.Sound) (t : Terminator) : (b.close t).Sound := h.onCurrent fun _ => rfl

theorem Ended.close (b : Body) (t : Terminator) : (b.close t).Ended := by
  intro k hk hn
  obtain ⟨k', hk', rfl⟩ := mem_onCurrent.1 hk
  by_cases hk'' : k'.number = b.current
  · rw [if_pos hk'']
    rfl
  · rw [if_neg hk''] at hn
    exact absurd hn hk''

end onCurrent

theorem Sound.grow (h : b.Sound) : b.grow.Sound := by
  refine ⟨?_, ?_, ?_⟩
  · rw [Body.grow, List.map_append, List.nodup_append]
    refine ⟨h.distinct, List.nodup_singleton _, ?_⟩
    intro n hn n' hn'
    obtain ⟨k, hk, rfl⟩ := List.mem_map.1 hn
    have counted := h.counted k hk
    have new : n' = b.made + 1 := by simpa using hn'
    omega
  · intro k hk
    rcases List.mem_append.1 hk with hk | hk
    · exact Nat.le_succ_of_le (h.counted k hk)
    · rw [List.mem_singleton.1 hk]
      exact Nat.le_refl _
  · obtain ⟨k, hk, hn⟩ := h.current
    exact ⟨k, List.mem_append_left _ hk, hn⟩

theorem Open.grow (h : b.Open) : b.grow.Open := by
  intro k hk hn
  rcases List.mem_append.1 hk with hk | hk
  · exact h k hk hn
  · rw [List.mem_singleton.1 hk]

theorem Waits.new (h : b.Sound) : b.grow.Waits (b.made + 1) := by
  refine ⟨List.mem_append_right _ (List.mem_singleton_self _), ?_⟩
  have current := h.current_le
  change b.made + 1 ≠ b.current
  omega

theorem Waits.grow (h : b.Waits n) : b.grow.Waits n := ⟨List.mem_append_left _ h.mem, h.apart⟩

theorem Waits.close (h : b.Waits n) (t : Terminator) : (b.close t).Waits n :=
  ⟨mem_onCurrent.2 ⟨_, h.mem, if_neg h.apart⟩, h.apart⟩

theorem Waits.goto (h : b.Waits n) (hn : n ≠ k) : (b.goto k).Waits n := ⟨h.mem, hn⟩

variable (h : b.Sound)
include h

theorem Sound.goto (hn : b.Waits n) : (b.goto n).Sound :=
  ⟨h.distinct, h.counted, _, hn.mem, rfl⟩

theorem Sound.goto_open (hn : b.Waits n) : (b.goto n).Open := by
  intro k hk heq
  rw [h.unique hk hn.mem heq]

theorem Sound.without (hn : n ≠ b.current) : (b.without n).Sound := by
  refine ⟨h.distinct.sublist (List.filter_sublist.map _), ?_, ?_⟩
  · intro k hk
    exact h.counted k (List.mem_of_mem_filter hk)
  · obtain ⟨k, hk, heq⟩ := h.current
    refine ⟨k, List.mem_filter.2 ⟨hk, ?_⟩, heq⟩
    simp only [decide_eq_true_eq]
    omega

theorem Sound.settle (t : Terminator) : (b.settle t).Sound := by
  rw [Body.settle]
  split
  · exact h.close _
  · exact h

theorem Sound.settle_ended (t : Terminator) : (b.settle t).Ended := by
  rw [Body.settle]
  split
  · exact Ended.close _ _
  · rename_i hopen
    exact h.ended (by simpa using hopen)

end Body

/-- How a body may change while code is built, where the blocks up to the number `base` were there
before. -/
structure Grows (base : Nat) (b c : Body) : Prop where
  made : b.made ≤ c.made
  closed : ∀ k ∈ b.blocks, k.term.isSome = true → k ∈ c.blocks
  current : ∀ k ∈ b.blocks, k.number = b.current → ∃ k' ∈ c.blocks, k'.number = k.number ∧
    k.insts <+: k'.insts ∧ (k'.term.isSome = true ∨ k'.number = c.current)
  waiting : ∀ k ∈ b.blocks, k.term = none → k.number ≠ b.current → k.number ≤ base → k ∈ c.blocks
  moved : c.current = b.current ∨ base < c.current

namespace Grows

variable {base base' n : Nat} {b c d : Body}

theorem refl (base : Nat) (b : Body) : Grows base b b :=
  ⟨Nat.le_refl _, fun _ hk _ => hk, fun k hk hn => ⟨k, hk, rfl, List.prefix_rfl, .inr hn⟩,
    fun _ hk _ _ _ => hk, .inl rfl⟩

theorem trans (h : Grows base b c) (g : Grows base c d) : Grows base b d where
  made := Nat.le_trans h.made g.made
  closed k hk ht := g.closed k (h.closed k hk ht) ht
  current k hk hn := by
    obtain ⟨k₁, hk₁, hn₁, prefix₁, ended | current⟩ := h.current k hk hn
    · exact ⟨k₁, g.closed k₁ hk₁ ended, hn₁, prefix₁, .inl ended⟩
    · obtain ⟨k₂, hk₂, hn₂, prefix₂, last⟩ := g.current k₁ hk₁ current
      exact ⟨k₂, hk₂, hn₂.trans hn₁, prefix₁.trans prefix₂, last⟩
  waiting k hk ht hn hb := by
    refine g.waiting k (h.waiting k hk ht hn hb) ht ?_ hb
    rcases h.moved with same | moved
    · rw [same]
      exact hn
    · omega
  moved := by
    rcases g.moved with same | moved
    · rw [same]
      exact h.moved
    · exact .inr moved

theorem mono (h : Grows base b c) (hb : base' ≤ base) : Grows base' b c where
  made := h.made
  closed := h.closed
  current := h.current
  waiting k hk ht hn hk' := h.waiting k hk ht hn (Nat.le_trans hk' hb)
  moved := h.moved.imp id (Nat.lt_of_le_of_lt hb)

theorem onCurrent (ho : b.Open) (hf : ∀ k, (f k).number = k.number)
    (hi : ∀ k, k.insts <+: (f k).insts) : Grows base b (b.onCurrent f) where
  made := Nat.le_refl _
  closed k hk ht := by
    refine Body.mem_onCurrent.2 ⟨k, hk, if_neg fun hn => ?_⟩
    rw [ho k hk hn] at ht
    cases ht
  current k hk hn := ⟨f k, Body.mem_onCurrent.2 ⟨k, hk, if_pos hn⟩, hf k, hi k,
    .inr ((hf k).trans hn)⟩
  waiting k hk _ hn _ := Body.mem_onCurrent.2 ⟨k, hk, if_neg hn⟩
  moved := .inl rfl

theorem close (ho : b.Open) (t : Terminator) : Grows base b (b.close t) :=
  onCurrent ho (fun _ => rfl) fun _ => List.prefix_rfl

theorem grow (base : Nat) (b : Body) : Grows base b b.grow where
  made := Nat.le_succ _
  closed _ hk _ := List.mem_append_left _ hk
  current k hk hn := ⟨k, List.mem_append_left _ hk, rfl, List.prefix_rfl, .inr hn⟩
  waiting _ hk _ _ _ := List.mem_append_left _ hk
  moved := .inl rfl

theorem goto (he : b.Ended) (hn : base < n) : Grows base b (b.goto n) where
  made := Nat.le_refl _
  closed _ hk _ := hk
  current k hk heq := ⟨k, hk, rfl, List.prefix_rfl, .inl (he k hk heq)⟩
  waiting _ hk _ _ _ := hk
  moved := .inr hn

theorem settle (base : Nat) (t : Terminator) (b : Body) : Grows base b (b.settle t) := by
  rw [Body.settle]
  split
  · rename_i hopen
    exact close (Body.isOpen_iff.1 hopen) _
  · exact refl base b

theorem without (hs : b.Sound) (hw : b.Waits n) (hn : base < n) : Grows base b (b.without n) where
  made := Nat.le_refl _
  closed k hk ht := by
    refine List.mem_filter.2 ⟨hk, decide_eq_true fun heq => ?_⟩
    rw [hs.unique hk hw.mem heq] at ht
    cases ht
  current k hk heq := by
    refine ⟨k, List.mem_filter.2 ⟨hk, decide_eq_true fun h => ?_⟩, rfl, List.prefix_rfl, .inr heq⟩
    exact hw.apart (h.symm.trans heq)
  waiting k hk _ _ hb := by
    refine List.mem_filter.2 ⟨hk, decide_eq_true fun heq => ?_⟩
    omega
  moved := .inl rfl

theorem waits (h : Grows base b c) (hw : b.Waits n) (hn : n ≤ base) : c.Waits n := by
  refine ⟨h.waiting _ hw.mem rfl hw.apart hn, ?_⟩
  rcases h.moved with same | moved
  · rw [same]
    exact hw.apart
  · omega

end Grows

namespace Lengthens

variable {base n : Nat} {b c : Body}

theorem sound (h : Lengthens b c) (hs : b.Sound) : c.Sound := by
  obtain ⟨is, hc⟩ := h.blocks
  have longer := hs.onCurrent (f := fun k => { k with insts := k.insts ++ is }) fun _ => rfl
  rw [hc]
  exact ⟨longer.distinct, longer.counted, longer.current⟩

theorem grows (h : Lengthens b c) (ho : b.Open) : Grows base b c := by
  obtain ⟨is, hc⟩ := h.blocks
  have longer : Grows base b (b.onCurrent fun k => { k with insts := k.insts ++ is }) :=
    .onCurrent ho (fun _ => rfl) fun _ => List.prefix_append _ _
  rw [hc]
  exact ⟨longer.made, longer.closed, longer.current, longer.waiting, longer.moved⟩

theorem opened (h : Lengthens b c) (ho : b.Open) : c.Open := by
  obtain ⟨is, hc⟩ := h.blocks
  rw [hc]
  intro k hk hn
  obtain ⟨k', hk', rfl⟩ := Body.mem_onCurrent.1 hk
  by_cases hk'' : k'.number = b.current
  · rw [if_pos hk'']
    exact ho k' hk' hk''
  · rw [if_neg hk''] at hn
    exact absurd hn hk''

end Lengthens

section inversion

variable {ctx : Context} {b c : Body} {span : Span}
variable {e : Expr} {body : List Stmt}

theorem condition_ok (h : condition ctx e b = .ok (bit, c)) :
    ∃ v d, expr ctx e b = .ok (v, d) ∧ bit = d.results ∧
      c = d.give fun id => .compare id .ne v (.ofInt 0) := by
  obtain ⟨v, d, he, h⟩ := build_bind_ok.1 h
  cases h
  exact ⟨v, d, he, rfl, rfl⟩

theorem condition_lengthens (h : condition ctx e b = .ok (bit, c)) : Lengthens b c := by
  obtain ⟨v, d, he, -, rfl⟩ := condition_ok h
  exact (expr_lengthens e he).1.trans (.give _ _)

theorem stmt_assign_ok (h : stmt ctx (.assign span x scope e) b = .ok ((), c)) :
    ∃ cell v d, ctx.cell span x scope b = .ok (cell, b) ∧ expr ctx e b = .ok (v, d) ∧
      c = d.append (.store v cell) := by
  obtain ⟨cell, b', hcell, hrest⟩ := build_bind_ok.1 h
  obtain ⟨rfl, -⟩ := cell_ok hcell
  obtain ⟨v, d, he, hstore⟩ := build_bind_ok.1 hrest
  cases hstore
  exact ⟨cell, v, d, hcell, he, rfl⟩

theorem stmt_expr_ok (h : stmt ctx (.expr span e) b = .ok ((), c)) :
    ∃ v d, expr ctx e b = .ok (v, d) ∧
      c = ctx.scratch.elim d fun id => d.append (.store v (.slot id)) := by
  obtain ⟨v, d, he, h⟩ := build_bind_ok.1 h
  refine ⟨v, d, he, ?_⟩
  cases hs : ctx.scratch with
  | none =>
    simp only [hs] at h
    cases h
    rfl
  | some id =>
    simp only [hs] at h
    cases h
    rfl

theorem stmt_ret_ok (h : stmt ctx (.ret span e) b = .ok ((), c)) :
    ∃ v d, expr ctx e b = .ok (v, d) ∧ c = d.close (.ret (some v)) := by
  obtain ⟨v, d, he, h⟩ := build_bind_ok.1 h
  cases h
  exact ⟨v, d, he, rfl⟩

theorem branch_ok {body : Build Unit} (h : branch ctx exit e body b = .ok (reached, c)) :
    ∃ bit d g, condition ctx e b.grow.grow = .ok (bit, d) ∧
      body ((d.close (.branch bit (b.made + 1) (b.made + 2))).goto (b.made + 1)) = .ok ((), g) ∧
      reached = g.isOpen ∧ c = (g.jump exit).goto (b.made + 2) := by
  rw [branch, build_bind_run (newBlock_run _), build_bind_run (newBlock_run _)] at h
  obtain ⟨bit, d, hcond, h⟩ := build_bind_ok.1 h
  rw [build_bind_run (terminate_run _ _), build_bind_run (enter_run _ _)] at h
  obtain ⟨_, g, hbody, h⟩ := build_bind_ok.1 h
  rw [build_bind_run (jumpIfOpen_run _ _)] at h
  cases h
  exact ⟨bit, d, g, hcond, hbody, rfl, rfl⟩

theorem stmt_while_ok (h : stmt ctx (.while span e body) b = .ok ((), c)) :
    ∃ bit d g, condition ctx e ((b.grow.grow.grow.close (.jump (b.made + 1))).goto (b.made + 1)) =
        .ok (bit, d) ∧
      stmts ctx body ((d.close (.branch bit (b.made + 2) (b.made + 3))).goto (b.made + 2)) =
        .ok ((), g) ∧
      c = (g.jump (b.made + 1)).goto (b.made + 3) := by
  rw [stmt, build_bind_run (newBlock_run _), build_bind_run (newBlock_run _),
    build_bind_run (newBlock_run _), build_bind_run (terminate_run _ _),
    build_bind_run (enter_run _ _)] at h
  obtain ⟨bit, d, hcond, h⟩ := build_bind_ok.1 h
  rw [build_bind_run (terminate_run _ _), build_bind_run (enter_run _ _)] at h
  obtain ⟨_, g, hbody, h⟩ := build_bind_ok.1 h
  rw [build_bind_run (jumpIfOpen_run _ _)] at h
  cases h
  exact ⟨bit, d, g, hcond, hbody, rfl⟩

theorem stmt_cond_ok (h : stmt ctx (.cond span e body clauses otherwise) b = .ok ((), c)) :
    ∃ first others d d' g, branch ctx (b.made + 1) e (stmts ctx body) b.grow = .ok (first, d) ∧
      elifs ctx (b.made + 1) clauses d = .ok (others, d') ∧ stmts ctx otherwise d' = .ok ((), g) ∧
      c = if first || others || g.isOpen then (g.jump (b.made + 1)).goto (b.made + 1)
        else (g.jump (b.made + 1)).without (b.made + 1) := by
  rw [stmt, build_bind_run (newBlock_run _)] at h
  obtain ⟨first, d, hfirst, h⟩ := build_bind_ok.1 h
  obtain ⟨others, d', hothers, h⟩ := build_bind_ok.1 h
  obtain ⟨_, g, hlast, h⟩ := build_bind_ok.1 h
  rw [build_bind_run (jumpIfOpen_run _ _)] at h
  refine ⟨first, others, d, d', g, hfirst, hothers, hlast, ?_⟩
  cases hr : first || others || g.isOpen with
  | true =>
    rw [hr] at h
    cases h
    rfl
  | false =>
    rw [hr] at h
    cases h
    rfl

theorem stmts_cons_ok (h : stmts ctx (s :: rest) b = .ok ((), c)) :
    ∃ d, stmt ctx s b = .ok ((), d) ∧
      (d.isOpen = true ∧ stmts ctx rest d = .ok ((), c) ∨ d.isOpen = false ∧ c = d) := by
  obtain ⟨_, d, hs, h⟩ := build_bind_ok.1 h
  rw [build_bind_run (isOpen_run _)] at h
  refine ⟨d, hs, ?_⟩
  cases ho : d.isOpen with
  | true =>
    rw [ho] at h
    exact .inl ⟨rfl, h⟩
  | false =>
    rw [ho] at h
    cases h
    exact .inr ⟨rfl, rfl⟩

theorem elifs_cons_ok (h : elifs ctx exit (.mk span e body :: rest) b = .ok (reached, c)) :
    ∃ first others d, branch ctx exit e (stmts ctx body) b = .ok (first, d) ∧
      elifs ctx exit rest d = .ok (others, c) ∧ reached = (first || others) := by
  obtain ⟨first, d, hfirst, h⟩ := build_bind_ok.1 h
  obtain ⟨others, d', hothers, h⟩ := build_bind_ok.1 h
  cases h
  exact ⟨first, others, d, hfirst, hothers, rfl⟩

end inversion

/-- What was built is sound, and what was there before was left alone. -/
structure Builds (b c : Body) : Prop where
  sound : c.Sound
  grows : Grows b.made b c

theorem Lengthens.builds (h : Lengthens b c) (hs : b.Sound) (ho : b.Open) :
    Builds b c := ⟨h.sound hs, h.grows ho⟩

theorem Body.Waits.le_made (h : b.Waits n) (hs : b.Sound) : n ≤ b.made :=
  hs.counted _ h.mem

theorem Builds.waits (h : Builds b c) (hs : b.Sound) (hw : b.Waits n) :
    c.Waits n := h.grows.waits hw (hw.le_made hs)

theorem Builds.trans (h : Builds b d) (k : Builds d c) : Builds b c :=
  ⟨k.sound, h.grows.trans (k.grows.mono h.grows.made)⟩

/-- Two new blocks wait: one for the code that runs if a condition holds, and one for what comes
after. -/
structure Forks (base : Nat) (b : Body) (yes no : Nat) : Prop where
  sound : b.Sound
  opened : b.Open
  waitsYes : b.Waits yes
  waitsNo : b.Waits no
  apart : yes ≠ no
  yesNew : base < yes
  noNew : base < no

namespace Forks

variable {base yes no target : Nat} {b c : Body} {t : Terminator}

section

variable (h : Forks base b yes no)
include h

theorem lengthens (hc : Lengthens b c) : Forks base c yes no where
  sound := hc.sound h.sound
  opened := hc.opened h.opened
  waitsYes := (hc.grows h.opened).waits h.waitsYes (Nat.le_refl _)
  waitsNo := (hc.grows h.opened).waits h.waitsNo (Nat.le_refl _)
  apart := h.apart
  yesNew := h.yesNew
  noNew := h.noNew

theorem inside_sound (t : Terminator) : ((b.close t).goto yes).Sound :=
  (h.sound.close t).goto (h.waitsYes.close t)

theorem inside_open (t : Terminator) : ((b.close t).goto yes).Open :=
  (h.sound.close t).goto_open (h.waitsYes.close t)

theorem inside_grows (t : Terminator) : Grows base b ((b.close t).goto yes) :=
  (Grows.close h.opened t).trans (.goto (Body.Ended.close b t) h.yesNew)

section

variable (hc : Builds ((b.close t).goto yes) c)
include hc

theorem waits_after : c.Waits no :=
  hc.grows.waits ((h.waitsNo.close t).goto h.apart.symm) (h.waitsNo.le_made h.sound)

theorem body_grows : Grows base ((b.close t).goto yes) c := by
  refine hc.grows.mono ?_
  have made : no ≤ b.made := h.waitsNo.le_made h.sound
  exact Nat.le_trans (Nat.le_of_lt h.noNew) made

theorem after_waits (target : Nat) : (c.jump target).Waits no :=
  (Grows.settle no (.jump target) c).waits (h.waits_after hc) (Nat.le_refl _)

theorem after_sound (target : Nat) : ((c.jump target).goto no).Sound :=
  (hc.sound.settle (.jump target)).goto (h.after_waits hc target)

theorem after_open (target : Nat) : ((c.jump target).goto no).Open :=
  (hc.sound.settle (.jump target)).goto_open (h.after_waits hc target)

theorem after_grows (target : Nat) : Grows base c ((c.jump target).goto no) :=
  (Grows.settle base (.jump target) c).trans (.goto (hc.sound.settle_ended (.jump target)) h.noNew)

theorem grows (target : Nat) : Grows base b ((c.jump target).goto no) :=
  ((h.inside_grows t).trans (h.body_grows hc)).trans (h.after_grows hc target)

end

end

theorem branch (hs : b.Sound) (ho : b.Open) :
    Forks b.made b.grow.grow (b.made + 1) (b.made + 2) where
  sound := hs.grow.grow
  opened := ho.grow.grow
  waitsYes := (Body.Waits.new hs).grow
  waitsNo := Body.Waits.new hs.grow
  apart := by omega
  yesNew := by omega
  noNew := by omega

theorem loop (hs : b.Sound) :
    Forks b.made ((b.grow.grow.grow.close (.jump (b.made + 1))).goto (b.made + 1)) (b.made + 2)
      (b.made + 3) := by
  have header := ((Body.Waits.new hs).grow.grow).close (.jump (b.made + 1))
  have sound := hs.grow.grow.grow.close (.jump (b.made + 1))
  have inside : (b.grow.grow.grow.close (.jump (b.made + 1))).Waits (b.made + 2) :=
    (Body.Waits.new hs.grow).grow.close _
  have exit : (b.grow.grow.grow.close (.jump (b.made + 1))).Waits (b.made + 3) :=
    (Body.Waits.new hs.grow.grow).close _
  refine ⟨sound.goto header, sound.goto_open header, inside.goto ?_, exit.goto ?_, ?_, ?_, ?_⟩ <;>
    omega

end Forks

theorem loop_grows (ho : b.Open) :
    Grows b.made b ((b.grow.grow.grow.close (.jump (b.made + 1))).goto (b.made + 1)) :=
  ((((Grows.grow _ b).trans (.grow _ _)).trans (.grow _ _)).trans (.close ho.grow.grow.grow _)).trans
    (.goto (Body.Ended.close _ _) (Nat.lt_succ_self _))

theorem exit_builds {g : Body} (hs : g.Sound) (hw : g.Waits exit) (new : base < exit)
    (reached : Bool) :
    (if reached then (g.jump exit).goto exit else (g.jump exit).without exit).Sound ∧
      Grows base (g.jump exit)
        (if reached then (g.jump exit).goto exit else (g.jump exit).without exit) := by
  have waits := (Grows.settle exit (.jump exit) g).waits hw (Nat.le_refl _)
  cases reached with
  | true => exact ⟨(hs.settle _).goto waits, .goto (hs.settle_ended _) new⟩
  | false => exact ⟨(hs.settle _).without waits.apart, .without (hs.settle _) waits new⟩

end BlockGraph
end WordScript
