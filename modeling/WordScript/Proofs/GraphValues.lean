import WordScript.Proofs.GraphModule

/-! The values that instructions use.

An instruction uses constants, parameters, globals, and results that were given before it in its
own block. Cells are made at the start of the entry, before any other instruction of the function
runs. All of this is kept by every step of building. -/
namespace WordScript
namespace BlockGraph

variable {b c : Body} {s : Supply} {is : List Inst} {inst : Nat → Inst}

/-- What there is around the code of a function. -/
structure Supply where
  /-- The number of parameters. -/
  params : Nat
  globals : List String
  callees : List Symbol

/-- A bit was computed by one of the instructions. -/
def BitKnown (before : List Inst) (bit : Nat) : Prop := ∃ o l r, .compare bit o l r ∈ before

def Operand.Known (s : Supply) (before : List Inst) : Operand → Prop
  | .const _ => True
  | .param i => i < s.params
  | .result id => ∃ i ∈ before, i.result? = some id

def Cell.Known (s : Supply) (made : Nat → Prop) : Cell → Prop
  | .slot id => made id
  | .global x => x ∈ s.globals

/-- An instruction uses what is there after the instructions before it, and cells that are made. -/
def Inst.Known (s : Supply) (made : Nat → Prop) (before : List Inst) : Inst → Prop
  | .alloca _ => True
  | .store v cell => v.Known s before ∧ cell.Known s made
  | .load _ cell => cell.Known s made
  | .arith _ _ l r => l.Known s before ∧ r.Known s before
  | .compare _ _ l r => l.Known s before ∧ r.Known s before
  | .widen _ bit => BitKnown before bit
  | .call _ callee args => callee ∈ s.callees ∧ ∀ v ∈ args, v.Known s before

def Terminator.Known (s : Supply) (before : List Inst) : Terminator → Prop
  | .ret v => ∀ u ∈ v, u.Known s before
  | .jump _ => True
  | .branch bit _ _ => BitKnown before bit

/-- Each instruction of a list is known after those before it. -/
def KnownFrom (known : List Inst → Inst → Prop) : (before : List Inst) → List Inst → Prop
  | _, [] => True
  | before, i :: rest => known before i ∧ KnownFrom known (before ++ [i]) rest

section lists

variable {known known' : List Inst → Inst → Prop} {before is js : List Inst}
variable {s : Supply}

theorem knownFrom_append :
    KnownFrom known before (is ++ js) ↔
      KnownFrom known before is ∧ KnownFrom known (before ++ is) js := by
  induction is generalizing before with
  | nil => simp [KnownFrom]
  | cons i rest ih => simp [KnownFrom, ih, and_assoc]

theorem KnownFrom.imp (h : ∀ before i, is <+: before → known before i → known' before i)
    (hb : is <+: before) (hk : KnownFrom known before js) : KnownFrom known' before js := by
  induction js generalizing before with
  | nil => trivial
  | cons i rest ih => exact ⟨h before i hb hk.1, ih (hb.trans (List.prefix_append _ _)) hk.2⟩

theorem Operand.Known.mono {v : Operand} (h : v.Known s before) (is : List Inst) :
    v.Known s (before ++ is) := by
  cases v with
  | const w => trivial
  | param i => exact h
  | result id =>
    obtain ⟨i, hi, given⟩ := h
    exact ⟨i, List.mem_append_left _ hi, given⟩

theorem BitKnown.mono (h : BitKnown before bit) (is : List Inst) : BitKnown (before ++ is) bit := by
  obtain ⟨o, l, r, hi⟩ := h
  exact ⟨o, l, r, List.mem_append_left _ hi⟩

theorem Terminator.Known.mono {t : Terminator} (h : t.Known s before) (is : List Inst) :
    t.Known s (before ++ is) := by
  cases t with
  | ret v => exact fun u hu => (h u hu).mono is
  | jump n => trivial
  | branch bit yes no => exact BitKnown.mono h is

theorem Inst.Known.imp {i : Inst} (hm : ∀ id, made id → made' id) (h : i.Known s made before) :
    i.Known s made' before := by
  have cell : ∀ c : Cell, c.Known s made → c.Known s made' := by
    intro c hc
    cases c with
    | slot id => exact hm id hc
    | global x => exact hc
  cases i with
  | store v c => exact ⟨h.1, cell c h.2⟩
  | load id c => exact cell c h
  | _ => exact h

end lists

namespace Body

/-- The instructions that a block starts with: the entry makes the cells of the function. -/
def opening (setup : List Inst) (n : Nat) : List Inst := if n = 0 then setup else []

/-- A body whose first block is the entry, and whose instructions all use what is there. -/
structure Laid (s : Supply) (made : Nat → Prop) (setup : List Inst) (b : Body) : Prop where
  first : ∃ entry rest, b.blocks = entry :: rest ∧ entry.number = 0
  code : ∀ k ∈ b.blocks, ∃ is, k.insts = opening setup k.number ++ is ∧
    KnownFrom (Inst.Known s made) (opening setup k.number) is
  ends : ∀ k ∈ b.blocks, ∀ t ∈ k.term, t.Known s k.insts

/-- A fact about the instructions of the current block. -/
def Here (b : Body) (p : List Inst → Prop) : Prop :=
  ∀ k ∈ b.blocks, k.number = b.current → p k.insts

section laying

variable {s : Supply} {made : Nat → Prop} {setup : List Inst} {b c : Body} {n : Nat} {i : Inst}
variable {p : List Inst → Prop}

theorem Here.append (h : b.Here fun is => p (is ++ [i])) : (b.append i).Here p := by
  intro k hk hn
  obtain ⟨k', hk', rfl⟩ := mem_onCurrent.1 hk
  by_cases same : k'.number = b.current
  · rw [if_pos same]
    exact h k' hk' same
  · rw [if_neg same] at hn
    exact absurd hn same

theorem Here.give (h : b.Here fun is => p (is ++ [inst b.results])) : (b.give inst).Here p :=
  fun k hk hn => Here.append h k hk hn

theorem first_onCurrent (hf : ∀ k, (f k).number = k.number)
    (h : ∃ entry rest, b.blocks = entry :: rest ∧ entry.number = 0) :
    ∃ entry rest, (b.onCurrent f).blocks = entry :: rest ∧ entry.number = 0 := by
  obtain ⟨entry, rest, hb, hn⟩ := h
  refine ⟨_, _, by rw [onCurrent, hb, List.map_cons], ?_⟩
  split
  · rw [hf, hn]
  · exact hn

variable (h : b.Laid s made setup)
include h

theorem Laid.append (hi : b.Here fun is => i.Known s made is) : (b.append i).Laid s made setup where
  first := first_onCurrent (fun _ => rfl) h.first
  code k hk := by
    obtain ⟨k', hk', rfl⟩ := mem_onCurrent.1 hk
    obtain ⟨is, heq, known⟩ := h.code k' hk'
    split
    · rename_i same
      have here := hi k' hk' same
      rw [heq] at here
      exact ⟨is ++ [i], by simp [heq],
        knownFrom_append.2 ⟨known, here, trivial⟩⟩
    · exact ⟨is, heq, known⟩
  ends k hk t ht := by
    obtain ⟨k', hk', rfl⟩ := mem_onCurrent.1 hk
    split at ht <;> split
    · exact (h.ends k' hk' t ht).mono [i]
    · contradiction
    · contradiction
    · exact h.ends k' hk' t ht

theorem Laid.give (hi : b.Here fun is => (inst b.results).Known s made is) :
    (b.give inst).Laid s made setup :=
  ⟨(h.append hi).first, (h.append hi).code, (h.append hi).ends⟩

theorem Laid.close (ht : b.Here fun is => t.Known s is) : (b.close t).Laid s made setup where
  first := first_onCurrent (fun _ => rfl) h.first
  code k hk := by
    obtain ⟨k', hk', rfl⟩ := mem_onCurrent.1 hk
    split <;> exact h.code k' hk'
  ends k hk u hu := by
    obtain ⟨k', hk', rfl⟩ := mem_onCurrent.1 hk
    split at hu <;> split
    · rename_i same _
      cases hu
      exact ht k' hk' same
    · contradiction
    · contradiction
    · exact h.ends k' hk' u hu

theorem Laid.grow : b.grow.Laid s made setup where
  first := by
    obtain ⟨entry, rest, hb, hn⟩ := h.first
    exact ⟨entry, _, by rw [Body.grow, hb, List.cons_append], hn⟩
  code k hk := by
    rcases List.mem_append.1 hk with hk | hk
    · exact h.code k hk
    · rw [List.mem_singleton.1 hk]
      exact ⟨[], rfl, trivial⟩
  ends k hk t ht := by
    rcases List.mem_append.1 hk with hk | hk
    · exact h.ends k hk t ht
    · rw [List.mem_singleton.1 hk] at ht
      cases ht

theorem Laid.goto (n : Nat) : (b.goto n).Laid s made setup :=
  ⟨h.first, h.code, h.ends⟩

theorem Laid.without (hn : n ≠ 0) : (b.without n).Laid s made setup where
  first := by
    obtain ⟨entry, rest, hb, h0⟩ := h.first
    refine ⟨entry, rest.filter (·.number ≠ n), ?_, h0⟩
    rw [Body.without, hb, List.filter_cons_of_pos (by rw [h0]; exact decide_eq_true hn.symm)]
  code k hk := h.code k (List.mem_of_mem_filter hk)
  ends k hk := h.ends k (List.mem_of_mem_filter hk)

theorem Laid.jump (n : Nat) : (b.jump n).Laid s made setup := by
  rw [Body.jump, Body.settle]
  split
  · exact h.close fun _ _ _ => trivial
  · exact h

end laying

end Body

theorem Lengthens.here (h : Lengthens b c) (mono : ∀ is js, p is → p (is ++ js)) (hb : b.Here p) :
    c.Here p := by
  have current := h.current
  obtain ⟨js, hc⟩ := h.blocks
  intro k hk hn
  rw [hc] at hk
  obtain ⟨k', hk', rfl⟩ := Body.mem_onCurrent.1 hk
  by_cases same : k'.number = b.current
  · rw [if_pos same]
    exact mono _ js (hb k' hk' same)
  · rw [if_neg same] at hn
    exact absurd (hn.trans current) same

theorem Lengthens.known {v : Operand} (h : Lengthens b c) (hv : b.Here fun is => v.Known s is) :
    c.Here fun is => v.Known s is :=
  h.here (fun _ js hk => hk.mono js) hv

theorem given_known (hr : (inst b.results).result? = some b.results) :
    (b.give inst).Here fun is => (Operand.result b.results).Known s is :=
  Body.Here.give fun _ _ _ => ⟨_, List.mem_append_right _ (List.mem_singleton_self _), hr⟩

/-- A context whose names all stand for what is there. -/
structure Supplied (ctx : Context) (s : Supply) (made : Nat → Prop) : Prop where
  globals : ∀ x ∈ ctx.globals, x ∈ s.globals
  callees : ∀ name callee, ctx.callee? name = some callee → callee ∈ s.callees
  slots : ∀ x id, ctx.slots.lookup x = some id → made id
  scratch : ∀ id ∈ ctx.scratch, made id

section code

variable {s : Supply} {made : Nat → Prop} {setup : List Inst} {ctx : Context}
variable {b c : Body}

theorem Supplied.cell (hc : Supplied ctx s made) {cell : Cell}
    (h : ctx.cell span x scope b = .ok (cell, c)) : cell.Known s made := by
  obtain ⟨-, ⟨-, id, hid, rfl⟩ | ⟨-, hx, rfl⟩⟩ := cell_ok h
  · exact hc.slots x id hid
  · exact hc.globals x hx

theorem unaryInst_known {id : Nat} (h : unaryInst op v id = some i) :
    i.result? = some id ∧ ∀ before, v.Known s before → i.Known s made before := by
  cases op with
  | neg =>
    cases h
    exact ⟨rfl, fun _ hv => ⟨hv, trivial⟩⟩
  | not =>
    cases h
    exact ⟨rfl, fun _ hv => ⟨hv, trivial⟩⟩
  | other code => cases h

theorem binary_laid (h : binary o l r b = .ok (v, c)) (hb : b.Laid s made setup)
    (hl : b.Here fun is => l.Known s is) (hr : b.Here fun is => r.Known s is) :
    c.Laid s made setup ∧ c.Here fun is => v.Known s is := by
  have operands : b.Here fun is => l.Known s is ∧ r.Known s is :=
    fun k hk hn => ⟨hl k hk hn, hr k hk hn⟩
  rcases binary_ok h with ⟨-, rfl, rfl⟩ | ⟨-, rfl, rfl⟩
  · have bit : (b.give fun id => .compare id o l r).Here fun is => BitKnown is b.results :=
      Body.Here.give fun _ _ _ => ⟨o, l, r, List.mem_append_right _ (List.mem_singleton_self _)⟩
    have compared : (b.give fun id => .compare id o l r).Laid s made setup :=
      hb.give fun k hk hn => operands k hk hn
    exact ⟨compared.give fun k hk hn => bit k hk hn, given_known rfl⟩
  · exact ⟨hb.give fun k hk hn => operands k hk hn, given_known rfl⟩

variable (hc : Supplied ctx s made)
include hc

mutual

theorem expr_laid : (e : Expr) → ∀ {b v c},
    expr ctx e b = .ok (v, c) → b.Laid s made setup →
      c.Laid s made setup ∧ c.Here fun is => v.Known s is
  | .literal l, b, v, c, h, hb => by
    cases h
    exact ⟨hb, fun _ _ _ => trivial⟩
  | .name span t x scope, b, v, c, h, hb => by
    obtain ⟨cell, hcell, rfl, rfl⟩ := expr_name_ok h
    exact ⟨hb.give fun _ _ _ => hc.cell hcell, given_known rfl⟩
  | .unary span t op e, b, v, c, h, hb => by
    obtain ⟨u, d, inst, he, rfl, rfl, hi⟩ := expr_unary_ok h
    obtain ⟨hd, hu⟩ := expr_laid e he hb
    obtain ⟨given, known⟩ : (inst d.results).result? = some d.results ∧
        ∀ before, u.Known s before → (inst d.results).Known s made before :=
      unaryInst_known (hi d.results)
    exact ⟨hd.give fun k hk hn => known _ (hu k hk hn), given_known given⟩
  | .binary span t op lhs rhs, b, v, c, h, hb => by
    obtain ⟨l, r, d, d', o, hl, hr, -, h⟩ := expr_binary_ok h
    obtain ⟨hd, known⟩ := expr_laid lhs hl hb
    obtain ⟨hd', known'⟩ := expr_laid rhs hr hd
    exact binary_laid h hd' ((expr_lengthens rhs hr).1.known known) known'
  | .call span t f args, b, v, c, h, hb => by
    obtain ⟨vs, d, name, callee, hargs, -, found, rfl, rfl⟩ := expr_call_ok h
    obtain ⟨hd, known⟩ := arguments_laid args hargs hb
    exact ⟨hd.give fun k hk hn => ⟨hc.callees name callee found, fun v hv => known v hv k hk hn⟩,
      given_known rfl⟩
  | .unknown span t, b, v, c, h, _ => by cases h

theorem arguments_laid : (args : List Expr) → ∀ {b vs c},
    arguments ctx args b = .ok (vs, c) → b.Laid s made setup →
      c.Laid s made setup ∧ ∀ v ∈ vs, c.Here fun is => v.Known s is
  | [], b, vs, c, h, hb => by
    cases h
    exact ⟨hb, nofun⟩
  | e :: rest, b, vs, c, h, hb => by
    obtain ⟨v, vs', d, he, hrest, rfl⟩ := arguments_cons_ok h
    obtain ⟨hd, known⟩ := expr_laid e he hb
    obtain ⟨hc', others⟩ := arguments_laid rest hrest hd
    refine ⟨hc', List.forall_mem_cons.2 ⟨?_, others⟩⟩
    exact (arguments_lengthen rest hrest).1.known known

end

theorem condition_laid (h : condition ctx e b = .ok (bit, c)) (hb : b.Laid s made setup) :
    c.Laid s made setup ∧ c.Here fun is => BitKnown is bit := by
  obtain ⟨v, d, he, rfl, rfl⟩ := condition_ok h
  obtain ⟨hd, known⟩ := expr_laid hc e he hb
  refine ⟨hd.give fun k hk hn => ⟨known k hk hn, trivial⟩, Body.Here.give fun _ _ _ => ?_⟩
  exact ⟨.ne, v, .ofInt 0, List.mem_append_right _ (List.mem_singleton_self _)⟩

theorem branch_laid
    (hbody : ∀ {b c}, body b = .ok ((), c) → b.Laid s made setup → c.Laid s made setup)
    (h : branch ctx exit e body b = .ok (reached, c)) (hb : b.Laid s made setup) :
    c.Laid s made setup := by
  obtain ⟨bit, d, g, hcond, hg, -, rfl⟩ := branch_ok h
  obtain ⟨hd, known⟩ := condition_laid hc hcond hb.grow.grow
  have ended : (d.close (.branch bit (b.made + 1) (b.made + 2))).Laid s made setup :=
    hd.close fun k hk hn => known k hk hn
  exact ((hbody hg (ended.goto _)).jump exit).goto _

mutual

theorem stmt_laid : (st : Stmt) → ∀ {b c},
    stmt ctx st b = .ok ((), c) → b.Laid s made setup → c.Laid s made setup
  | .pass span, b, c, h, hb => by
    cases h
    exact hb
  | .assign span x scope e, b, c, h, hb => by
    obtain ⟨cell, v, d, hcell, he, rfl⟩ := stmt_assign_ok h
    obtain ⟨hd, known⟩ := expr_laid hc e he hb
    exact hd.append fun k hk hn => ⟨known k hk hn, hc.cell hcell⟩
  | .expr span e, b, c, h, hb => by
    obtain ⟨v, d, he, rfl⟩ := stmt_expr_ok h
    obtain ⟨hd, known⟩ := expr_laid hc e he hb
    cases hid : ctx.scratch with
    | none => exact hd
    | some id => exact hd.append fun k hk hn => ⟨known k hk hn, hc.scratch id hid⟩
  | .ret span e, b, c, h, hb => by
    obtain ⟨v, d, he, rfl⟩ := stmt_ret_ok h
    obtain ⟨hd, known⟩ := expr_laid hc e he hb
    refine hd.close fun k hk hn u hu => ?_
    cases hu
    exact known k hk hn
  | .while span e body, b, c, h, hb => by
    obtain ⟨bit, d, g, hcond, hg, rfl⟩ := stmt_while_ok h
    have header : (b.grow.grow.grow.close (.jump (b.made + 1))).Laid s made setup :=
      hb.grow.grow.grow.close fun _ _ _ => trivial
    obtain ⟨hd, known⟩ := condition_laid hc hcond (header.goto _)
    have ended : (d.close (.branch bit (b.made + 2) (b.made + 3))).Laid s made setup :=
      hd.close fun k hk hn => known k hk hn
    exact ((stmts_laid body hg (ended.goto _)).jump _).goto _
  | .cond span e body clauses otherwise, b, c, h, hb => by
    obtain ⟨first, others, d, d', g, hfirst, hothers, hlast, rfl⟩ := stmt_cond_ok h
    have one := branch_laid hc (stmts_laid body) hfirst hb.grow
    have three := stmts_laid otherwise hlast (elifs_laid clauses hothers one)
    split
    · exact (three.jump _).goto _
    · exact (three.jump _).without (Nat.succ_ne_zero _)
  | .unknown span, b, c, h, _ => by cases h

theorem stmts_laid : (ss : List Stmt) → ∀ {b c},
    stmts ctx ss b = .ok ((), c) → b.Laid s made setup → c.Laid s made setup
  | [], b, c, h, hb => by
    cases h
    exact hb
  | st :: rest, b, c, h, hb => by
    obtain ⟨d, hd, ⟨-, hrest⟩ | ⟨-, rfl⟩⟩ := stmts_cons_ok h
    · exact stmts_laid rest hrest (stmt_laid st hd hb)
    · exact stmt_laid st hd hb

theorem elifs_laid : (es : List Elif) → ∀ {exit b c reached},
    elifs ctx exit es b = .ok (reached, c) → b.Laid s made setup → c.Laid s made setup
  | [], exit, b, c, reached, h, hb => by
    cases h
    exact hb
  | .mk span e body :: rest, exit, b, c, reached, h, hb => by
    obtain ⟨first, others, d, hfirst, hothers, -⟩ := elifs_cons_ok h
    exact elifs_laid rest hothers (branch_laid hc (stmts_laid body) hfirst hb)

end

end code

/-- Instructions of the entry, which makes its cells itself. -/
def EntryKnown (s : Supply) (before : List Inst) (i : Inst) : Prop :=
  i.Known s (fun id => .alloca id ∈ before) before

/-- A body of the entry alone, which is open. -/
structure Body.Starts (is : List Inst) (b : Body) : Prop where
  blocks : b.blocks = [⟨0, is, none⟩]
  current : b.current = 0
  made : b.made = 0

theorem Body.Starts.append (h : b.Starts is) (i : Inst) : (b.append i).Starts (is ++ [i]) where
  blocks := by simp [Body.append, Body.onCurrent, h.blocks, h.current]
  current := h.current
  made := h.made

theorem Body.Starts.give (h : b.Starts is) (inst : Nat → Inst) :
    (b.give inst).Starts (is ++ [inst b.results]) :=
  ⟨(h.append _).blocks, h.current, h.made⟩

theorem newSlots_starts (h : newSlots entries b = .ok (slots, c)) (hb : b.Starts is)
    (hv : ∀ entry ∈ entries, entry.2.Known s []) :
    ∃ js, c.Starts (is ++ js) ∧ KnownFrom (EntryKnown s) is js ∧
      ∀ slot ∈ slots, .alloca slot.2 ∈ js := by
  induction entries generalizing b is slots with
  | nil =>
    cases h
    exact ⟨[], by rwa [List.append_nil], trivial, nofun⟩
  | cons entry rest ih =>
    obtain ⟨x, v⟩ := entry
    obtain ⟨slots', hrest, rfl⟩ := newSlots_cons_ok h
    obtain ⟨known, others⟩ := List.forall_mem_cons.1 hv
    have first : ((b.give .alloca).append (.store v (.slot b.results))).Starts
        (is ++ [.alloca b.results] ++ [.store v (.slot b.results)]) := (hb.give .alloca).append _
    obtain ⟨js, hc, hjs, cells⟩ := ih hrest first others
    refine ⟨.alloca b.results :: .store v (.slot b.results) :: js, ?_, ⟨trivial, ?_, hjs⟩, ?_⟩
    · simpa using hc
    · exact ⟨known.mono _, List.mem_append_right _ (List.mem_singleton_self _)⟩
    · refine List.forall_mem_cons.2 ⟨List.mem_cons_self, fun slot hs => ?_⟩
      exact List.mem_cons_of_mem _ (List.mem_cons_of_mem _ (cells slot hs))

theorem Body.Starts.laid {made : Nat → Prop} (h : b.Starts is) : b.Laid s made is where
  first := ⟨_, _, h.blocks, rfl⟩
  code k hk := by
    rw [h.blocks] at hk
    rw [List.mem_singleton.1 hk]
    exact ⟨[], (List.append_nil _).symm, trivial⟩
  ends k hk t ht := by
    rw [h.blocks] at hk
    rw [List.mem_singleton.1 hk] at ht
    cases ht

end BlockGraph
end WordScript
