import WordScript.Proofs.Meaning
import WordScript.Proofs.Names

/-! Generated code does what the program means.

The code of a part of a program follows its evaluation: where evaluation ends the runs of the code
settle on a matching end, and where evaluation lacks fuel they lack it too. -/
namespace WordScript
open StackCode (Instr breakLabel callTarget contextAt key_inj loopLabel loopPass mem_slotNames
  place_ok)
open Rules (Bound HasType)

theorem Literal.ofInt_encode (l : Literal) : BitVec.ofInt 32 l.encode = Meaning.literal l := by
  unfold Literal.encode Meaning.literal
  cases l.kind <;> rfl

namespace Meaning

theorem toInt_eq_intMin {a : Word} : a.toInt = -2147483648 ↔ a = BitVec.intMin 32 := by
  rw [← BitVec.toInt_inj]
  rfl

theorem toInt_eq_neg_one {a : Word} : a.toInt = -1 ↔ a = -1 := by
  rw [← BitVec.toInt_inj]
  rfl

section

variable (mode : Arithmetic) (a b : Word)
include mode a b

theorem quotient_eq : quotient mode a b = (WordOp.div mode).eval a b := by
  cases mode with
  | signed =>
    simp only [quotient, WordOp.eval, number, toInt_eq_intMin, toInt_eq_neg_one, true_and]
    have value : BitVec.ofInt 32 (a.toInt.tdiv b.toInt) = a.sdiv b := by
      apply BitVec.eq_of_toInt_eq
      rw [BitVec.toInt_ofInt, BitVec.toInt_sdiv]
    rw [value]
  | unsigned =>
    have value : BitVec.ofInt 32 ((a.toNat : Int).tdiv b.toNat) = a / b := by
      apply BitVec.eq_of_toNat_eq
      rw [BitVec.toNat_udiv]
      have : ((a.toNat : Int).tdiv b.toNat) = ((a.toNat / b.toNat : Nat) : Int) := rfl
      rw [this, BitVec.ofInt_natCast, BitVec.toNat_ofNat, Nat.mod_eq_of_lt]
      exact Nat.lt_of_le_of_lt (Nat.div_le_self _ _) a.isLt
    simp only [quotient, WordOp.eval, number, value]
    simp

theorem remainder_eq : remainder mode a b = (WordOp.rem mode).eval a b := by
  cases mode with
  | signed =>
    have value : BitVec.ofInt 32 (a.toInt.tmod b.toInt) = a.srem b := by
      rw [← BitVec.toInt_srem, BitVec.ofInt_toInt]
    have one : b = -1 → a.srem b = 0 := by
      rintro rfl
      rw [← value]
      simp
    simp only [remainder, WordOp.eval, number, value]
    by_cases h0 : b = 0
    · rw [if_pos h0, if_pos h0]
    · by_cases h1 : b = -1
      · rw [if_pos h1, one h1]
      · rw [if_neg h1]
  | unsigned =>
    have value : BitVec.ofInt 32 ((a.toNat : Int).tmod b.toNat) = a % b := by
      apply BitVec.eq_of_toNat_eq
      rw [BitVec.toNat_umod]
      have : ((a.toNat : Int).tmod b.toNat) = ((a.toNat % b.toNat : Nat) : Int) := rfl
      rw [this, BitVec.ofInt_natCast, BitVec.toNat_ofNat, Nat.mod_eq_of_lt]
      exact Nat.lt_of_le_of_lt (Nat.mod_le _ _) a.isLt
    simp only [remainder, WordOp.eval, number, value]

theorem below_eq : WordOp.below mode a b = decide (number mode a < number mode b) := by
  cases mode with
  | signed => rfl
  | unsigned => simp [WordOp.below, number, BitVec.ult]

theorem not_below_eq : (!WordOp.below mode a b) = decide (number mode b ≤ number mode a) := by
  rw [below_eq, ← decide_not, decide_eq_decide, not_lt]

end

theorem binary_eq (h : op.wordOp? mode = some o) (a b : Word) :
    binary mode op a b = fallible (o.eval a b) := by
  cases op <;> cases h
  case floorDiv => rw [binary, quotient_eq]
  case mod => rw [binary, remainder_eq]
  case gt =>
    rw [WordOp.eval, below_eq]
    rfl
  case ge =>
    rw [WordOp.eval, not_below_eq]
    rfl
  case lt =>
    rw [WordOp.eval, below_eq]
    rfl
  case le =>
    rw [WordOp.eval, not_below_eq]
    rfl
  case ne =>
    have differ : decide (a ≠ b) = (a != b) := by
      by_cases h : a = b <;> simp [h]
    rw [binary, differ]
    rfl
  all_goals rfl

theorem neg_eq (a : Word) : a * BitVec.ofInt 32 (-1) = -a := by
  exact mul_neg_one a

end Meaning

namespace Simulation

open Machine (Exec Settles Lasts Control seq instr passes resume)
open Meaning (Eval Flow)
open StackCode (key form)

def trapOf : Meaning.Trap → Machine.Trap
  | .arith fault => .arith fault
  | .callStack => .callStack

theorem message_trapOf (t : Meaning.Trap) : (trapOf t).message = t.message := by
  cases t <;> rfl

def globalOf (g : String × Word) : Machine.Global := ⟨key g.1, true, g.2⟩

/-- States that agree on what can be seen from outside. -/
structure Visible (w : Meaning.State) (s : Machine.State) : Prop where
  globals : s.globals = w.globals.map globalOf
  printed : s.printed = w.printed

section follows

variable {α β γ δ : Type} {n : Nat} {s t : Machine.State} {w : Meaning.State}

/-- The runs `c` follow an evaluation with fuel `n`. Values and states at the end are related by
`post`. There is no end that a stuck evaluation could match. -/
inductive Follows (n : Nat) (post : α → Meaning.State → β → Machine.State → Prop)
    (c : Nat → Exec β) (s : Machine.State) : Except Meaning.Halt α × Meaning.State → Prop
  | done {a : α} {w : Meaning.State} {b : β} {t : Machine.State} (settles : Settles c s (.ok b, t))
      (holds : post a w b t) : Follows n post c s (.ok a, w)
  | trap {cause : Meaning.Trap} {w : Meaning.State} {t : Machine.State}
      (settles : Settles c s (.error (.trap (trapOf cause)), t)) (visible : Visible w t) :
      Follows n post c s (.error (.trap cause), w)
  | lasts {w : Meaning.State} (h : Lasts n c s) : Follows n post c s (.error .outOfFuel, w)

variable {post : α → Meaning.State → β → Machine.State → Prop}
  {post' : γ → Meaning.State → δ → Machine.State → Prop} {c : Nat → Exec β}
  {r : Except Meaning.Halt α × Meaning.State}
variable {d : Nat → β → Exec δ}

theorem Follows.after {d : Nat → δ → Exec β} {c : Nat → Exec δ} (hs : Settles c s (.ok b, t))
    (h : Follows n post (fun fuel => d fuel b) t r) :
    Follows n post (fun fuel => c fuel >>= d fuel) s r := by
  cases h with
  | done settles holds => exact .done (hs.bind settles) holds
  | trap settles visible => exact .trap (hs.bind settles) visible
  | lasts h => exact .lasts (hs.bind_lasts h)

theorem Follows.bind {x : Eval α} (h : Follows n post c s (x.run w))
    (k : ∀ a w' b t, post a w' b t → Follows n post' (fun fuel => d fuel b) t ((f a).run w')) :
    Follows n post' (fun fuel => c fuel >>= d fuel) s ((x >>= f).run w) := by
  rw [Machine.run_bind]
  generalize x.run w = r at h
  cases h with
  | done settles holds => exact .after settles (k _ _ _ _ holds)
  | trap settles visible => exact .trap settles.bind_error visible
  | lasts h => exact .lasts h.bind

theorem Follows.before {post' : α → Meaning.State → δ → Machine.State → Prop}
    (h : Follows n post c s r)
    (k : ∀ a w b t, post a w b t →
      ∃ b' u, Settles (fun fuel => d fuel b) t (.ok b', u) ∧ post' a w b' u) :
    Follows n post' (fun fuel => c fuel >>= d fuel) s r := by
  cases h with
  | done settles holds =>
    obtain ⟨b', u, hs, hp⟩ := k _ _ _ _ holds
    exact .done (settles.bind hs) hp
  | trap settles visible => exact .trap settles.bind_error visible
  | lasts h => exact .lasts h.bind

theorem Follows.map {post' : γ → Meaning.State → β → Machine.State → Prop} {x : Eval α}
    {f : α → γ} (h : Follows n post c s (x.run w))
    (k : ∀ a w b t, post a w b t → post' (f a) w b t) :
    Follows n post' c s ((x >>= fun a => pure (f a)).run w) := by
  rw [Machine.run_bind]
  generalize x.run w = r at h
  cases h with
  | done settles holds => exact .done settles (k _ _ _ _ holds)
  | trap settles visible => exact .trap settles visible
  | lasts h => exact .lasts h

variable (h : Follows n post c s r)
include h

theorem Follows.imp {post' : α → Meaning.State → β → Machine.State → Prop}
    (k : ∀ a w b t, post a w b t → post' a w b t) : Follows n post' c s r := by
  cases h with
  | done settles holds => exact .done settles (k _ _ _ _ holds)
  | trap settles visible => exact .trap settles visible
  | lasts h => exact .lasts h

theorem Follows.delay (k : Nat) : Follows n post (fun fuel => c (fuel - k)) s r := by
  cases h with
  | done settles holds => exact .done (settles.delay k) holds
  | trap settles visible => exact .trap (settles.delay k) visible
  | lasts h => exact .lasts (h.delay k)

theorem Follows.later : Follows (n + 1) post (Machine.later c) s r := by
  cases h with
  | done settles holds => exact .done settles.later holds
  | trap settles visible => exact .trap settles.later visible
  | lasts h => exact .lasts h.later

theorem Follows.mono (hk : k ≤ n) : Follows k post c s r := by
  cases h with
  | done settles holds => exact .done settles holds
  | trap settles visible => exact .trap settles visible
  | lasts h => exact .lasts (h.mono hk)

end follows

section sequences

variable {α γ : Type} {n depth : Nat} {env : Machine.Env} {s t : Machine.State} {w : Meaning.State}
  {post : α → Meaning.State → Control → Machine.State → Prop}
  {post' : γ → Meaning.State → Control → Machine.State → Prop}
variable {xs ys : List Instr} {r : Except Meaning.Halt α × Meaning.State}
  {i : Instr}

def code (env : Machine.Env) (depth : Nat) (is : List StackCode.Instr) (fuel : Nat) :
    Exec Control := seq env fuel depth (StackCode.Instr.sexprs is)

theorem code_append (xs ys : List Instr) : code env depth (xs ++ ys) = fun fuel =>
    code env depth xs fuel >>= resume (code env depth ys (fuel - xs.length)) := by
  have length : (Instr.sexprs xs).length = xs.length := by
    induction xs with
    | nil => rfl
    | cons i rest ih => simp [Instr.sexprs, ih]
  funext fuel
  rw [code, Instr.sexprs_append, Machine.seq_append_eq, length]
  rfl

theorem Follows.append {x : Eval α} (h : Follows n post (code env depth xs) s (x.run w))
    (k : ∀ a w' c t, post a w' c t → Follows n post' (fun fuel => resume (code env depth ys fuel) c) t ((f a).run w')) :
    Follows n post' (code env depth (xs ++ ys)) s ((x >>= f).run w) := by
  rw [code_append]
  exact h.bind fun a w' c t hp => (k a w' c t hp).delay xs.length

theorem Follows.after_code (hx : Settles (code env depth xs) s (.ok .next, t))
    (h : Follows n post (code env depth ys) t r) :
    Follows n post (code env depth (xs ++ ys)) s r := by
  rw [code_append]
  exact Follows.after hx (h.delay xs.length)

theorem Follows.single (h : Follows n post (fun fuel => instr env fuel depth i.sexpr) s r) :
    Follows n post (code env depth [i]) s r := by
  have eq : code env depth [i] = _ := Machine.seq_cons_eq env depth i.sexpr []
  rw [eq]
  refine (Follows.before h ?_).later.mono (Nat.le_succ n)
  intro a w c t hp
  exact ⟨c, t, Machine.resume_nil_settles env depth c t, hp⟩

theorem code_single (h : Settles (fun fuel => instr env fuel depth i.sexpr) s (.ok c, t)) :
    Settles (code env depth [i]) s (.ok c, t) := by
  have eq : code env depth [i] = _ := Machine.seq_cons_eq env depth i.sexpr []
  rw [eq]
  exact (h.bind (Machine.resume_nil_settles env depth c t)).later

theorem code_single_error (h : Settles (fun fuel => instr env fuel depth i.sexpr) s (.error e, t)) :
    Settles (code env depth [i]) s (.error e, t) := by
  have eq : code env depth [i] = _ := Machine.seq_cons_eq env depth i.sexpr []
  rw [eq]
  exact h.bind_error.later

theorem code_leaves (ys : List Instr) (hx : Settles (code env depth xs) s (.ok c, t))
    (hc : c ≠ .next) : Settles (code env depth (xs ++ ys)) s (.ok c, t) := by
  rw [code_append]
  exact hx.bind (Machine.resume_settles hc t)

theorem code_settles {r : Except Machine.Halt Control × Machine.State}
    (hx : Settles (code env depth xs) s (.ok .next, t)) (hy : Settles (code env depth ys) t r) :
    Settles (code env depth (xs ++ ys)) s r := by
  rw [code_append]
  exact hx.bind (hy.delay xs.length)

end sequences

def Holds : Ty → Word → Prop
  | .bool, v => v = 0 ∨ v = 1
  | _, _ => True

/-- States in which every name that is in scope has a value of its type. -/
structure Typed (p : Program) (place : Option FuncDef) (w : Meaning.State) : Prop where
  globals : ∀ v ∈ p.vars, ∀ type, v.type = some type →
    ∃ u, w.globals.lookup v.name = some u ∧ Holds type u
  declared : ∀ f, place = some f → ∀ x type, Rules.Declares f x type →
    ∃ u, w.frame.lookup x = some u ∧ Holds type u
  hidden : ∀ x, (∀ f, place = some f → x ∉ Rules.slotNames f) → w.frame.lookup x = none

/-- A state of the machine inside a function, and the state of the evaluation that it follows. -/
structure Ready (p : Program) (place : Option FuncDef) (w : Meaning.State) (s : Machine.State) :
    Prop where
  visible : Visible w s
  typed : Typed p place w
  slots : ∀ x, x ≠ StackCode.scratch → s.locals.lookup (key x) = w.frame.lookup x
  scratch : ∃ v, s.locals.lookup (key StackCode.scratch) = some v

section states

variable {p : Program} {place : Option FuncDef} {w : Meaning.State} {s t : Machine.State}
  {x : String} {type : Ty} {scope : Scope}

theorem Ready.keeps (h : Ready p place w s) (hk : Machine.Keeps s t) : Ready p place w t where
  visible := ⟨hk.globals.trans h.visible.globals, hk.printed.trans h.visible.printed⟩
  typed := h.typed
  slots x hx := by
    rw [hk.locals]
    exact h.slots x hx
  scratch := by
    rw [hk.locals]
    exact h.scratch

theorem find?_globalOf (gs : List (String × Word)) (x : String) :
    (gs.map globalOf).find? (·.name == key x) = (gs.lookup x).map fun v => ⟨key x, true, v⟩ := by
  induction gs with
  | nil => rfl
  | cons g gs ih =>
    by_cases hx : g.1 = x
    · subst hx
      simp [globalOf, List.lookup]
    · have hk : (key g.1 == key x) = false := by simpa [key_inj] using hx
      have hl : (x == g.1) = false := by simpa using Ne.symm hx
      rw [List.map_cons, List.find?_cons, List.lookup, hl]
      simp only [globalOf, hk]
      exact ih

theorem lookup_cons_ite {α β : Type} [BEq α] [LawfulBEq α] [DecidableEq α] (a k : α) (b : β)
    (l : List (α × β)) : ((k, b) :: l).lookup a = if a = k then some b else l.lookup a := by
  rw [List.lookup_cons]
  by_cases h : a = k
  · simp [h]
  · rw [beq_eq_false_iff_ne.2 h, if_neg h]

theorem lookup_assign (x y : String) (v : Word) (l : List (String × Word)) :
    (Meaning.assign x v l).lookup y =
      if y = x then (l.lookup x).map fun _ => v else l.lookup y := by
  induction l with
  | nil => simp [Meaning.assign]
  | cons entry l ih =>
    obtain ⟨k, u⟩ := entry
    rw [Meaning.assign] at ih
    rw [Meaning.assign, List.map_cons, lookup_cons_ite x, lookup_cons_ite y]
    by_cases hk : k = x
    · subst hk
      rw [lookup_cons_ite, ih]
      by_cases hy : y = k <;> simp [hy]
    · rw [if_neg hk, lookup_cons_ite, ih]
      by_cases hy : y = x
      · subst hy
        simp [Ne.symm hk]
      · simp [hy]

theorem lookup_setSlot (k y : Bytes) (v : Word) (l : List (Bytes × Word)) :
    (Machine.setSlot k v l).lookup y =
      if y = k then (l.lookup k).map fun _ => v else l.lookup y := by
  induction l with
  | nil => simp [Machine.setSlot]
  | cons entry l ih =>
    obtain ⟨n, u⟩ := entry
    rw [Machine.setSlot, lookup_cons_ite k, lookup_cons_ite y]
    by_cases hn : n = k
    · subst hn
      simp only [beq_self_eq_true, if_true]
      rw [lookup_cons_ite]
      by_cases hy : y = n <;> simp [hy]
    · simp only [beq_eq_false_iff_ne.2 hn, Bool.false_eq_true, if_false]
      rw [lookup_cons_ite, ih]
      by_cases hy : y = k
      · subst hy
        simp [Ne.symm hn]
      · simp [hy]

theorem map_assign (x : String) (v : Word) (gs : List (String × Word)) :
    (gs.map globalOf).map (fun g => if g.name == key x then { g with value := v } else g) =
      (Meaning.assign x v gs).map globalOf := by
  rw [Meaning.assign, List.map_map, List.map_map]
  refine List.map_congr_left fun g _ => ?_
  by_cases hx : g.1 = x
  · simp [globalOf, hx]
  · have hk : (key g.1 == key x) = false := by simpa [key_inj] using hx
    simp only [Function.comp_apply, globalOf, hk, if_neg hx]
    rfl

/-- A place where every name is declared once and none is that of the scratch slot. -/
structure Scoped (p : Program) (place : Option FuncDef) : Prop where
  globals : (p.vars.map (·.name)).Nodup
  slots : ∀ f, place = some f → (Rules.slotNames f).Nodup
  clear : ∀ f, place = some f → StackCode.scratch ∉ Rules.slotNames f

theorem declares_unique (hn : (Rules.slotNames f).Nodup) (ha : Rules.Declares f x a)
    (hb : Rules.Declares f x b) : a = b := by
  obtain ⟨params, locals, disjoint⟩ := List.nodup_append.1 hn
  cases ha with
  | param mem declared =>
    generalize hx : Param.name _ = x at hb
    cases hb with
    | param mem' declared' =>
      have same := List.inj_on_of_nodup_map params mem mem' hx
      rw [same] at declared
      exact Option.some.inj (declared.symm.trans declared')
    | var mem' _ =>
      exact absurd hx (disjoint _ (List.mem_map_of_mem mem) _ (List.mem_map_of_mem mem'))
  | var mem declared =>
    generalize hx : VarDecl.name _ = x at hb
    cases hb with
    | param mem' _ =>
      exact absurd hx.symm (disjoint _ (List.mem_map_of_mem mem') _ (List.mem_map_of_mem mem))
    | var mem' declared' =>
      have same := List.inj_on_of_nodup_map locals mem mem' hx
      rw [same] at declared
      exact Option.some.inj (declared.symm.trans declared')

section names

variable {mode : Arithmetic} {pl : StackCode.Place}

theorem Ready.value (h : Ready p place w s) (hc : Scoped p place)
    (hb : Bound p place x type scope)
    (hp : (contextAt mode p place).place? x = some pl) :
    ∃ u, w.value? x = some u ∧ Holds type u ∧
      match pl with
      | .slot => s.locals.lookup (key x) = some u ∧ x ≠ StackCode.scratch ∧
          (w.frame.lookup x).isSome = true
      | .global => s.globals.find? (·.name == key x) = some ⟨key x, true, u⟩ ∧
          (w.frame.lookup x).isSome = false := by
  obtain ⟨pl', hs, hp'⟩ := StackCode.place?_of_bound mode hb
  obtain rfl : pl = pl' := Option.some.inj (hp.symm.trans hp')
  cases hb with
  | slot within declared =>
    cases hs
    obtain ⟨u, hu, ht⟩ := h.typed.declared _ within _ _ declared
    have hx : x ≠ StackCode.scratch := by
      rintro rfl
      exact hc.clear _ within (mem_slotNames declared)
    refine ⟨u, by simp [Meaning.State.value?, hu], ht, ?_, hx, by simp [hu]⟩
    rw [h.slots x hx, hu]
  | @global v _ mem declared visible =>
    cases hs
    obtain ⟨u, hu, ht⟩ := h.typed.globals v mem _ declared
    have hidden := h.typed.hidden v.name visible
    refine ⟨u, by simp [Meaning.State.value?, hu, hidden], ht, ?_, by simp [hidden]⟩
    rw [h.visible.globals, find?_globalOf, hu]
    rfl

theorem Typed.update (h : Typed p place w) (hc : Scoped p place)
    (hb : Bound p place x type scope) (hv : Holds type v) : Typed p place (w.update x v) := by
  cases hb with
  | slot within declared =>
    obtain ⟨u, hu, -⟩ := h.declared _ within _ _ declared
    have frame : w.update x v = { w with frame := Meaning.assign x v w.frame } := by
      simp [Meaning.State.update, hu]
    rw [frame]
    refine ⟨h.globals, ?_, ?_⟩
    · intro f hf y ty hy
      rw [lookup_assign]
      split
      · rename_i heq
        subst heq
        cases within.symm.trans hf
        rw [declares_unique (hc.slots _ within) hy declared]
        exact ⟨v, by simp [hu], hv⟩
      · exact h.declared f hf y ty hy
    · intro y hy
      rw [lookup_assign, if_neg, h.hidden y hy]
      rintro rfl
      exact hy _ within (mem_slotNames declared)
  | @global d _ mem declared visible =>
    have globals : w.update d.name v = { w with globals := Meaning.assign d.name v w.globals } := by
      simp [Meaning.State.update, h.hidden d.name visible]
    rw [globals]
    refine ⟨?_, h.declared, h.hidden⟩
    intro d' hd' ty hty
    rw [lookup_assign]
    split
    · rename_i heq
      have same := List.inj_on_of_nodup_map hc.globals hd' mem heq
      subst same
      obtain ⟨u, hu, -⟩ := h.globals d' hd' ty hty
      refine ⟨v, by simp [hu], ?_⟩
      rw [Option.some.inj (hty.symm.trans declared)]
      exact hv
    · exact h.globals d' hd' ty hty

section

variable (h : Ready p place w s) (hc : Scoped p place) (hb : Bound p place x type scope)
  (hv : Holds type v)
include h hc hb hv

theorem Ready.setSlot (hx : x ≠ StackCode.scratch) (hf : (w.frame.lookup x).isSome = true)
    (hg : t.globals = s.globals) (hp : t.printed = s.printed)
    (hl : t.locals = Machine.setSlot (key x) v s.locals) : Ready p place (w.update x v) t := by
  have frame : w.update x v = { w with frame := Meaning.assign x v w.frame } := if_pos hf
  refine ⟨?_, h.typed.update hc hb hv, ?_, ?_⟩
  · rw [frame]
    exact ⟨hg.trans h.visible.globals, hp.trans h.visible.printed⟩
  · intro y hy
    rw [frame, hl, lookup_setSlot, lookup_assign, h.slots x hx, h.slots y hy]
    simp only [key_inj]
  · obtain ⟨u, hu⟩ := h.scratch
    refine ⟨u, ?_⟩
    rw [hl, lookup_setSlot, if_neg, hu]
    rw [key_inj]
    exact Ne.symm hx

theorem Ready.setGlobal (hf : (w.frame.lookup x).isSome = false)
    (hg : t.globals = s.globals.map fun g => if g.name == key x then { g with value := v } else g)
    (hp : t.printed = s.printed) (hl : t.locals = s.locals) : Ready p place (w.update x v) t := by
  have globals : w.update x v = { w with globals := Meaning.assign x v w.globals } :=
    if_neg (by simp [hf])
  refine ⟨?_, h.typed.update hc hb hv, ?_, hl ▸ h.scratch⟩
  · rw [globals]
    refine ⟨?_, hp.trans h.visible.printed⟩
    rw [hg, h.visible.globals, map_assign]
  · intro y hy
    rw [globals, hl]
    exact h.slots y hy

end

/-- A value of a type was pushed, and nothing else has happened that the code could see. -/
structure Pushed (p : Program) (place : Option FuncDef) (type : Ty) (base : List Word) (v : Word)
    (w : Meaning.State) (c : Control) (s : Machine.State) : Prop where
  control : c = .next
  ready : Ready p place w s
  holds : Holds type v
  live : s.stack.live = v :: base

variable {n depth : Nat} {env : Machine.Env} {span : Span}
variable {v : Word}

variable (h : Ready p place w s) (hc : Scoped p place) (hb : Bound p place x type scope)
  (hp : (contextAt mode p place).place? x = some pl)
include h hc hb hp

theorem get_follows :
    Follows n (Pushed p place type s.stack.live) (code env depth [.get pl x]) s
      ((Meaning.read x).run w) := by
  obtain ⟨u, hu, ht, hpl⟩ := h.value hc hb hp
  have eval : (Meaning.read x).run w = (.ok u, w) := by
    simp only [Meaning.read, Machine.run_bind, Machine.run_get, hu, Machine.run_pure]
  rw [eval]
  cases pl with
  | slot =>
    obtain ⟨t, hs, hk, hl⟩ := Machine.localGet_settles env depth hpl.1
    exact .done (code_single hs) ⟨rfl, h.keeps hk, ht, hl⟩
  | global =>
    obtain ⟨t, hs, hk, hl⟩ := Machine.globalGet_settles env depth hpl.1
    exact .done (code_single hs) ⟨rfl, h.keeps hk, ht, hl⟩

theorem set_follows (hv : Holds type v) (hl : s.stack.live = v :: base) :
    ∃ w' t, (Meaning.write x v).run w = (.ok (), w') ∧
      Settles (code env depth [.set pl x]) s (.ok .next, t) ∧ Ready p place w' t ∧
      t.stack.live = base := by
  obtain ⟨u, hu, -, hpl⟩ := h.value hc hb hp
  have eval : (Meaning.write x v).run w = (.ok (), w.update x v) := by
    simp [Meaning.write, Meaning.read, Machine.run_bind, Machine.run_get, hu,
      Machine.run_modify]
  cases pl with
  | slot =>
    obtain ⟨t, hs, hg, hl', hpr, hb'⟩ := Machine.localSet_settles env depth hl hpl.1
    exact ⟨_, t, eval, code_single hs, h.setSlot hc hb hv hpl.2.1 hpl.2.2 hg hpr hl', hb'⟩
  | global =>
    obtain ⟨t, hs, hg, hl', hpr, hb'⟩ := Machine.globalSet_settles env depth hl hpl.1 rfl
    exact ⟨_, t, eval, code_single hs, h.setGlobal hc hb hv hpl.2 hg hpr hl', hb'⟩

end names

end states

/-- Values of some types were pushed in their order. -/
structure PushedAll (p : Program) (place : Option FuncDef) (types : List Ty) (base : List Word)
    (vs : List Word) (w : Meaning.State) (c : Control) (s : Machine.State) : Prop where
  control : c = .next
  ready : Ready p place w s
  holds : List.Forall₂ Holds types vs
  live : s.stack.live = vs.reverse ++ base

/-- The calls that code makes at a depth follow an evaluation of calls. -/
structure CallsFollow (n : Nat) (env : Machine.Env) (depth : Nat) (p : Program)
    (call : String → List Word → Eval Word) : Prop where
  call {f : String} {types : List Ty} {result : Ty} {place : Option FuncDef} {w : Meaning.State}
    {s : Machine.State} {args base : List Word} (callee : Rules.Callable p f types result)
    (h : PushedAll p place types base args w .next s) :
    Follows n (Pushed p place result base) (code env depth [.call f]) s ((call f args).run w)
  print {type : Ty} {target : String} {place : Option FuncDef} {w : Meaning.State}
    {s : Machine.State} {v : Word} {base : List Word} (printer : printer? (some type) = some target)
    (ready : Ready p place w s) (live : s.stack.live = v :: base) :
    Follows n (Pushed p place .unit base) (code env depth [.call target]) s
      ((Meaning.print (some type) [v]).run w)

section expressions

variable {p : Program} {place : Option FuncDef} {mode : Arithmetic} {n depth : Nat}
  {env : Machine.Env} {call : String → List Word → Eval Word} {w : Meaning.State}
  {s : Machine.State} {base : List Word}
variable {type : Ty} {o : WordOp} {v a b : Word} {op : BinaryOp} {span : Span}

theorem const_code_settles (env : Machine.Env) (depth : Nat) (s : Machine.State) {v : Int}
    (h : -2147483648 ≤ v ∧ v < 4294967296) :
    ∃ t, Settles (code env depth [.const v]) s (.ok .next, t) ∧ Machine.Keeps s t ∧
      t.stack.live = BitVec.ofInt 32 v :: s.stack.live := by
  obtain ⟨t, hs, hk, hl⟩ := Machine.const_settles env depth (Machine.constant?_toString h)
  exact ⟨t, code_single hs, hk, hl⟩

theorem holds_literal (h : HasType p place (.literal l) type) :
    Holds type (Meaning.literal l) := by
  cases h with
  | int _ => trivial
  | truth kind => rcases kind with kind | kind <;> simp [Holds, Meaning.literal, kind]
  | unit _ => trivial

theorem holds_ofBool (b : Bool) : Holds .bool (Word.ofBool b) := by
  cases b
  · exact .inl rfl
  · exact .inr rfl

theorem constOp_follows {a : Ty} (hk : -2147483648 ≤ k ∧ k < 4294967296)
    (ho : o.eval v (BitVec.ofInt 32 k) = .ok u) (hu : Holds type u)
    (h : Pushed p place a base v w c s) :
    Follows n (Pushed p place type base) (code env depth [.const k, .op o]) s (.ok u, w) := by
  obtain ⟨t, hs, keeps, hl⟩ := const_code_settles env depth s hk
  rw [h.live] at hl
  obtain ⟨t', hs', keeps', hl'⟩ := Machine.op_settles env depth hl ho
  exact .done (code_settles hs (code_single hs')) ⟨rfl, (h.ready.keeps keeps).keeps keeps', hu, hl'⟩

theorem holds_comparison (hop : op ∈ [.gt, .ge, .lt, .le] ∨ op ∈ [.eq, .ne] ∨ op = .is)
    (ho : op.wordOp? mode = some o) (hv : o.eval a b = .ok v) : Holds .bool v := by
  cases op <;> first | cases ho <;> cases hv <;> exact holds_ofBool _ | simp at hop

section

variable (ht : HasType p place (.binary span t op lhs rhs) type)
  (ho : op.wordOp? mode = some o)
include ht ho

theorem holds_binary (hv : o.eval a b = .ok v) : Holds type v := by
  cases ht with
  | arith => trivial
  | order op_mem => exact holds_comparison (.inl op_mem) ho hv
  | equality op_mem => exact holds_comparison (.inr (.inl op_mem)) ho hv
  | identity => exact holds_comparison (.inr (.inr rfl)) ho hv

theorem binary_follows (h : Ready p place w s) (hl : s.stack.live = b :: a :: base) :
    Follows n (Pushed p place type base) (code env depth [.op o]) s
      ((Meaning.binary mode op a b).run w) := by
  rw [Meaning.binary_eq ho]
  cases hv : o.eval a b with
  | error fault =>
    obtain ⟨t, hs, hk⟩ := Machine.op_traps env depth hl hv
    exact .trap (code_single_error hs) (h.keeps hk).visible
  | ok v =>
    obtain ⟨t, hs, hk, hl'⟩ := Machine.op_settles env depth hl hv
    exact .done (code_single hs) ⟨rfl, h.keeps hk, holds_binary ht ho hv, hl'⟩

end

theorem printer_of_target (h : callTarget span "print" [e] = .ok target) :
    ∃ type, e.type = some type ∧ printer? (some type) = some target := by
  rw [callTarget] at h
  cases ht : e.type with
  | none => simp [ht, printer?, StackCode.fault] at h
  | some type =>
    cases type <;> simpa [ht, printer?] using h

variable (hc : CallsFollow n env depth p call) (hs : Scoped p place)
  (hh : ∀ f ∈ p.funcs, f.name ∉ Rules.hostNames)
include hc hs hh

mutual

theorem expr_follows :
    (e : Expr) → ∀ {type is w s}, HasType p place e type → e.All Expr.Representable →
      StackCode.expr (contextAt mode p place) e = .ok is → Ready p place w s →
      Follows n (Pushed p place type s.stack.live) (code env depth is) s
        ((Meaning.expr mode call e).run w)
  | .literal l, type, is, w, s, ht, hr, h, ready => by
    cases h
    obtain ⟨t, settles, keeps, live⟩ :=
      const_code_settles env depth s (Literal.encode_range ht hr.self)
    rw [Literal.ofInt_encode] at live
    exact .done settles ⟨rfl, ready.keeps keeps, holds_literal ht, live⟩
  | .name span t x sc, type, is, w, s, ht, hr, h, ready => by
    obtain ⟨pl, hp, rfl⟩ := StackCode.expr_name_ok.1 h
    cases ht with
    | name bound => exact get_follows ready hs bound (place_ok.1 hp).2
  | .unary span t op e, type, is, w, s, ht, hr, h, ready => by
    obtain ⟨c, he, rfl⟩ := StackCode.expr_unary_ok.1 h
    cases ht with
    | neg operand =>
      refine (expr_follows e operand hr.2 he ready).append fun v w' c t pushed => ?_
      cases pushed.control
      refine constOp_follows (by decide) ?_ trivial pushed
      rw [WordOp.eval, Meaning.neg_eq]
    | not operand =>
      refine (expr_follows e operand hr.2 he ready).append fun v w' c t pushed => ?_
      cases pushed.control
      refine constOp_follows (by decide) rfl ?_ pushed
      rcases pushed.holds with rfl | rfl
      · exact .inr rfl
      · exact .inl rfl
  | .binary span t op lhs rhs, type, is, w, s, ht, hr, h, ready => by
    obtain ⟨l, r, o, hl, hr', ho, rfl⟩ := StackCode.expr_binary_ok.1 h
    obtain ⟨a, b, ha, hb, -⟩ := ht.operands
    rw [List.append_assoc]
    refine (expr_follows lhs ha hr.2.1 hl ready).append fun v w' c t left => ?_
    cases left.control
    refine (expr_follows rhs hb hr.2.2 hr' left.ready).append fun u w'' c t' right => ?_
    cases right.control
    exact binary_follows ht ho right.ready (right.live.trans (by rw [left.live]))
  | .call span t f args, type, is, w, s, ht, hr, h, ready => by
    obtain ⟨c, target, hargs, htarget, rfl⟩ := StackCode.expr_call_ok.1 h
    cases ht with
    | @print _ _ e _ arg =>
      obtain ⟨printed, hp, hprinter⟩ := printer_of_target htarget
      refine (arguments_follow [e] (.cons arg .nil) hr.2 hargs ready).append
        fun vs w' c t pushed => ?_
      cases pushed.control
      obtain ⟨v, hv⟩ : ∃ v, vs = [v] := by
        cases pushed.holds with
        | cons _ rest => cases rest with
          | nil => exact ⟨_, rfl⟩
      subst hv
      rw [List.head?_cons, Option.bind_some, hp]
      exact hc.print hprinter pushed.ready pushed.live
    | call callee given =>
      have hne := callee.ne_print hh
      rw [StackCode.callTarget_other hne] at htarget
      cases htarget
      refine (arguments_follow args given hr.2 hargs ready).append
        fun vs w' c t pushed => ?_
      cases pushed.control
      rw [if_neg hne]
      exact hc.call callee pushed
  | .unknown span t, _, _, _, _, ht, _, _, _ => nomatch ht

theorem arguments_follow :
    (args : List Expr) → ∀ {types is w s}, Rules.HaveTypes p place args types →
      Expr.AllIn Expr.Representable args →
      StackCode.arguments (contextAt mode p place) args = .ok is → Ready p place w s →
      Follows n (PushedAll p place types s.stack.live) (code env depth is) s
        ((Meaning.arguments mode call args).run w)
  | [], _, is, w, s, .nil, _, h, ready => by
    cases h
    exact .done (Machine.settles_nil env depth s) ⟨rfl, ready, .nil, rfl⟩
  | e :: rest, _, is, w, s, .cons head tail, hr, h, ready => by
    obtain ⟨c, d, he, hd, rfl⟩ := StackCode.arguments_cons_ok.1 h
    refine (expr_follows e head hr.1 he ready).append fun v w' c t pushed => ?_
    cases pushed.control
    refine (arguments_follow rest tail hr.2 hd pushed.ready).map ?_
    intro vs w'' c t' all
    exact ⟨all.control, all.ready, .cons pushed.holds all.holds, by
      rw [all.live, pushed.live, List.reverse_cons, List.append_assoc]
      rfl⟩

end

end expressions

/-- How control leaves the code of a statement. -/
inductive Left (p : Program) (place : Option FuncDef) (base : List Word) :
    Flow → Meaning.State → Control → Machine.State → Prop
  | next {w : Meaning.State} {s : Machine.State} (ready : Ready p place w s)
      (live : s.stack.live = base) : Left p place base .next w .next s
  | ret {v : Word} {w : Meaning.State} {s : Machine.State} (ready : Ready p place w s)
      (live : s.stack.live = v :: base)
      (holds : ∃ f type, place = some f ∧ f.returns = some type ∧ Holds type v) :
      Left p place base (.ret v) w .ret s

section statements

variable {p : Program} {place : Option FuncDef} {mode : Arithmetic} {n depth : Nat}
  {env : Machine.Env} {call : String → List Word → Eval Word} {w : Meaning.State}
  {s t : Machine.State} {base : List Word}
variable {v : Word} {cond body : List Instr} {test : Eval Word} {inside : Eval Flow}

theorem Ready.setScratch (h : Ready p place w s) (hg : t.globals = s.globals)
    (hp : t.printed = s.printed)
    (hl : t.locals = Machine.setSlot (key StackCode.scratch) v s.locals) : Ready p place w t := by
  refine ⟨⟨hg.trans h.visible.globals, hp.trans h.visible.printed⟩, h.typed, ?_, ?_⟩
  · intro x hx
    rw [hl, lookup_setSlot, if_neg, h.slots x hx]
    rwa [key_inj]
  · obtain ⟨u, hu⟩ := h.scratch
    exact ⟨v, by rw [hl, lookup_setSlot, hu]; rfl⟩

theorem scratch_settles (h : Ready p place w s) (hl : s.stack.live = v :: base) :
    ∃ t, Settles (code env depth [.set .slot StackCode.scratch]) s (.ok .next, t) ∧
      Ready p place w t ∧ t.stack.live = base ∧
      t.locals.lookup (key StackCode.scratch) = some v := by
  obtain ⟨u, hu⟩ := h.scratch
  obtain ⟨t, hs, hg, hloc, hp, hb⟩ := Machine.localSet_settles env depth hl hu
  refine ⟨t, code_single hs, h.setScratch hg hp hloc, hb, ?_⟩
  rw [hloc, lookup_setSlot, hu]
  rfl

theorem choice_follows {yes : Eval Flow} (h : Pushed p place .bool base v w c s)
    (hyes : ∀ t, Ready p place w t → t.stack.live = base → Follows n post (code env depth thenArm) t (yes.run w))
    (hno : ∀ t, Ready p place w t → t.stack.live = base → Follows n post (code env depth elseArm) t (no.run w)) :
    Follows n post (code env depth [.cond thenArm elseArm]) s
      ((if v = 0 then no else yes).run w) := by
  obtain ⟨t, pops, keeps, live⟩ := Machine.run_pop h.live
  have ready := h.ready.keeps keeps
  have popped : Settles (fun _ => Machine.pop) s (.ok v, t) := Settles.of_run pops
  have arm : Follows n post (code env depth (if v = 0 then elseArm else thenArm)) t
      ((if v = 0 then no else yes).run w) := by
    split
    · exact hno t ready live
    · exact hyes t ready live
  refine Follows.single ?_
  rw [Instr.sexpr, Machine.instr_cond_eq]
  refine (Follows.after (Machine.settles_nil env depth s) ?_).later.mono (Nat.le_succ n)
  refine Follows.after popped ?_
  have chosen : Instr.sexprs (if v = 0 then elseArm else thenArm) =
      if v = 0 then Instr.sexprs elseArm else Instr.sexprs thenArm := by
    split <;> rfl
  rw [← chosen]
  exact arm

/-- One pass of a loop: how control leaves the loop, or nothing if the loop goes on. -/
def pass (cond : Eval Word) (body : Eval Flow) : Eval (Option Flow) := do
  if (← cond) = 0 then return some .next
  else
    match ← body with
    | .next => return none
    | .ret v => return some (.ret v)

theorem loop_succ (cond : Eval Word) (body : Eval Flow) (k : Nat) :
    Meaning.loop cond body (k + 1) = pass cond body >>= fun left =>
      match left with
      | some flow => pure flow
      | none => Meaning.loop cond body k := by
  rw [pass, bind_assoc]
  refine congrArg (cond >>= ·) (funext fun v => ?_)
  split
  · rfl
  · rw [bind_assoc]
    refine congrArg (body >>= ·) (funext fun flow => ?_)
    cases flow <;> rfl

/-- How control leaves the code of one pass of the loop with the number `k`. -/
inductive PassLeft (p : Program) (place : Option FuncDef) (base : List Word) (k : Nat) :
    Option Flow → Meaning.State → Control → Machine.State → Prop
  | stop {w : Meaning.State} {s : Machine.State} (ready : Ready p place w s)
      (live : s.stack.live = base) :
      PassLeft p place base k (some .next) w (.branch (key (StackCode.breakLabel k))) s
  | again {w : Meaning.State} {s : Machine.State} (ready : Ready p place w s)
      (live : s.stack.live = base) :
      PassLeft p place base k none w (.branch (key (StackCode.loopLabel k))) s
  | ret {v : Word} {w : Meaning.State} {s : Machine.State}
      (left : Left p place base (.ret v) w .ret s) :
      PassLeft p place base k (some (.ret v)) w .ret s

theorem test_settles (env : Machine.Env) (depth : Nat) (label : String)
    (h : Pushed p place .bool base v w c s) :
    ∃ t, Settles (code env depth [.const 1, .op .xor, .brIf label]) s
        (.ok (if v = 0 then .branch (key label) else .next), t) ∧
      Ready p place w t ∧ t.stack.live = base := by
  obtain ⟨t, hconst, keeps, live⟩ := const_code_settles env depth s (v := 1) (by decide)
  rw [h.live] at live
  obtain ⟨t', hxor, keeps', live'⟩ := Machine.op_settles (o := .xor) env depth live rfl
  obtain ⟨t'', hbr, keeps'', live''⟩ := Machine.brIf_settles env depth (key label) live'
  have chosen : (if v ^^^ BitVec.ofInt 32 1 = 0 then Control.next else .branch (key label)) =
      if v = 0 then .branch (key label) else .next := by
    rcases h.holds with rfl | rfl <;> rfl
  rw [chosen] at hbr
  refine ⟨t'', ?_, ((h.ready.keeps keeps).keeps keeps').keeps keeps'', live''⟩
  exact code_settles hconst (code_settles (code_single hxor) (code_single hbr))

theorem pass_follows
    (hcond : Follows n (Pushed p place .bool base) (code env depth cond) s (test.run w))
    (hbody : ∀ w t, Ready p place w t → t.stack.live = base → Follows n (Left p place base) (code env depth body) t (inside.run w)) :
    Follows n (PassLeft p place base k) (code env depth (loopPass k cond body)) s
      ((pass test inside).run w) := by
  rw [loopPass, List.append_assoc, List.append_assoc]
  refine hcond.append fun v w' c t pushed => ?_
  cases pushed.control
  obtain ⟨t', settles, ready, live⟩ := test_settles env depth (breakLabel k) pushed
  by_cases hv : v = 0
  · rw [if_pos hv] at settles ⊢
    exact .done (code_leaves _ settles (by nofun)) (.stop ready live)
  · rw [if_neg hv] at settles ⊢
    refine Follows.after_code settles ?_
    refine (hbody w' t' ready live).append fun flow w'' c u left => ?_
    cases left with
    | next ready live =>
      exact .done (code_single (Machine.br_settles env depth _)) (.again ready live)
    | ret ready live holds =>
      exact .done (Settles.const (pure Control.ret) u) (.ret (.ret ready live holds))

/-- How control leaves the code of the loop with the number `k`. -/
inductive LoopLeft (p : Program) (place : Option FuncDef) (base : List Word) (k : Nat) :
    Flow → Meaning.State → Control → Machine.State → Prop
  | stop {w : Meaning.State} {s : Machine.State} (ready : Ready p place w s)
      (live : s.stack.live = base) :
      LoopLeft p place base k .next w (.branch (key (StackCode.breakLabel k))) s
  | ret {v : Word} {w : Meaning.State} {s : Machine.State}
      (left : Left p place base (.ret v) w .ret s) : LoopLeft p place base k (.ret v) w .ret s

theorem check_settles (hb : env.budget = none) (h : Ready p place w s) (hl : s.stack.live = base) :
    ∃ t, Settles (fun _ => Machine.check env) s (.ok (), t) ∧ Ready p place w t ∧
      t.stack.live = base := by
  refine ⟨{ s with checks := s.checks + 1 }, ?_, h.keeps ⟨rfl, rfl, rfl⟩, hl⟩
  rw [← Machine.run_check env hb]
  exact Settles.const _ s

theorem cut_settles (h : Ready p place w s) (hl : s.stack.live = base) :
    ∃ t, Settles (fun _ => Machine.cut base.length) s (.ok (), t) ∧ Ready p place w t ∧
      t.stack.live = base := by
  have split : s.stack.live = [] ++ base := hl
  obtain ⟨t, cuts, keeps, live⟩ := Machine.run_cut split
  exact ⟨t, Settles.of_run cuts, h.keeps keeps, live⟩

/-- The passes of a loop follow its evaluation. The induction is on the fuel of the loop: each pass
takes a piece of fuel on both sides. -/
theorem passes_follow (hb : env.budget = none) {body : List Sexpr}
    (hpass : ∀ w s, Ready p place w s → s.stack.live = base → Follows n (PassLeft p place base k) (fun fuel => seq env fuel depth body) s ((pass test inside).run w))
    (fuel : Nat) (hf : fuel ≤ n) (w : Meaning.State) (s : Machine.State) (h : Ready p place w s)
    (hl : s.stack.live = base) :
    Follows fuel (LoopLeft p place base k)
      (fun m => passes env m depth true (some (key (loopLabel k))) base.length body) s
      ((Meaning.loop test inside fuel).run w) := by
  have ne : key (loopLabel k) ≠ key (breakLabel k) := by
    rw [ne_eq, key_inj]
    exact (StackCode.breakLabel_ne_loopLabel k k).symm
  induction fuel generalizing w s with
  | zero =>
    rw [Machine.passes_eq]
    exact .lasts (Lasts.zero _ s)
  | succ fuel ih =>
    obtain ⟨t, checked, ready, live⟩ := check_settles hb h hl
    rw [loop_succ, Machine.passes_eq]
    refine Follows.later (Follows.after checked ?_)
    refine ((hpass w t ready live).mono (by omega)).bind fun flow w' c u left => ?_
    cases left with
    | stop ready live =>
      refine .done (b := .branch (key (breakLabel k))) (t := u) ?_ (.stop ready live)
      simp only [Machine.repass, Option.some.injEq, if_neg ne]
      exact Settles.const (pure _) u
    | again ready live =>
      obtain ⟨u', cuts, ready', live'⟩ := cut_settles ready live
      simp only [Machine.repass]
      exact Follows.after cuts (ih (by omega) w' u' ready' live')
    | ret left => exact .done (Settles.const (pure Control.ret) u) (.ret left)

theorem while_follows (hb : env.budget = none)
    (hcond : ∀ w s, Ready p place w s → s.stack.live = base → Follows n (Pushed p place .bool base) (code env depth cond) s (test.run w))
    (hbody : ∀ w t, Ready p place w t → t.stack.live = base → Follows n (Left p place base) (code env depth body) t (inside.run w))
    (h : Ready p place w s) (hl : s.stack.live = base) :
    Follows n (Left p place base)
      (code env depth [.block (breakLabel k)
        [.loop (loopLabel k) (loopPass k cond body)]]) s
      ((Meaning.loop test inside n).run w) := by
  have measured : ∀ {t : Machine.State}, t.stack.live = base →
      Settles (fun _ => Machine.height) t (.ok base.length, t) := by
    intro t ht
    have run : Machine.height.run t = (.ok base.length, t) := by
      rw [← ht]
      rfl
    exact Settles.of_run run
  have loop : ∀ t, Ready p place w t → t.stack.live = base →
      Follows n (LoopLeft p place base k) (code env depth
        [.loop (loopLabel k) (loopPass k cond body)]) t
        ((Meaning.loop test inside n).run w) := by
    intro t ready live
    refine Follows.single ?_
    rw [Instr.sexpr, Machine.instr_passes_eq _ _ true Machine.ofName_loop]
    refine (Follows.after (measured live) ?_).later.mono (Nat.le_succ n)
    exact passes_follow hb (fun w s h hl => pass_follows (hcond w s h hl) hbody) n (Nat.le_refl n)
      w t ready live
  obtain ⟨t, checked, ready, live⟩ := check_settles hb h hl
  refine Follows.single ?_
  rw [Instr.sexpr, Machine.instr_passes_eq _ _ false Machine.ofName_block]
  refine (Follows.after (measured hl) ?_).later.mono (Nat.le_succ n)
  rw [Machine.passes_eq]
  refine (Follows.after checked ?_).later.mono (Nat.le_succ n)
  refine Follows.before (loop t ready live) fun flow w' c u left => ?_
  cases left with
  | stop ready live =>
    obtain ⟨u', cuts, ready', live'⟩ := cut_settles ready live
    refine ⟨.next, u', ?_, .next ready' live'⟩
    simp only [Machine.repass]
    exact cuts.bind (Settles.const (pure Control.next) u')
  | ret left => exact ⟨.ret, u, Settles.const (pure Control.ret) u, left⟩

variable (hb : env.budget = none) (hc : CallsFollow n env depth p call) (hs : Scoped p place)
  (hh : ∀ f ∈ p.funcs, f.name ∉ Rules.hostNames)
include hb hc hs hh

mutual

theorem stmt_follows :
    (st : Stmt) → ∀ {k is w s}, Rules.StmtTyped p place st →
      st.All Expr.Representable (fun _ => True) →
      StackCode.stmt (contextAt mode p place) k st = .ok is → Ready p place w s →
      Follows n (Left p place s.stack.live) (code env depth is) s
        ((Meaning.stmt mode call n st).run w)
  | .pass span, k, is, w, s, _, _, h, ready => by
    cases h
    exact .done (code_single (Machine.nop_settles env depth)) (.next ready rfl)
  | .assign span x sc e, k, is, w, s, .assign target value, hr, h, ready => by
    obtain ⟨pl, c, hp, he, rfl⟩ := StackCode.stmt_assign_ok.1 h
    refine (expr_follows hc hs hh e value hr.2 he ready).append fun v w' c t pushed => ?_
    cases pushed.control
    obtain ⟨w'', t', eval, settles, ready', live⟩ :=
      set_follows pushed.ready hs target (place_ok.1 hp).2 pushed.holds pushed.live
    rw [Machine.run_bind, eval]
    exact .done settles (.next ready' live)
  | .expr span e, k, is, w, s, .expr value, hr, h, ready => by
    obtain ⟨c, he, rfl⟩ := StackCode.stmt_expr_ok.1 h
    refine (expr_follows hc hs hh e value hr.2 he ready).append fun v w' c t pushed => ?_
    cases pushed.control
    obtain ⟨t', settles, ready', live, -⟩ := scratch_settles pushed.ready pushed.live
    exact .done settles (.next ready' live)
  | .ret span e, k, is, w, s, .ret within returns value, hr, h, ready => by
    obtain ⟨c, he, rfl⟩ := StackCode.stmt_ret_ok.1 h
    refine (expr_follows hc hs hh e value hr.2 he ready).append fun v w' c t pushed => ?_
    cases pushed.control
    exact .done (code_single (Machine.return_settles env depth))
      (.ret pushed.ready pushed.live ⟨_, _, within, returns, pushed.holds⟩)
  | .while span c body, k, is, w, s, .while cond inside, hr, h, ready => by
    obtain ⟨condCode, bodyCode, hcond, hbody, rfl⟩ := StackCode.stmt_while_ok.1 h
    refine while_follows hb ?_ ?_ ready rfl
    · intro w' t ready' live
      rw [← live]
      exact expr_follows hc hs hh c cond hr.2.1 hcond ready'
    · intro w' t ready' live
      rw [← live]
      exact block_follows body inside hr.2.2 hbody ready'
  | .cond span c body clauses otherwise, k, is, w, s, .cond cond inside elifs last, hr, h,
      ready => by
    obtain ⟨condCode, thenArm, elseArm, hcond, hthen, helse, rfl⟩ := StackCode.stmt_cond_ok.1 h
    refine (expr_follows hc hs hh c cond hr.2.1 hcond ready).append fun v w' ctl t pushed => ?_
    cases pushed.control
    refine choice_follows pushed (fun t' ready' live => ?_) (fun t' ready' live => ?_)
    · rw [← live]
      exact block_follows body inside hr.2.2.1 hthen ready'
    · rw [← live]
      refine clauses_follow clauses elifs hr.2.2.2.1 ?_ helse ready'
      intro lastCode w'' t'' hlast ready''
      exact block_follows otherwise last hr.2.2.2.2 hlast ready''
  | .unknown span, _, _, _, _, ht, _, _, _ => nomatch ht

theorem block_follows :
    (ss : List Stmt) → ∀ {k is w s}, Rules.BlockTyped p place ss →
      Stmt.AllIn Expr.Representable (fun _ => True) ss →
      StackCode.stmts (contextAt mode p place) k ss = .ok is → Ready p place w s →
      Follows n (Left p place s.stack.live) (code env depth is) s
        ((Meaning.block mode call n ss).run w)
  | [], k, is, w, s, _, _, h, ready => by
    cases h
    exact .done (Machine.settles_nil env depth s) (.next ready rfl)
  | st :: rest, k, is, w, s, .cons head tail, hr, h, ready => by
    obtain ⟨first, others, hf, ho, rfl⟩ := StackCode.stmts_cons_ok.1 h
    refine (stmt_follows st head hr.1 hf ready).append fun flow w' c t left => ?_
    cases left with
    | next ready' live =>
      rw [← live]
      exact block_follows rest tail hr.2 ho ready'
    | ret ready' live holds =>
      exact .done (Settles.const (pure Control.ret) t) (.ret ready' live holds)

theorem clauses_follow :
    (es : List Elif) → ∀ {k is w s last lastEval}, Rules.ClausesTyped p place es →
      Stmt.AllInElifs Expr.Representable (fun _ => True) es →
      (∀ {lastCode w t}, last = .ok lastCode → Ready p place w t →
        Follows n (Left p place t.stack.live) (code env depth lastCode) t (lastEval.run w)) →
      StackCode.elifs (contextAt mode p place) k last es = .ok is → Ready p place w s →
      Follows n (Left p place s.stack.live) (code env depth is) s
        ((Meaning.elifs mode call n lastEval es).run w)
  | [], k, is, w, s, last, lastEval, _, _, hlast, h, ready => by
    exact hlast h ready
  | .mk span c body :: rest, k, is, w, s, last, lastEval, .cons cond inside tail, hr, hlast, h,
      ready => by
    obtain ⟨condCode, thenArm, elseArm, hcond, hthen, helse, rfl⟩ := StackCode.elifs_cons_ok.1 h
    refine (expr_follows hc hs hh c cond hr.1 hcond ready).append fun v w' ctl t pushed => ?_
    cases pushed.control
    refine choice_follows pushed (fun t' ready' live => ?_) (fun t' ready' live => ?_)
    · rw [← live]
      exact block_follows body inside hr.2.1 hthen ready'
    · rw [← live]
      exact clauses_follow rest tail hr.2.2 hlast helse ready'

end

end statements

end Simulation
end WordScript
