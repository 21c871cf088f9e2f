import WordScript.Proofs.Evaluation
import WordScript.Proofs.Representation

/-! Runs that come to an end are evaluations by the rules.

A run of generated code is read from its start: what is left of the code runs on from the state that
the code before it has led to. The rules leave out signed remainders of quotients that are out of
range, so the run has to do without them. -/
namespace WordScript
open StackCode (arms breakLabel contextAt expr form funcOf linkedImport loaded loopLabel loopPass
  place_ok scratch stmt stmts)
open Rules (Bound WellTyped hostNames)

namespace Machine

/-- No signed remainder is computed of a quotient that is out of range, from a point on. -/
def InRange (env : Env) (x : Point) : Prop :=
  ∀ y, Reaches env x y → y.task = .instr (StackCode.Instr.op (.rem .signed)).sexpr →
    ∀ a b rest, y.state.stack.live = b :: a :: rest → ¬ a.Overflows b

theorem InRange.step (h : InRange env x) (hs : Starts env x y) :
    InRange env y := fun z hz => h z (.head hs hz)

end Machine

namespace Simulation

open Machine (Control InRange Keeps Point Settles Starts)
open StackCode (Instr key)
open Meaning (Applies Answers Chooses Flow Runs RunsAll Yields YieldsAll)

/-- What is left of the code of a function runs to an end. -/
structure Goes (env : Machine.Env) (depth : Nat) (g : Option (Machine.Func Machine.HostFunc))
    (fuel : Nat) (is : List Instr) (s : Machine.State) (c : Control) (t : Machine.State) : Prop where
  run : (Machine.seq env fuel depth (Instr.sexprs is)).run s = (.ok c, t)
  range : InRange env ⟨depth, g, .seq (Instr.sexprs is), s⟩

/-- After an instruction was left with `c'`, the code after it runs on unless control has left. -/
inductive Onward (env : Machine.Env) (depth : Nat) (g : Option (Machine.Func Machine.HostFunc))
    (fuel : Nat) (rest : List Instr) (c : Control) (t : Machine.State) :
    Control → Machine.State → Prop
  | next {u : Machine.State} {k : Nat} (le : k ≤ fuel) (goes : Goes env depth g k rest u c t) :
      Onward env depth g fuel rest c t .next u
  | left (leaves : c ≠ .next) : Onward env depth g fuel rest c t c t

section steps

variable {env : Machine.Env} {depth fuel : Nat} {g : Option (Machine.Func Machine.HostFunc)}
  {i : Instr} {rest : List Instr} {s t u : Machine.State} {c : Control} {base : List Word}

theorem Goes.nil (h : Goes env depth g fuel [] s c t) : c = .next ∧ t = s :=
  Machine.seq_nil_ok h.run

theorem Goes.append_nil (h : Goes env depth g fuel is s c t) :
    Goes env depth g fuel (is ++ []) s c t := by rwa [List.append_nil]

theorem Goes.cons (h : Goes env depth g fuel (i :: rest) s c t) :
    ∃ k c' u, k < fuel ∧ (Machine.instr env k depth i.sexpr).run s = (.ok c', u) ∧
      InRange env ⟨depth, g, .instr i.sexpr, s⟩ ∧ Onward env depth g k rest c t c' u := by
  obtain ⟨run, range⟩ := h
  obtain ⟨k, c', u, rfl, first, run⟩ := Machine.seq_cons_ok run
  refine ⟨k, c', u, Nat.lt_succ_self k, first, range.step .first, ?_⟩
  cases c' with
  | next => exact .next le_rfl ⟨run, range.step (.rest first)⟩
  | branch l =>
    cases run
    exact .left nofun
  | ret =>
    cases run
    exact .left nofun

theorem Onward.goes (h : Onward env depth g fuel rest c t .next u) :
    ∃ k ≤ fuel, Goes env depth g k rest u c t := by
  generalize next : Control.next = c' at h
  cases h with
  | next le goes => exact ⟨_, le, goes⟩
  | left leaves => exact absurd next.symm leaves

theorem Onward.same (h : Onward env depth g fuel rest c t c' u) (hc : c' ≠ .next) :
    c = c' ∧ t = u := by
  cases h with
  | next => exact absurd rfl hc
  | left => exact ⟨rfl, rfl⟩

theorem Goes.after (h : Goes env depth g fuel (i :: rest) s c t)
    (hs : Settles (fun k => Machine.instr env k depth i.sexpr) s (.ok .next, u)) :
    ∃ k ≤ fuel, Goes env depth g k rest u c t := by
  obtain ⟨k, c', v, less, first, -, onward⟩ := h.cons
  cases hs.eq_of_ok first
  obtain ⟨k', le, goes⟩ := onward.goes
  exact ⟨k', le.trans less.le, goes⟩

theorem Goes.left (h : Goes env depth g fuel (i :: rest) s c t)
    (hs : Settles (fun k => Machine.instr env k depth i.sexpr) s (.ok c', u)) (hc : c' ≠ .next) :
    c = c' ∧ t = u := by
  obtain ⟨k, c'', v, -, first, -, onward⟩ := h.cons
  cases hs.eq_of_ok first
  exact onward.same hc

theorem Goes.const (h : Goes env depth g fuel (.const v :: rest) s c t) :
    ∃ k u, k ≤ fuel ∧ Keeps s u ∧ u.stack.live = BitVec.ofInt 32 v :: s.stack.live ∧
      Goes env depth g k rest u c t := by
  obtain ⟨k, c', u, less, first, -, onward⟩ := h.cons
  obtain ⟨rfl, keeps, live⟩ := StackCode.const_ok first
  obtain ⟨k', le, goes⟩ := onward.goes
  exact ⟨k', u, le.trans less.le, keeps, live, goes⟩

theorem Goes.op (h : Goes env depth g fuel (.op o :: rest) s c t)
    (live : s.stack.live = b :: a :: base) :
    ∃ k v u, k ≤ fuel ∧ Applies o a b v ∧ Keeps s u ∧ u.stack.live = v :: base ∧
      Goes env depth g k rest u c t := by
  obtain ⟨k, c', u, less, first, range, onward⟩ := h.cons
  obtain ⟨v, value, rfl, keeps, live'⟩ := StackCode.op_ok live first
  have applies : Applies o a b v := by
    refine ⟨value, ?_⟩
    rintro rfl
    exact range _ .refl rfl a b base live
  obtain ⟨k', le, goes⟩ := onward.goes
  exact ⟨k', v, u, le.trans less.le, applies, keeps, live', goes⟩

end steps

/-- Calls of functions that come to an end with less than some fuel are calls by the rules. -/
def CallsDerived (p : Program) (mode : Arithmetic) (env : Machine.Env) (bound : Nat) : Prop :=
  ∀ {fuel f types result place w s t args base depth v callee}
    {g : Option (Machine.Func Machine.HostFunc)}, fuel < bound →
    Rules.Callable p f types result → env.funcs.find? (·.name == key f) = some callee →
    PushedAll p place types base args w .next s → InRange env ⟨depth, g, .call callee, s⟩ →
    (Machine.call env fuel depth callee).run s = (.ok v, t) →
    ∃ w', Answers p mode f args w v w' ∧ Returned p place result base v w' v t

section expressions

variable {p : Program} {place : Option FuncDef} {mode : Arithmetic} {env : Machine.Env}
  {depth fuel bound : Nat} {g : Option (Machine.Func Machine.HostFunc)} {rest : List Instr}
  {w : Meaning.State} {s t : Machine.State} {c : Control} {base : List Word}
variable {f : String}

/-- The code in front of `rest` has led to a state that `rest` runs on from. -/
def Continues (env : Machine.Env) (depth : Nat) (g : Option (Machine.Func Machine.HostFunc))
    (fuel : Nat) (rest : List Instr) (c : Control) (t : Machine.State)
    (post : Machine.State → Prop) : Prop :=
  ∃ k s, k ≤ fuel ∧ post s ∧ Goes env depth g k rest s c t

theorem get_derived (ready : Ready p place w s) (names : Scoped p place)
    (hb : Bound p place x type scope)
    (hp : (contextAt mode p place).place? x = some pl)
    (h : Goes env depth g fuel (.get pl x :: rest) s c t) :
    ∃ v, w.value? x = some v ∧
      Continues env depth g fuel rest c t (Pushed p place type s.stack.live v w .next) := by
  obtain ⟨v, value, holds, found⟩ := ready.value names hb hp
  cases pl with
  | slot =>
    obtain ⟨u, settles, keeps, live⟩ := Machine.localGet_settles env depth found.1
    obtain ⟨k, less, goes⟩ := h.after settles
    exact ⟨v, value, k, u, less, ⟨rfl, ready.keeps keeps, holds, live⟩, goes⟩
  | global =>
    obtain ⟨u, settles, keeps, live⟩ := Machine.globalGet_settles env depth found.1
    obtain ⟨k, less, goes⟩ := h.after settles
    exact ⟨v, value, k, u, less, ⟨rfl, ready.keeps keeps, holds, live⟩, goes⟩

theorem Linked.found (hl : Linked p mode ⟨env.funcs, none⟩) (h : Rules.Callable p f types result) :
    ∃ callee, env.funcs.find? (·.name == key f) = some callee ∧ callee.result = true := by
  cases h with
  | abs => exact ⟨_, hl.host ("abs", .abs) (by decide), rfl⟩
  | max => exact ⟨_, hl.host ("max", .max) (by decide), rfl⟩
  | min => exact ⟨_, hl.host ("min", .min) (by decide), rfl⟩
  | pow => exact ⟨_, hl.host ("pow", .pow) (by decide), rfl⟩
  | user mem _ _ =>
    obtain ⟨body, -, found⟩ := hl.user _ mem
    exact ⟨_, found, rfl⟩

theorem starts_callee (found : env.funcs.find? (·.name == key f) = some callee) :
    Starts env ⟨depth, g, .instr (Instr.call f).sexpr, s⟩ ⟨depth, g, .call callee, s⟩ := by
  have done : (Machine.seq env 1 depth []).run s = (.ok .next, s) := by
    rw [Machine.seq]
    rfl
  exact .call Machine.ofName_call done rfl found

theorem call_derived (hl : Linked p mode ⟨env.funcs, none⟩) (calls : CallsDerived p mode env bound)
    (le : fuel ≤ bound) (callable : Rules.Callable p f types result)
    (pushed : PushedAll p place types base args w .next s)
    (h : Goes env depth g fuel (.call f :: rest) s c t) :
    ∃ v w', Answers p mode f args w v w' ∧
      Continues env depth g fuel rest c t (Pushed p place result base v w' .next) := by
  obtain ⟨callee, found, hasResult⟩ := hl.found callable
  obtain ⟨k, c', u, less, first, range, onward⟩ := h.cons
  obtain ⟨k', v, u', rfl, run, rfl, rfl⟩ := Machine.instr_call_ok found hasResult first
  obtain ⟨w', answers, returned⟩ := calls (by omega) callable found pushed
    (range.step (starts_callee found)) run
  obtain ⟨k, le', goes⟩ := onward.goes
  refine ⟨v, w', answers, k, _, le'.trans less.le, ⟨rfl, ?_, returned.holds, ?_⟩, goes⟩
  · exact returned.ready.keeps ⟨rfl, rfl, rfl⟩
  · exact congrArg (v :: ·) returned.live

theorem print_derived (hl : Linked p mode ⟨env.funcs, none⟩)
    (printer : printer? (some type) = some target) (ready : Ready p place w s)
    (live : s.stack.live = v :: base) (h : Goes env depth g fuel (.call target :: rest) s c t) :
    Continues env depth g fuel rest c t (Pushed p place .unit base v
      { w with printed := Meaning.line type v :: w.printed } .next) := by
  obtain ⟨host, mem, reads, reply⟩ := printer_host printer
  have found : env.funcs.find? (·.name == key target) = some (linkedImport (target, host)) :=
    hl.host _ mem
  obtain ⟨k, c', u, less, first, -, onward⟩ := h.cons
  obtain ⟨k', v', u', rfl, call, rfl, rfl⟩ := Machine.instr_call_ok found rfl first
  have single : s.stack.live = [v].reverse ++ base := live
  obtain ⟨u'', settles, globals, locals, printed, live'⟩ := Machine.call_imported_settles env depth
    (f := linkedImport (target, host)) rfl rfl
    (by simp [linkedImport, reads]) single (reply v)
  cases settles.eq_of_ok call
  obtain ⟨k, le, goes⟩ := onward.goes
  refine ⟨k, { u' with stack := u'.stack.push v }, le.trans less.le,
    ⟨rfl, ?_, trivial, congrArg (v :: ·) live'⟩, goes⟩
  exact (ready.prints globals locals printed).keeps ⟨rfl, rfl, rfl⟩

variable (hl : Linked p mode ⟨env.funcs, none⟩) (calls : CallsDerived p mode env bound)
  (names : Scoped p place) (hh : ∀ f ∈ p.funcs, f.name ∉ hostNames)
include hl calls names hh

mutual

theorem expr_derived :
    (e : Expr) → ∀ {type code rest fuel w s}, fuel ≤ bound → Rules.HasType p place e type →
      expr (contextAt mode p place) e = .ok code → Ready p place w s →
      Goes env depth g fuel (code ++ rest) s c t →
      ∃ v w', Yields p mode e w v w' ∧
        Continues env depth g fuel rest c t (Pushed p place type s.stack.live v w' .next)
  | .literal l, type, _, rest, fuel, w, s, le, ht, h, ready, goes => by
    cases h
    obtain ⟨k, u, less, keeps, live, goes⟩ := goes.const
    rw [Literal.ofInt_encode] at live
    exact ⟨_, w, .literal l w, k, u, less, ⟨rfl, ready.keeps keeps, holds_literal ht, live⟩, goes⟩
  | .name span ty x sc, type, _, rest, fuel, w, s, le, ht, h, ready, goes => by
    obtain ⟨pl, hp, rfl⟩ := StackCode.expr_name_ok.1 h
    cases ht with
    | name bound =>
      obtain ⟨v, value, continues⟩ :=
        get_derived ready names bound (place_ok.1 hp).2 goes
      exact ⟨v, w, .name value, continues⟩
  | .unary span ty op e, type, _, rest, fuel, w, s, le, ht, h, ready, goes => by
    obtain ⟨code, he, rfl⟩ := StackCode.expr_unary_ok.1 h
    rw [List.append_assoc] at goes
    cases ht with
    | neg operand =>
      obtain ⟨v, w', yields, k, u, le', pushed, goes⟩ :=
        expr_derived e le operand he ready goes
      obtain ⟨k₁, u₁, less₁, keeps₁, live₁, goes⟩ := goes.const
      rw [pushed.live] at live₁
      obtain ⟨k₂, x, u₂, less₂, applies, keeps₂, live₂, goes⟩ := goes.op live₁
      have value := applies.value
      rw [WordOp.eval, Meaning.neg_eq] at value
      cases value
      refine ⟨-v, w', .neg yields, k₂, u₂, by omega, ⟨rfl, ?_, trivial, live₂⟩, goes⟩
      exact (pushed.ready.keeps keeps₁).keeps keeps₂
    | not operand =>
      obtain ⟨v, w', yields, k, u, le', pushed, goes⟩ :=
        expr_derived e le operand he ready goes
      obtain ⟨k₁, u₁, less₁, keeps₁, live₁, goes⟩ := goes.const
      rw [pushed.live] at live₁
      obtain ⟨k₂, x, u₂, less₂, applies, keeps₂, live₂, goes⟩ := goes.op live₁
      cases applies.value
      refine ⟨v ^^^ 1, w', .not yields, k₂, u₂, by omega, ⟨rfl, ?_, ?_, live₂⟩, goes⟩
      · exact (pushed.ready.keeps keeps₁).keeps keeps₂
      · rcases pushed.holds with rfl | rfl
        · exact .inr rfl
        · exact .inl rfl
  | .binary span ty op lhs rhs, type, _, rest, fuel, w, s, le, ht, h, ready, goes => by
    obtain ⟨l, r, o, hlc, hrc, ho, rfl⟩ := StackCode.expr_binary_ok.1 h
    obtain ⟨a, b, left, right, -⟩ := ht.operands
    rw [List.append_assoc, List.append_assoc] at goes
    obtain ⟨x, w₁, yields₁, k₁, u₁, le₁, pushed₁, goes⟩ :=
      expr_derived lhs le left hlc ready goes
    obtain ⟨y, w₂, yields₂, k₂, u₂, le₂, pushed₂, goes⟩ :=
      expr_derived rhs (le₁.trans le) right hrc pushed₁.ready goes
    have live := pushed₂.live
    rw [pushed₁.live] at live
    obtain ⟨k₃, v, u₃, less₃, applies, keeps, live', goes⟩ := goes.op live
    refine ⟨v, w₂, .binary yields₁ yields₂ ho applies, k₃, u₃, by omega,
      ⟨rfl, pushed₂.ready.keeps keeps, ?_, live'⟩, goes⟩
    exact holds_binary ht ho applies.value
  | .call span ty f args, type, _, rest, fuel, w, s, le, ht, h, ready, goes => by
    obtain ⟨code, target, hargs, htarget, rfl⟩ := StackCode.expr_call_ok.1 h
    rw [List.append_assoc] at goes
    cases ht with
    | @print _ _ e _ arg =>
      obtain ⟨printed, typed, printer⟩ := printer_of_target htarget
      obtain ⟨vs, w', yields, k, u, le', pushed, goes⟩ :=
        arguments_derived [e] le (.cons arg .nil) hargs ready goes
      obtain _ | ⟨head, _ | _⟩ := yields
      obtain ⟨k', u', le'', pushed', goes⟩ := print_derived hl printer pushed.ready pushed.live goes
      exact ⟨_, _, .print head typed, k', u', le''.trans le', pushed', goes⟩
    | call callee given =>
      have other := callee.ne_print hh
      rw [StackCode.callTarget_other other] at htarget
      cases htarget
      obtain ⟨vs, w', yields, k, u, le', pushed, goes⟩ :=
        arguments_derived args le given hargs ready goes
      obtain ⟨v, w'', answers, k', u', le'', pushed', goes⟩ :=
        call_derived hl calls (le'.trans le) callee pushed goes
      exact ⟨v, w'', .call yields other answers, k', u', le''.trans le', pushed', goes⟩
  | .unknown span ty, _, _, _, _, _, _, _, ht, _, _, _ => nomatch ht

theorem arguments_derived :
    (args : List Expr) → ∀ {types code rest fuel w s}, fuel ≤ bound →
      Rules.HaveTypes p place args types →
      StackCode.arguments (contextAt mode p place) args = .ok code → Ready p place w s →
      Goes env depth g fuel (code ++ rest) s c t →
      ∃ vs w', YieldsAll p mode args w vs w' ∧
        Continues env depth g fuel rest c t (PushedAll p place types s.stack.live vs w' .next)
  | [], _, _, rest, fuel, w, s, le, .nil, h, ready, goes => by
    cases h
    exact ⟨[], w, .nil w, fuel, s, le_rfl, ⟨rfl, ready, .nil, rfl⟩, goes⟩
  | e :: others, _, _, rest, fuel, w, s, le, .cons head tail, h, ready, goes => by
    obtain ⟨code, code', he, ho, rfl⟩ := StackCode.arguments_cons_ok.1 h
    rw [List.append_assoc] at goes
    obtain ⟨v, w₁, yields, k₁, u₁, le₁, pushed, goes⟩ :=
      expr_derived e le head he ready goes
    obtain ⟨vs, w₂, all, k₂, u₂, le₂, pushedAll, goes⟩ :=
      arguments_derived others (le₁.trans le) tail ho pushed.ready goes
    refine ⟨v :: vs, w₂, .cons yields all, k₂, u₂, le₂.trans le₁, ⟨rfl, pushedAll.ready, ?_, ?_⟩, goes⟩
    · exact .cons pushed.holds pushedAll.holds
    · rw [pushedAll.live, pushed.live, List.reverse_cons, List.append_assoc]
      rfl

end

end expressions

/-- The code of a statement has run: what follows it runs on, or control has returned. -/
inductive Proceeds (p : Program) (place : Option FuncDef) (env : Machine.Env) (depth : Nat)
    (g : Option (Machine.Func Machine.HostFunc)) (fuel : Nat) (rest : List Instr) (c : Control)
    (t : Machine.State) (base : List Word) : Flow → Meaning.State → Prop
  | next {w : Meaning.State} (continues : Continues env depth g fuel rest c t fun s =>
      Ready p place w s ∧ s.stack.live = base) :
      Proceeds p place env depth g fuel rest c t base .next w
  | ret {v : Word} {w : Meaning.State} (left : Left p place base (.ret v) w c t) :
      Proceeds p place env depth g fuel rest c t base (.ret v) w

section statements

variable {p : Program} {place : Option FuncDef} {mode : Arithmetic} {env : Machine.Env}
  {depth fuel bound : Nat} {g : Option (Machine.Func Machine.HostFunc)} {rest : List Instr}
  {w : Meaning.State} {s t : Machine.State} {c : Control} {base : List Word}
variable {v : Word} {yes no is : List Instr} {e : Expr} {body : List Stmt}

theorem set_derived (pushed : Pushed p place type base v w .next s) (names : Scoped p place)
    (hb : Bound p place x type scope)
    (hp : (contextAt mode p place).place? x = some pl)
    (h : Goes env depth g fuel (.set pl x :: rest) s c t) :
    (w.value? x).isSome = true ∧ Continues env depth g fuel rest c t fun s =>
      Ready p place (w.update x v) s ∧ s.stack.live = base := by
  obtain ⟨u, value, -, found⟩ := pushed.ready.value names hb hp
  refine ⟨by rw [value]; rfl, ?_⟩
  cases pl with
  | slot =>
    obtain ⟨s', settles, globals, locals, printed, live⟩ :=
      Machine.localSet_settles env depth pushed.live found.1
    obtain ⟨k, less, goes⟩ := h.after settles
    exact ⟨k, s', less, ⟨pushed.ready.setSlot names hb pushed.holds found.2.1 found.2.2 globals
      printed locals, live⟩, goes⟩
  | global =>
    obtain ⟨s', settles, globals, locals, printed, live⟩ :=
      Machine.globalSet_settles env depth pushed.live found.1 rfl
    obtain ⟨k, less, goes⟩ := h.after settles
    exact ⟨k, s', less, ⟨pushed.ready.setGlobal names hb pushed.holds found.2 globals printed
      locals, live⟩, goes⟩

theorem scratch_derived (pushed : Pushed p place type base v w .next s)
    (h : Goes env depth g fuel (.set .slot scratch :: rest) s c t) :
    Continues env depth g fuel rest c t fun s => Ready p place w s ∧ s.stack.live = base ∧
      s.locals.lookup (key scratch) = some v := by
  obtain ⟨u, found⟩ := pushed.ready.scratch
  obtain ⟨s', settles, globals, locals, printed, live⟩ :=
    Machine.localSet_settles env depth pushed.live found
  obtain ⟨k, less, goes⟩ := h.after settles
  refine ⟨k, s', less, ⟨pushed.ready.setScratch globals printed locals, live, ?_⟩, goes⟩
  rw [locals, lookup_setSlot, found]
  rfl

theorem starts_arm {yes no : List Sexpr} (pops : Machine.pop.run s = (.ok v, u)) :
    Starts env ⟨depth, g, .instr (form "if" (arms yes no)), s⟩
      ⟨depth, g, .seq (if v = 0 then no else yes), u⟩ := by
  have done : (Machine.seq env 1 depth
      (Machine.tests (form "if" (arms yes no)))).run s = (.ok .next, s) := by
    rw [Machine.tests_form, Machine.seq]
    rfl
  have starts := Starts.arm (i := form "if" (arms yes no)) (f := g)
    Machine.ofName_cond done pops
  have operands : (Machine.splitLabel
      (form "if" (arms yes no)).operands).2 = arms yes no := rfl
  rwa [operands, Machine.arm_arms] at starts

theorem choice_derived (pushed : Pushed p place type base v w .next s)
    (h : Goes env depth g fuel (.cond yes no :: rest) s c t) :
    ∃ k u c' u', k ≤ fuel ∧ Ready p place w u ∧ u.stack.live = base ∧
      Goes env depth g k (if v = 0 then no else yes) u c' u' ∧
      Onward env depth g fuel rest c t c' u' := by
  obtain ⟨k, c', u', less, first, range, onward⟩ := h.cons
  obtain ⟨k', v', u, rfl, pops, run⟩ := Machine.instr_cond_ok first
  obtain ⟨u'', pops', keeps, live⟩ := Machine.run_pop pushed.live
  cases pops.symm.trans pops'
  have range' := range.step (starts_arm pops)
  have chosen : Instr.sexprs (if v = 0 then no else yes) =
      if v = 0 then Instr.sexprs no else Instr.sexprs yes := by split <;> rfl
  rw [← chosen] at run range'
  refine ⟨k', u, c', u', by omega, pushed.ready.keeps keeps, live, ⟨run, range'⟩, ?_⟩
  cases onward with
  | next le goes => exact .next (le.trans less.le) goes
  | left leaves => exact .left leaves

theorem Proceeds.join (h : Proceeds p place env depth g k [] c' u base flow w)
    (onward : Onward env depth g fuel rest c t c' u) :
    Proceeds p place env depth g fuel rest c t base flow w := by
  cases h with
  | next continues =>
    obtain ⟨k, s, -, ready, goes⟩ := continues
    obtain ⟨rfl, rfl⟩ := goes.nil
    obtain ⟨k', le, goes⟩ := onward.goes
    exact .next ⟨k', u, le, ready, goes⟩
  | ret left =>
    cases left with
    | ret ready live holds =>
      obtain ⟨rfl, rfl⟩ := onward.same nofun
      exact .ret (.ret ready live holds)

theorem Proceeds.mono (h : Proceeds p place env depth g k rest c t base flow w) (le : k ≤ fuel) :
    Proceeds p place env depth g fuel rest c t base flow w := by
  cases h with
  | next continues =>
    obtain ⟨k', s, le', ready, goes⟩ := continues
    exact .next ⟨k', s, le'.trans le, ready, goes⟩
  | ret left => exact .ret left

theorem clause_derived (span : Span) (test : Yields p mode e w v w₁)
    (pushed : Pushed p place .bool base v w₁ .next s)
    (hyes : ∀ {k u c t}, k ≤ fuel → Ready p place w₁ u → u.stack.live = base → Goes env depth g k yes u c t → ∃ flow w', RunsAll p mode body w₁ flow w' ∧ Proceeds p place env depth g k [] c t base flow w')
    (hno : ∀ {k u c t}, k ≤ fuel → Ready p place w₁ u → u.stack.live = base → Goes env depth g k no u c t → ∃ flow w', Chooses p mode others otherwise w₁ flow w' ∧ Proceeds p place env depth g k [] c t base flow w')
    (h : Goes env depth g fuel (.cond yes no :: rest) s c t) :
    ∃ flow w', Chooses p mode (.mk span e body :: others) otherwise w flow w' ∧
      Proceeds p place env depth g fuel rest c t base flow w' := by
  obtain ⟨k, u, c', u', le, ready, live, arm, onward⟩ := choice_derived pushed h
  by_cases hv : v = 0
  · subst hv
    obtain ⟨flow, w', chooses, proceeds⟩ := hno le ready live arm
    exact ⟨flow, w', .no test chooses, proceeds.join onward⟩
  · rw [if_neg hv] at arm
    obtain ⟨flow, w', runs, proceeds⟩ := hyes le ready live arm
    exact ⟨flow, w', .yes test hv runs, proceeds.join onward⟩

theorem test_derived (pushed : Pushed p place .bool base v w .next s)
    (h : Goes env depth g fuel (.const 1 :: .op .xor :: .brIf label :: rest) s c t) :
    (v = 0 ∧ c = .branch (key label) ∧ Ready p place w t ∧ t.stack.live = base) ∨
      (v ≠ 0 ∧ Continues env depth g fuel rest c t fun s =>
        Ready p place w s ∧ s.stack.live = base) := by
  obtain ⟨k₁, u₁, le₁, keeps₁, live₁, goes⟩ := h.const
  rw [pushed.live] at live₁
  obtain ⟨k₂, x, u₂, le₂, applies, keeps₂, live₂, goes⟩ := goes.op live₁
  cases applies.value
  obtain ⟨u₃, settles, keeps₃, live₃⟩ := Machine.brIf_settles env depth (key label) live₂
  have ready := ((pushed.ready.keeps keeps₁).keeps keeps₂).keeps keeps₃
  rcases pushed.holds with rfl | rfl
  · obtain ⟨rfl, rfl⟩ := goes.left settles nofun
    exact .inl ⟨rfl, rfl, ready, live₃⟩
  · obtain ⟨k₄, le₄, goes⟩ := goes.after settles
    exact .inr ⟨by decide, k₄, u₃, by omega, ⟨ready, live₃⟩, goes⟩

/-- One pass of a loop: how control leaves the loop, or nothing if the loop goes on. -/
inductive PassRuns (p : Program) (mode : Arithmetic) (e : Expr) (body : List Stmt) :
    Meaning.State → Option Flow → Meaning.State → Prop
  | stop {w w' : Meaning.State} (test : Yields p mode e w 0 w') :
      PassRuns p mode e body w (some .next) w'
  | again {w w₁ w₂ : Meaning.State} {v : Word} (test : Yields p mode e w v w₁) (holds : v ≠ 0)
      (inside : RunsAll p mode body w₁ .next w₂) : PassRuns p mode e body w none w₂
  | ret {w w₁ w₂ : Meaning.State} {v u : Word} (test : Yields p mode e w v w₁) (holds : v ≠ 0)
      (inside : RunsAll p mode body w₁ (.ret u) w₂) : PassRuns p mode e body w (some (.ret u)) w₂

theorem pass_derived {cond : List Instr}
    (hcond : ∀ {rest fuel w s}, fuel ≤ bound → Ready p place w s → s.stack.live = base → Goes env depth g fuel (cond ++ rest) s c t → ∃ v w', Yields p mode e w v w' ∧ Continues env depth g fuel rest c t (Pushed p place .bool base v w' .next))
    (hbody : ∀ {rest fuel w s}, fuel ≤ bound → Ready p place w s → s.stack.live = base → Goes env depth g fuel (inside ++ rest) s c t → ∃ flow w', RunsAll p mode body w flow w' ∧ Proceeds p place env depth g fuel rest c t base flow w')
    (le : fuel ≤ bound) (ready : Ready p place w s) (live : s.stack.live = base)
    (h : Goes env depth g fuel (loopPass n cond inside) s c t) :
    ∃ left w', PassRuns p mode e body w left w' ∧ PassLeft p place base n left w' c t := by
  rw [loopPass, List.append_assoc, List.append_assoc] at h
  obtain ⟨v, w₁, test, k₁, u₁, le₁, pushed, goes⟩ := hcond le ready live h
  obtain ⟨rfl, rfl, ready₁, live₁⟩ | ⟨holds, k₂, u₂, le₂, ⟨ready₂, live₂⟩, goes⟩ :=
    test_derived pushed goes
  · exact ⟨some .next, w₁, .stop test, .stop ready₁ live₁⟩
  · obtain ⟨flow, w₂, runs, proceeds⟩ := hbody (by omega) ready₂ live₂ goes
    cases proceeds with
    | next continues =>
      obtain ⟨k₃, u₃, -, ⟨ready₃, live₃⟩, goes⟩ := continues
      obtain ⟨rfl, rfl⟩ := goes.left (Machine.br_settles env depth _) nofun
      exact ⟨none, w₂, .again test holds runs, .again ready₃ live₃⟩
    | ret left =>
      cases left with
      | ret ready₃ live₃ holds₃ =>
        exact ⟨_, w₂, .ret test holds runs, .ret (.ret ready₃ live₃ holds₃)⟩

/-- The passes of a loop that comes to an end. The induction is on the fuel, of which each pass
takes some. -/
theorem passes_derived (span : Span)
    (hpass : ∀ {fuel w s c t}, fuel ≤ bound → Ready p place w s → s.stack.live = base → Goes env depth g fuel is s c t → ∃ left w', PassRuns p mode e body w left w' ∧ PassLeft p place base n left w' c t)
    (le : fuel ≤ bound) (ready : Ready p place w s) (live : s.stack.live = base)
    (range : InRange env ⟨depth, g, .passes true (some (key (loopLabel n))) base.length (Instr.sexprs is), s⟩)
    (h : (Machine.passes env fuel depth true (some (key (loopLabel n))) base.length (Instr.sexprs is)).run s = (.ok c, t)) :
    ∃ flow w', Runs p mode (.while span e body) w flow w' ∧ LoopLeft p place base n flow w' c t := by
  have ne : key (loopLabel n) ≠ key (breakLabel n) := by
    rw [ne_eq, StackCode.key_inj]
    exact (StackCode.breakLabel_ne_loopLabel n n).symm
  induction fuel generalizing w s with
  | zero =>
    obtain ⟨k, d, u, v, eq, -⟩ := Machine.passes_ok h
    cases eq
  | succ fuel ih =>
    obtain ⟨_, d, u, v, eq, checks, run, again⟩ := Machine.passes_ok h
    cases eq
    obtain ⟨keeps, same⟩ := Machine.check_ok env checks
    obtain ⟨left, w', pass, passLeft⟩ := hpass (by omega) (ready.keeps keeps) (same ▸ live)
      ⟨run, range.step (.pass checks)⟩
    cases passLeft with
    | stop ready' live' =>
      simp only [Machine.repass, Option.some.injEq, if_neg ne] at again
      cases again
      cases pass with
      | stop test => exact ⟨.next, w', .stop test, .stop ready' live'⟩
    | again ready' live' =>
      obtain ⟨v', cuts, keeps', live''⟩ := Machine.run_cut (live'.trans (List.nil_append base).symm)
      simp only [Machine.repass, if_true, Machine.run_bind, cuts] at again
      cases pass with
      | again test holds inside =>
        obtain ⟨flow, w'', runs, loopLeft⟩ := ih (by omega) (ready'.keeps keeps') live''
          (range.step (.again checks run cuts)) again
        exact ⟨flow, w'', .again test holds inside runs, loopLeft⟩
    | ret left' =>
      cases again
      cases pass with
      | ret test holds inside => exact ⟨_, w', .leave test holds inside, .ret left'⟩

theorem while_derived
    (hpass : ∀ {fuel w s c t}, fuel ≤ bound → Ready p place w s → s.stack.live = base → Goes env depth g fuel is s c t → ∃ left w', PassRuns p mode e body w left w' ∧ PassLeft p place base n left w' c t)
    (le : fuel ≤ bound) (ready : Ready p place w s) (live : s.stack.live = base)
    (h : Goes env depth g fuel (.block (breakLabel n) [.loop (loopLabel n) is] :: rest) s c t) :
    ∃ flow w', Runs p mode (.while span e body) w flow w' ∧
      Proceeds p place env depth g fuel rest c t base flow w' := by
  have height : ∀ {x : Machine.State}, x.stack.live = base → x.stack.height = base.length :=
    fun hx => congrArg List.length hx
  obtain ⟨k, c', u, less, first, range, onward⟩ := h.cons
  obtain ⟨k₁, rfl, outside⟩ := Machine.instr_passes_ok false Machine.ofName_block first
  have range₁ := range.step (.block Machine.ofName_block)
  obtain ⟨k₂, d, u₂, v, rfl, checks, run, leaves⟩ := Machine.passes_ok outside
  obtain ⟨keeps, same⟩ := Machine.check_ok env checks
  have live₂ : u₂.stack.live = base := same ▸ live
  have inner : Goes env depth g k₂ [.loop (loopLabel n) is] u₂ d v :=
    ⟨run, range₁.step (.pass checks)⟩
  obtain ⟨k₃, d', v', less₃, first', range₃, onward'⟩ := inner.cons
  obtain ⟨k₄, rfl, passes⟩ := Machine.instr_passes_ok true Machine.ofName_loop first'
  have range₄ : InRange env ⟨depth, g, .passes true (some (key (loopLabel n)))
      u₂.stack.height (Instr.sexprs is), u₂⟩ := range₃.step (.loop Machine.ofName_loop)
  rw [height live₂] at passes range₄
  rw [height live] at leaves
  obtain ⟨flow, w', runs, loopLeft⟩ := passes_derived span hpass (by omega)
    (ready.keeps keeps) live₂ range₄ passes
  refine ⟨flow, w', runs, ?_⟩
  cases loopLeft with
  | stop ready' live' =>
    obtain ⟨rfl, rfl⟩ := onward'.same (by rintro ⟨⟩)
    obtain ⟨x, cuts, keeps', live''⟩ := Machine.run_cut (live'.trans (List.nil_append base).symm)
    simp only [Machine.repass, if_true, Machine.run_bind, cuts] at leaves
    cases leaves
    obtain ⟨k', le', goes⟩ := onward.goes
    exact .next ⟨k', u, le'.trans less.le, ⟨ready'.keeps keeps', live''⟩, goes⟩
  | ret left =>
    obtain ⟨rfl, rfl⟩ := onward'.same (by rintro ⟨⟩)
    cases leaves
    obtain ⟨rfl, rfl⟩ := onward.same (by rintro ⟨⟩)
    exact .ret left

variable (hl : Linked p mode ⟨env.funcs, none⟩) (calls : CallsDerived p mode env bound)
  (names : Scoped p place) (hh : ∀ f ∈ p.funcs, f.name ∉ hostNames)
include hl calls names hh

mutual

theorem stmt_derived :
    (st : Stmt) → ∀ {n code rest fuel w s c t}, fuel ≤ bound → Rules.StmtTyped p place st →
      stmt (contextAt mode p place) n st = .ok code → Ready p place w s →
      Goes env depth g fuel (code ++ rest) s c t →
      ∃ flow w', Runs p mode st w flow w' ∧
        Proceeds p place env depth g fuel rest c t s.stack.live flow w'
  | .pass span, n, _, rest, fuel, w, s, c, t, le, _, h, ready, goes => by
    cases h
    obtain ⟨k, less, goes⟩ := goes.after (Machine.nop_settles env depth)
    exact ⟨.next, w, .pass span w, .next ⟨k, s, less, ⟨ready, rfl⟩, goes⟩⟩
  | .assign span x sc e, n, _, rest, fuel, w, s, c, t, le, .assign target value, h, ready,
      goes => by
    obtain ⟨pl, code, hp, he, rfl⟩ := StackCode.stmt_assign_ok.1 h
    rw [List.append_assoc] at goes
    obtain ⟨v, w', yields, k, u, le', pushed, goes⟩ :=
      expr_derived hl calls names hh e le value he ready goes
    obtain ⟨bound, k', u', le'', ready', goes⟩ :=
      set_derived pushed names target (place_ok.1 hp).2 goes
    exact ⟨.next, _, .assign yields bound, .next ⟨k', u', le''.trans le', ready', goes⟩⟩
  | .expr span e, n, _, rest, fuel, w, s, c, t, le, .expr value, h, ready, goes => by
    obtain ⟨code, he, rfl⟩ := StackCode.stmt_expr_ok.1 h
    rw [List.append_assoc] at goes
    obtain ⟨v, w', yields, k, u, le', pushed, goes⟩ :=
      expr_derived hl calls names hh e le value he ready goes
    obtain ⟨k', u', le'', ⟨ready', live, -⟩, goes⟩ := scratch_derived pushed goes
    exact ⟨.next, w', .expr yields, .next ⟨k', u', le''.trans le', ⟨ready', live⟩, goes⟩⟩
  | .ret span e, n, _, rest, fuel, w, s, c, t, le, .ret within returns value, h, ready,
      goes => by
    obtain ⟨code, he, rfl⟩ := StackCode.stmt_ret_ok.1 h
    rw [List.append_assoc] at goes
    obtain ⟨v, w', yields, k, u, le', pushed, goes⟩ :=
      expr_derived hl calls names hh e le value he ready goes
    obtain ⟨rfl, rfl⟩ := goes.left (Machine.return_settles env depth) nofun
    exact ⟨.ret v, w', .ret yields,
      .ret (.ret pushed.ready pushed.live ⟨_, _, within, returns, pushed.holds⟩)⟩
  | .while span e body, n, _, rest, fuel, w, s, c, t, le, .while cond inside, h, ready, goes => by
    obtain ⟨condCode, bodyCode, hcond, hbody, rfl⟩ := StackCode.stmt_while_ok.1 h
    refine while_derived (pass_derived ?_ ?_) le ready rfl goes
    · intro rest fuel w s le ready live goes
      rw [← live]
      exact expr_derived hl calls names hh e le cond hcond ready goes
    · intro rest fuel w s le ready live goes
      rw [← live]
      exact block_derived body le inside hbody ready goes
  | .cond span e body clauses otherwise, n, _, rest, fuel, w, s, c, t, le,
      .cond cond inside elifs last, h, ready, goes => by
    obtain ⟨condCode, thenArm, elseArm, hcond, hthen, helse, rfl⟩ := StackCode.stmt_cond_ok.1 h
    rw [List.append_assoc] at goes
    obtain ⟨v, w₁, test, k₁, u₁, le₁, pushed, goes⟩ :=
      expr_derived hl calls names hh e le cond hcond ready goes
    obtain ⟨flow, w', chooses, proceeds⟩ := clause_derived span test pushed
      (fun le' ready live goes => live ▸ block_derived body (by omega) inside hthen
        ready goes.append_nil)
      (fun le' ready live goes => live ▸ clauses_derived clauses (by omega) elifs
        (fun hlast le ready goes => block_derived otherwise le last hlast ready
          goes.append_nil) helse ready goes) goes
    exact ⟨flow, w', .cond chooses, proceeds.mono le₁⟩
  | .unknown span, _, _, _, _, _, _, _, _, _, ht, _, _, _ => nomatch ht

theorem block_derived :
    (ss : List Stmt) → ∀ {n code rest fuel w s c t}, fuel ≤ bound → Rules.BlockTyped p place ss →
      stmts (contextAt mode p place) n ss = .ok code → Ready p place w s →
      Goes env depth g fuel (code ++ rest) s c t →
      ∃ flow w', RunsAll p mode ss w flow w' ∧
        Proceeds p place env depth g fuel rest c t s.stack.live flow w'
  | [], n, _, rest, fuel, w, s, c, t, le, _, h, ready, goes => by
    cases h
    exact ⟨.next, w, .nil w, .next ⟨fuel, s, le_rfl, ⟨ready, rfl⟩, goes⟩⟩
  | st :: others, n, _, rest, fuel, w, s, c, t, le, .cons head tail, h, ready, goes => by
    obtain ⟨first, code, hf, ho, rfl⟩ := StackCode.stmts_cons_ok.1 h
    rw [List.append_assoc] at goes
    obtain ⟨flow, w₁, runs, proceeds⟩ := stmt_derived st le head hf ready goes
    cases proceeds with
    | next continues =>
      obtain ⟨k₁, u₁, le₁, ⟨ready₁, live₁⟩, goes⟩ := continues
      obtain ⟨flow, w₂, runsAll, proceeds⟩ :=
        block_derived others (le₁.trans le) tail ho ready₁ goes
      exact ⟨flow, w₂, .cons runs runsAll, live₁ ▸ proceeds.mono le₁⟩
    | ret left => exact ⟨_, w₁, .left runs others, .ret left⟩

theorem clauses_derived :
    (es : List Elif) → ∀ {n code otherwise last fuel w s c t}, fuel ≤ bound →
      Rules.ClausesTyped p place es →
      (∀ {code fuel w s c t}, last = .ok code → fuel ≤ bound → Ready p place w s →
        Goes env depth g fuel code s c t → ∃ flow w', RunsAll p mode otherwise w flow w' ∧
          Proceeds p place env depth g fuel [] c t s.stack.live flow w') →
      StackCode.elifs (contextAt mode p place) n last es = .ok code → Ready p place w s →
      Goes env depth g fuel code s c t →
      ∃ flow w', Chooses p mode es otherwise w flow w' ∧
        Proceeds p place env depth g fuel [] c t s.stack.live flow w'
  | [], n, code, otherwise, last, fuel, w, s, c, t, le, _, hlast, h, ready, goes => by
    obtain ⟨flow, w', runs, proceeds⟩ := hlast h le ready goes
    exact ⟨flow, w', .last runs, proceeds⟩
  | .mk span e body :: others, n, _, otherwise, last, fuel, w, s, c, t, le,
      .cons cond inside tail, hlast, h, ready, goes => by
    obtain ⟨condCode, thenArm, elseArm, hcond, hthen, helse, rfl⟩ := StackCode.elifs_cons_ok.1 h
    obtain ⟨v, w₁, test, k₁, u₁, le₁, pushed, goes⟩ :=
      expr_derived hl calls names hh e le cond hcond ready goes
    obtain ⟨flow, w', chooses, proceeds⟩ := clause_derived span test pushed
      (fun le' ready live goes => live ▸ block_derived body (by omega) inside hthen
        ready goes.append_nil)
      (fun le' ready live goes => live ▸ clauses_derived others (by omega) tail
        hlast helse ready goes) goes
    exact ⟨flow, w', chooses, proceeds.mono le₁⟩

end

end statements

section functions

variable {p : Program} {place : Option FuncDef} {mode : Arithmetic} {env : Machine.Env}
  {depth fuel bound : Nat} {g : Option (Machine.Func Machine.HostFunc)} {rest : List Instr}
  {w : Meaning.State} {s t : Machine.State} {c : Control} {base args : List Word} {f : FuncDef}
  {types : List Ty}

theorem inits_derived (hn : (vs.map (·.name)).Nodup)
    (hs : ∀ v ∈ vs, (s.locals.lookup (key v.name)).isSome = true)
    (h : Goes env depth g fuel (vs.flatMap StackCode.initCode ++ rest) s c t) :
    Continues env depth g fuel rest c t (Initialised vs s) := by
  induction vs generalizing s fuel with
  | nil => exact ⟨fuel, s, le_rfl, ⟨rfl, rfl, rfl, fun x => rfl⟩, h⟩
  | cons v others ih =>
    obtain ⟨fresh, distinct⟩ := List.nodup_cons.1 hn
    obtain ⟨k₁, s₁, le₁, keeps, live, goes⟩ := h.const
    obtain ⟨u, hu⟩ := Option.isSome_iff_exists.1 (hs v List.mem_cons_self)
    rw [← keeps.locals] at hu
    obtain ⟨s₂, settles, globals, locals, printed, live'⟩ :=
      Machine.localSet_settles env depth live hu
    obtain ⟨k₂, le₂, goes⟩ := goes.after settles
    have first : Initialised [v] s s₂ := .single keeps hu globals printed live' locals
    obtain ⟨k₃, s₃, le₃, initialised, goes⟩ := ih distinct
      (fun v hv => first.known (hs v (List.mem_cons_of_mem _ hv))) goes
    exact ⟨k₃, s₃, by omega, first.cons fresh initialised, goes⟩

theorem body_derived (hl : Linked p mode ⟨env.funcs, none⟩) (calls : CallsDerived p mode env bound)
    (hw : WellTyped p) (names : Scoped p (some f)) (hm : f ∈ p.funcs)
    (hbody : stmts (contextAt mode p (some f)) 0 f.body = .ok body)
    (hp : f.params.map (·.type) = types.map some) (ha : List.Forall₂ Holds types args)
    (ht : Typed p place w) (hv : Visible w s)
    (hs : s.locals = (slotsOf f args).map fun entry => (key entry.1, entry.2)) (le : fuel ≤ bound)
    (h : Goes env depth g fuel (funcOf f body).body s c t) :
    ∃ flow w', RunsAll p mode f.body { w with frame := Meaning.frameOf f args } flow w' ∧
      Ended p f s.stack.live flow w' c t := by
  have typed := hw.funcs f hm
  rw [funcOf, List.append_assoc] at h
  obtain ⟨k₁, s₁, le₁, initialised, goes⟩ :=
    inits_derived (List.nodup_append.1 typed.slots).2.1 (fun v hv => slotsOf_known hs hv) h
  have ready := initialised.ready typed hp ha ht hv hs
  obtain ⟨flow, w', runs, proceeds⟩ := block_derived hl calls names hw.notHost f.body
    (le₁.trans le) typed.body hbody ready goes
  rw [initialised.live] at proceeds
  refine ⟨flow, w', runs, ?_⟩
  cases proceeds with
  | next continues =>
    obtain ⟨k₂, s₂, -, ⟨ready₂, live₂⟩, goes⟩ := continues
    obtain ⟨k₃, s₃, -, keeps, live₃, goes⟩ := goes.const
    obtain ⟨rfl, rfl⟩ := goes.nil
    rw [ofInt_defaultValue, live₂] at live₃
    exact ⟨by rintro _ ⟨⟩, ready₂.keeps keeps, fun _ => holds_fallOff, live₃⟩
  | ret left =>
    cases left with
    | ret ready₂ live₂ holds =>
      obtain ⟨_, type, ⟨⟩, returns, holds⟩ := holds
      refine ⟨by rintro _ ⟨⟩, ready₂, fun type' returns' => ?_, live₂⟩
      cases returns.symm.trans returns'
      exact holds

theorem answers_resultOf (hm : f ∈ p.funcs) (arity : f.params.length = args.length)
    (h : RunsAll p mode f.body { w with frame := Meaning.frameOf f args } flow w') :
    Answers p mode f.name args w (resultOf f flow) { w' with frame := w.frame } := by
  cases flow with
  | next => exact .falls hm arity h
  | ret v => exact .returns hm arity h

variable (hl : Linked p mode ⟨env.funcs, none⟩)
include hl

theorem activation_derived (calls : CallsDerived p mode env bound) (hw : WellTyped p)
    (clear : ∀ f ∈ p.funcs, scratch ∉ Rules.slotNames f) (hm : f ∈ p.funcs)
    (hbody : stmts (contextAt mode p (some f)) 0 f.body = .ok body)
    (hp : f.params.map (·.type) = types.map some) (hr : f.returns = some result)
    (pushed : PushedAll p place types base args w .next s) (le : fuel ≤ bound)
    (range : InRange env ⟨depth, g, .call (loaded (funcOf f body)), s⟩)
    (h : (Machine.call env fuel depth (loaded (funcOf f body))).run s = (.ok v, t)) :
    ∃ w', Answers p mode f.name args w v w' ∧ Returned p place result base v w' v t := by
  have arity := length_args hp pushed.holds
  have count : (loaded (funcOf f body) :
      Machine.Func Machine.HostFunc).params.length = args.length := by
    simpa [loaded, funcOf] using arity
  have names : Scoped p (some f) := by
    refine ⟨hw.globals, ?_, ?_⟩
    · rintro _ ⟨⟩
      exact (hw.funcs f hm).slots
    · rintro _ ⟨⟩
      exact clear f hm
  obtain ⟨k, args', c, u, x, rfl, shallow, pops, inside, leaves⟩ := Machine.call_defined_ok rfl h
  have entered := range.step (.enter rfl pops shallow)
  obtain ⟨u', pops', keeps, live⟩ := Machine.run_popMany pushed.live
  rw [count] at pops
  cases pops.symm.trans pops'
  have visible := (pushed.ready.keeps keeps).visible
  have fresh := initialLocals_eq f body args
  generalize Machine.initialLocals _ _ args = slots at fresh inside entered
  obtain ⟨flow, w', runs, ended⟩ := body_derived (s := { u with locals := slots }) hl calls hw names
    hm hbody hp pushed.holds pushed.ready.typed ⟨visible.globals, visible.printed⟩ fresh (by omega)
    ⟨inside, entered⟩
  have top : x.stack.live = resultOf f flow :: [] ++ base := ended.live.trans (congrArg _ live)
  obtain ⟨x', leaves', globals', locals', printed', live'⟩ :=
    Machine.leave_settles (f := loaded (funcOf f body)) rfl ended.control top
  have height : u.stack.height = base.length := congrArg List.length live
  rw [height] at leaves
  cases leaves.symm.trans leaves'
  refine ⟨_, answers_resultOf hm arity runs, rfl, ?_, ended.holds result hr, live'⟩
  exact pushed.ready.returned ended.ready globals' (locals'.trans keeps.locals) printed'

theorem hostCall_derived (hw : WellTyped p) (hi : (name, host) ∈ StackCode.hosts)
    (hf : Meaning.hostFunc? name = some host) (hn : name ∈ hostNames)
    (count : host.reads = types.length) (pushed : PushedAll p place types base args w .next s)
    (found : env.funcs.find? (·.name == key name) = some callee)
    (h : (Machine.call env fuel depth callee).run s = (.ok v, t)) :
    ∃ w', Answers p mode name args w v w' ∧ Returned p place .int base v w' v t := by
  cases found.symm.trans (hl.host _ hi)
  have arity : host.reads = args.length := count.trans pushed.holds.length_eq
  obtain ⟨reply, replies⟩ := reply_exists arity
  obtain ⟨u, settles, globals, locals, printed, live⟩ := Machine.call_imported_settles env depth
    (f := linkedImport (name, host)) rfl rfl
    (by simp [linkedImport, arity]) pushed.live replies
  cases settles.eq_of_ok h
  rw [line_eq_none hf replies] at printed
  have free : ∀ d ∈ p.funcs, d.name ≠ name := by
    rintro d hd rfl
    exact hw.notHost d hd hn
  exact ⟨w, .host free hf arity replies, rfl,
    pushed.ready.prints globals locals (printed.trans (List.nil_append _).symm), trivial, live⟩

/-- All calls that come to an end are calls by the rules. The induction is on the fuel, of which a
call takes some from its body. -/
theorem calls_derived (hw : WellTyped p)
    (clear : ∀ f ∈ p.funcs, scratch ∉ Rules.slotNames f) (bound : Nat) :
    CallsDerived p mode env bound := by
  induction bound with
  | zero =>
    intro fuel f types result place w s t args base depth v callee g less
    exact absurd less (Nat.not_lt_zero fuel)
  | succ bound ih =>
    intro fuel f types result place w s t args base depth v callee g less callable found pushed range h
    cases callable with
    | abs => exact hostCall_derived hl hw (by decide) rfl (by decide) rfl pushed found h
    | max => exact hostCall_derived hl hw (by decide) rfl (by decide) rfl pushed found h
    | min => exact hostCall_derived hl hw (by decide) rfl (by decide) rfl pushed found h
    | pow => exact hostCall_derived hl hw (by decide) rfl (by decide) rfl pushed found h
    | user mem params returns =>
      obtain ⟨body, hbody, found'⟩ := hl.user _ mem
      cases found.symm.trans found'
      exact activation_derived hl ih hw clear mem hbody params returns pushed (by omega) range h

end functions

end Simulation
end WordScript
