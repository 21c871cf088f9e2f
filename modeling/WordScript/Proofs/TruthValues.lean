import WordScript.Proofs.RepresentationRuns

/-! Words that stand for truth values.

A conditional tests its word against zero, but a loop flips the lowest bit of its word first. The two
agree because what has the type `bool` is zero or one, at every point of every run. -/
namespace WordScript

open Machine (Exec Image Instance Point Control)
open Simulation (Holds)

theorem represents_holds : Represents Holds where
  int _ := trivial
  truth b := by cases b <;> simp [Holds, Word.ofBool]
  negation v h := by
    rcases h with rfl | rfl
    · exact .inr (by decide)
    · exact .inl (by decide)
  none := trivial

namespace StackCode

section slots

variable {p : Program} {place : Option FuncDef} {set : List String} {s : Machine.State}

theorem Kept.slot (h : Kept Holds p place set s) (hf : place = some f)
    (declared : Rules.Declares f x type) :
    ∃ u, s.locals.lookup (key x) = some u ∧ Holds type u := by
  obtain ⟨u, found, holds | ⟨rfl, -⟩⟩ := h.slots f hf x type declared
  · exact ⟨u, found, holds⟩
  · refine ⟨0, found, ?_⟩
    cases type with
    | bool => exact .inl rfl
    | _ => trivial

theorem Kept.any (h : Kept Holds p place set s) (set' : List String) :
    Kept Holds p place set' s where
  globals := h.globals
  slots f hf x type declared := by
    obtain ⟨u, found, holds⟩ := h.slot hf declared
    exact ⟨u, found, .inl holds⟩
  scratch := h.scratch

end slots

/-- What tests of the word on top of the stack do. The test of a loop goes on to the body unless the
word is zero, and leaves the loop if it is. A conditional runs its first arm unless the word is zero,
and its second one if it is. -/
structure Tested (env : Machine.Env) (depth : Nat) (v : Word) (s : Machine.State) : Prop where
  loop : ∀ label, ∃ t, Machine.Settles
    (Simulation.code env depth [.const 1, .op .xor, .brIf label]) s
    (.ok (if v = 0 then .branch (key label) else .next), t)
  cond : ∃ t, ∀ yes no fuel, (Machine.instr env (fuel + 2) depth (Instr.cond yes no).sexpr).run s =
    (Machine.seq env (fuel + 1) depth (Instr.sexprs (if v = 0 then no else yes))).run t

theorem tested_of_holds (env : Machine.Env) (depth : Nat) (live : s.stack.live = v :: base)
    (h : Holds .bool v) : Tested env depth v s := by
  constructor
  · intro label
    obtain ⟨t, hconst, -, live₁⟩ := Simulation.const_code_settles env depth s (v := 1) (by decide)
    rw [live] at live₁
    obtain ⟨t', hxor, -, live₂⟩ := Machine.op_settles (o := .xor) env depth live₁ rfl
    obtain ⟨t'', hbr, -, -⟩ := Machine.brIf_settles env depth (key label) live₂
    have chosen : (if v ^^^ BitVec.ofInt 32 1 = 0 then Control.next else .branch (key label)) =
        if v = 0 then .branch (key label) else .next := by
      rcases h with rfl | rfl <;> rfl
    rw [chosen] at hbr
    exact ⟨t'', Simulation.code_settles hconst
      (Simulation.code_settles (Simulation.code_single hxor) (Simulation.code_single hbr))⟩
  · obtain ⟨t, pops, -, -⟩ := Machine.run_pop live
    refine ⟨t, fun yes no fuel => ?_⟩
    have nothing : (Machine.seq env (fuel + 1) depth []).run s = (.ok .next, s) := by
      rw [Machine.seq]
      rfl
    have chosen : Instr.sexprs (if v = 0 then no else yes) =
        if v = 0 then Instr.sexprs no else Instr.sexprs yes := by split <;> rfl
    rw [Instr.sexpr, show Machine.instr env (fuel + 2) depth _ = _ from
      congrFun (Machine.instr_cond_eq env depth (Instr.sexprs yes) (Instr.sexprs no)) (fuel + 2),
      Machine.later, Machine.run_bind, nothing, chosen]
    change (Machine.pop >>= _).run s = _
    rw [Machine.run_bind, pops]

/-- What holds of truth values at a point of a run. -/
structure TruthsHold (p : Program) (mode : Arithmetic) (env : Machine.Env) (x : Point) : Prop where
  globals : ∀ v ∈ p.vars, v.type = some .bool →
    ∃ w, (x.state.globals.find? (·.name == key v.name)).map (·.value) = some w ∧ (w = 0 ∨ w = 1)
  /-- The parameters and the variables of the function whose code runs. -/
  slots : ∀ f ∈ p.funcs, At (some f) x → ∀ y, Rules.Declares f y .bool →
    ∃ w, x.state.locals.lookup (key y) = some w ∧ (w = 0 ∨ w = 1)
  /-- The evaluation of an expression of type `bool` there, whatever it is used for. -/
  values : ∀ place e code, (∀ f, place = some f → f ∈ p.funcs) → At place x →
    Rules.HasType p place e .bool → e.All (Rules.Carries p place) →
    expr (contextAt mode p place) e = .ok code → ∀ fuel c t,
    (Machine.seq env fuel x.depth (Instr.sexprs code)).run x.state = (.ok c, t) →
    c = .next ∧ ∃ w, t.stack.live = w :: x.state.stack.live ∧ (w = 0 ∨ w = 1) ∧
      Tested env x.depth w t
  calls : ∀ f ∈ p.funcs, f.returns = some .bool → ∀ g, x.task = .call g → g.name = key f.name →
    ∀ fuel w t, (Machine.call env fuel x.depth g).run x.state = (.ok w, t) → w = 0 ∨ w = 1
  printed : ∀ g, x.task = .call g → g.name = key "print_bool" →
    ∃ w rest, x.state.stack.live = w :: rest ∧ (w = 0 ∨ w = 1)

theorem truthsHold_of_sound (hg : Guarded Holds p mode env) (hf : Faithful Holds (fun _ => True) p)
    (h : Sound Holds p env 0 x) : TruthsHold p mode env x where
  globals v hv declared := by
    obtain ⟨w, found, holds⟩ := h.globals v hv .bool declared
    exact ⟨w, by rw [found]; rfl, holds⟩
  slots f mem hx y declares := by
    obtain ⟨set, inside⟩ := h.at hf (by rintro _ ⟨⟩; exact mem) hx
    exact inside.kept.slot rfl declares
  values place e code mem hx ht ha hc fuel c t run := by
    obtain ⟨set, inside⟩ := h.at hf mem hx
    let slots := (place.map Rules.slotNames).getD []
    have full : ∀ f, place = some f → Rules.slotNames f ⊆ slots := by
      rintro f rfl _ hx
      exact hx
    have safe := expr_safe hf.represents hf.prints hf.typed.notHost full e ht ha
      (Expr.all_of_forall Expr.printsOnly_true e) hc [] []
    obtain ⟨rfl, w, holds, live⟩ := code_yields hg inside.names (inside.kept.any slots) safe
      (expr_straight e hc) run
    exact ⟨rfl, w, live, holds, tested_of_holds env x.depth live holds⟩
  calls f mem returns g task named fuel w t run :=
    h.call_yields hg hf task mem named returns run
  printed g task named := h.prints hf.typed task (show printer? (some .bool) = _ from rfl) named

end StackCode

/-- What has the type `bool` is zero or one at every point of every run of the module of a checked
program, in both modes. The module can be loaded if its globals start with words. -/
theorem truths_hold (p t : Program) (mode : Arithmetic) (hk : p.Known) (h : p.check = .ok t)
    (hl : p.Legible) (hs : ∀ f ∈ p.funcs, StackCode.scratch ∉ Rules.slotNames f) :
    ∃ m, t.toStackCode mode = .ok m ∧
      ((∀ v ∈ t.vars, (Expr.literal v.init).Representable) →
        ∃ image inst, Image.load (Utf8.encode m.render) = .ok image ∧
          image.instantiate = .ok inst) ∧
      ∀ image inst, Image.load (Utf8.encode m.render) = .ok image → image.instantiate = .ok inst →
        ∀ i, inst.Becomes i → ∀ budget x, i.Visits budget x →
          StackCode.TruthsHold t mode ⟨i.funcs, budget⟩ x := by
  have faithful : StackCode.Faithful Holds (fun _ => True) t :=
    StackCode.faithful_of_check represents_holds (fun _ _ _ _ => trivial) hk h hl hs
      (Program.printsOnly_true (Rules.check_sound hk h).annotated)
  obtain ⟨m, hm, loads, runs⟩ := faithful.runs mode
  refine ⟨m, hm, loads, ?_⟩
  intro image inst hload hinst i hi budget x hx
  obtain ⟨guarded, sound⟩ := runs image inst hload hinst i hi budget x hx
  exact StackCode.truthsHold_of_sound guarded faithful sound

/-- A function that yields its truth value, after a statement that does nothing with a number. -/
def echoTruth (x : String) : Program :=
  let s : Span := default
  { vars := [⟨s, "b", some .bool, ⟨s, none, .isFalse, 0⟩⟩]
    funcs := [{
      span := s, name := "f", params := [⟨s, x, some .bool⟩], returns := some .bool, locals := []
      body := [.expr s (.literal ⟨s, none, .int, 5⟩), .ret s (.name s none x .unresolved)] }]
    stmts := [.assign s "b" .unresolved (.call s none "f" [.literal ⟨s, none, .isTrue, 0⟩])] }

theorem echoTruth_known (x : String) : (echoTruth x).Known := by
  constructor
  · simp [echoTruth, VarDecl.Known, LiteralKind.Known]
  · intro f hf
    cases List.mem_singleton.1 hf
    constructor <;> simp [Stmt.AllIn, Stmt.All, Stmt.KnownNode, Expr.All, Expr.KnownNode,
      LiteralKind.Known]
  · simp [echoTruth, Stmt.AllIn, Stmt.All, Stmt.KnownNode, Expr.All, Expr.AllIn, Expr.KnownNode,
      LiteralKind.Known]

theorem echoTruth_legible (h : StackCode.IsName x) : (echoTruth x).Legible where
  names y hy := by
    have known : y = "b" ∨ y = "f" ∨ y = x := by
      simpa [echoTruth, Program.names, Rules.slotNames] using hy
    rcases known with rfl | rfl | rfl
    · rfl
    · rfl
    · exact h
  named f hf := by
    cases List.mem_singleton.1 hf
    simp

theorem echoTruth_holds : ∃ t m image inst, (echoTruth "a").Known ∧ (echoTruth "a").check = .ok t ∧
    t.toStackCode .signed = .ok m ∧ Image.load (Utf8.encode m.render) = .ok image ∧
    image.instantiate = .ok inst ∧ ∀ i, inst.Becomes i → ∀ budget x, i.Visits budget x →
      StackCode.TruthsHold t .signed ⟨i.funcs, budget⟩ x := by
  obtain ⟨m, hm, runs, hold⟩ := truths_hold (echoTruth "a") _ .signed (echoTruth_known "a") rfl
    (echoTruth_legible rfl) (by decide)
  obtain ⟨image, inst, hload, hinst⟩ := runs (by simp [Expr.Representable, Typing.literal])
  exact ⟨_, m, image, inst, echoTruth_known "a", rfl, hm, hload, hinst, hold image inst hload hinst⟩

/-- The statement overwrites a parameter that has the name of the scratch slot. -/
theorem echoTruth_scratch : ∃ t m image inst, (echoTruth StackCode.scratch).Known ∧
    (echoTruth StackCode.scratch).check = .ok t ∧ t.toStackCode .signed = .ok m ∧
    Image.load (Utf8.encode m.render) = .ok image ∧ image.instantiate = .ok inst ∧
    (inst.invoke 20 none (Utf8.encode Builtin.startName) []).inst.global? (Utf8.encode "b") =
      some 5 := by
  have checked := Rules.check_sound (echoTruth_known StackCode.scratch) rfl
  have legible : (echoTruth StackCode.scratch).Legible := echoTruth_legible rfl
  rw [← Program.legible_erase, ← checked.same, Program.legible_erase] at legible
  obtain ⟨image, hload, hinst⟩ := StackCode.legible_instance .signed legible checked.after
    (by simp [Expr.Representable, Typing.literal]) (.cons rfl .nil) rfl
  refine ⟨_, _, image, _, echoTruth_known StackCode.scratch, rfl, rfl, hload, hinst, ?_⟩
  decide +kernel

end WordScript
