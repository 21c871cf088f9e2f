import WordScript.BlockGraph.Lowering
import WordScript.Proofs.StackLowering
import WordScript.StackCode.Text

/-! Checked programs can be lowered.

Neither generator stops on a checked program, and the storage they use for a name is the scope
that checking gave it. -/
namespace WordScript
namespace BlockGraph

/-- A step of building that never stops, whatever has been built before. -/
def Succeeds {α : Type} (b : Build α) : Prop := ∀ body, ∃ r, b body = .ok r

namespace Succeeds

variable {α β : Type}

theorem pure (a : α) : Succeeds (Pure.pure a : Build α) := fun body => ⟨(a, body), rfl⟩

theorem bind {f : α → Build β} (hb : Succeeds b) (hf : ∀ a, Succeeds (f a)) :
    Succeeds (b >>= f) := by
  intro body
  obtain ⟨⟨a, body'⟩, h⟩ := hb body
  obtain ⟨r, hr⟩ := hf a body'
  exact ⟨r, by simp only [Bind.bind, StateT.bind, h, Except.bind]; exact hr⟩

theorem get : Succeeds (MonadState.get : Build Body) := fun body => ⟨(body, body), rfl⟩

theorem modify (g : Body → Body) : Succeeds (modify g : Build PUnit) :=
  fun body => ⟨((), g body), rfl⟩

theorem ite [Decidable c] (ha : Succeeds a) (hb : Succeeds b) : Succeeds (if c then a else b) := by
  by_cases h : c
  · simpa [h] using ha
  · simpa [h] using hb

theorem emit (i : Inst) : Succeeds (emit i) := modify _

theorem terminate (t : Terminator) : Succeeds (terminate t) := modify _

theorem emitResult (inst : Nat → Inst) : Succeeds (emitResult inst) :=
  get.bind fun _ => (modify _).bind fun _ => (emit _).bind fun _ => pure _

theorem newBlock : Succeeds newBlock := get.bind fun _ => (modify _).bind fun _ => pure _

theorem removeBlock (n : Nat) : Succeeds (removeBlock n) := modify _

theorem enter (n : Nat) : Succeeds (enter n) := modify _

theorem isOpen : Succeeds isOpen := get.bind fun _ => pure _

theorem newSlot (v : Operand) : Succeeds (newSlot v) :=
  (emitResult _).bind fun _ => (emit _).bind fun _ => pure _

theorem jumpIfOpen (target : Nat) : Succeeds (jumpIfOpen target) :=
  isOpen.bind fun _ => ite ((terminate _).bind fun _ => pure _) (pure _)

theorem binary (op : WordOp) (lhs rhs : Operand) : Succeeds (binary op lhs rhs) :=
  ite ((emitResult _).bind fun _ => (emitResult _).bind fun _ => pure _)
    ((emitResult _).bind fun _ => pure _)

end Succeeds

/-- A context that has storage for what is declared at a place. -/
structure Serves (ctx : Context) (p : Program) (place : Option FuncDef) : Prop where
  funcs : ctx.funcs = p.funcs.map (·.name)
  globals : ctx.globals = p.vars.map (·.name)
  slots : ∀ f, place = some f → ∀ x ∈ Rules.slotNames f, (ctx.slots.lookup x).isSome

variable {ctx : Context} {p : Program} {place : Option FuncDef}

theorem cell_succeeds (hs : Serves ctx p place) (h : Rules.Bound p place x type scope) :
    Succeeds (ctx.cell span x scope) := by
  cases h with
  | slot within declared =>
    have hx := hs.slots _ within _ (StackCode.mem_slotNames declared)
    obtain ⟨id, hid⟩ := Option.isSome_iff_exists.1 hx
    simpa only [Context.cell, hid] using Succeeds.pure (Cell.slot id)
  | @global v _ mem declared visible =>
    have hx : ctx.globals.contains v.name = true := by
      rw [hs.globals, List.contains_iff_mem]
      exact List.mem_map_of_mem mem
    simpa only [Context.cell, hx, if_true] using Succeeds.pure (Cell.global v.name)

theorem callee?_printer (ctx : Context) (type : Ty) :
    ∃ name callee, printer? (some type) = some name ∧ ctx.callee? name = some callee := by
  have host : ∀ name, (Builtin.imports.lookup name).isSome →
      ∃ callee, ctx.callee? name = some callee := by
    intro name hn
    by_cases hf : ctx.funcs.contains name
    · exact ⟨.user name, by simp only [Context.callee?, hf, if_true]⟩
    · exact ⟨.outer name, by simp only [Context.callee?, hf, hn, if_true]; simp⟩
  cases type with
  | int => obtain ⟨c, hc⟩ := host "print_num" (by decide); exact ⟨_, c, rfl, hc⟩
  | bool => obtain ⟨c, hc⟩ := host "print_bool" (by decide); exact ⟨_, c, rfl, hc⟩
  | unit => obtain ⟨c, hc⟩ := host "print_none" (by decide); exact ⟨_, c, rfl, hc⟩

theorem callee?_of_callable (hs : Serves ctx p place) (h : Rules.Callable p f types result) :
    ∃ callee, ctx.callee? f = some callee := by
  rw [Context.callee?]
  split
  · exact ⟨_, rfl⟩
  · rename_i hf
    cases h with
    | user mem params returns =>
      rw [hs.funcs] at hf
      exact absurd (List.contains_iff_mem.2 (List.mem_map_of_mem mem)) hf
    | _ => exact ⟨_, rfl⟩

section

variable (hs : Serves ctx p place) (hh : ∀ f ∈ p.funcs, f.name ∉ Rules.hostNames)
include hs hh

theorem callee_succeeds (h : Rules.HasType p place (.call span t f args) type)
    (hc : Expr.AllIn (Rules.Carries p place) args) : Succeeds (ctx.callee span f args) := by
  cases h with
  | print arg =>
    obtain ⟨type', ht, -⟩ := hc.1.self
    obtain ⟨name, callee, hn, hcallee⟩ := callee?_printer ctx type'
    simpa only [Context.callee, if_true, ht, hn, pure_bind, hcallee] using Succeeds.pure callee
  | call callee given =>
    obtain ⟨c, hcallee⟩ := callee?_of_callable hs callee
    simpa only [Context.callee, if_neg (callee.ne_print hh), pure_bind, hcallee]
      using Succeeds.pure c

mutual

theorem expr_succeeds :
    (e : Expr) → ∀ {type}, Rules.HasType p place e type → e.All (Rules.Carries p place) →
      Succeeds (expr ctx e)
  | .literal l, _, _, _ => .pure _
  | .name span t x s, _, _, hc => by
    obtain ⟨_, -, -, hb⟩ := hc
    rw [expr]
    exact (cell_succeeds hs (hb span t x s rfl)).bind fun _ =>
      (Succeeds.emitResult _).bind fun _ => .pure _
  | .unary span t op e, _, ht, hc => by
    obtain ⟨a, ha⟩ := ht.operand
    rw [expr]
    refine (expr_succeeds e ha hc.2).bind fun v => ?_
    cases ht with
    | neg _ => exact (Succeeds.emitResult _).bind fun _ => .pure _
    | not _ => exact (Succeeds.emitResult _).bind fun _ => .pure _
  | .binary span t op lhs rhs, _, ht, hc => by
    obtain ⟨a, b, ha, hb, hk⟩ := ht.operands
    obtain ⟨o, ho⟩ := StackCode.wordOp?_of_known ctx.mode hk
    rw [expr]
    refine (expr_succeeds lhs ha hc.2.1).bind fun l =>
      (expr_succeeds rhs hb hc.2.2).bind fun r => ?_
    simpa only [ho] using Succeeds.binary o l r
  | .call span t f args, _, ht, hc => by
    obtain ⟨types, ha⟩ := ht.arguments
    rw [expr]
    exact (arguments_succeed args ha hc.2).bind fun _ =>
      (callee_succeeds hs hh ht hc.2).bind fun _ => (Succeeds.emitResult _).bind fun _ => .pure _
  | .unknown span t, _, ht, _ => nomatch ht

theorem arguments_succeed :
    (args : List Expr) → ∀ {types}, Rules.HaveTypes p place args types →
      Expr.AllIn (Rules.Carries p place) args → Succeeds (arguments ctx args)
  | [], _, _, _ => .pure _
  | e :: rest, _, .cons head tail, hc => by
    rw [arguments]
    exact (expr_succeeds e head hc.1).bind fun _ =>
      (arguments_succeed rest tail hc.2).bind fun _ => .pure _

end

end

theorem condition_succeeds (h : Succeeds (expr ctx c)) : Succeeds (condition ctx c) :=
  h.bind fun _ => .emitResult _

theorem branch_succeeds (hc : Succeeds (expr ctx c)) (hb : Succeeds body) (exit : Nat) :
    Succeeds (branch ctx exit c body) :=
  Succeeds.newBlock.bind fun _ => Succeeds.newBlock.bind fun _ =>
    (condition_succeeds hc).bind fun _ => (Succeeds.terminate _).bind fun _ =>
      (Succeeds.enter _).bind fun _ => hb.bind fun _ => (Succeeds.jumpIfOpen _).bind fun _ =>
        (Succeeds.enter _).bind fun _ => .pure _

section

variable (hs : Serves ctx p place) (hh : ∀ f ∈ p.funcs, f.name ∉ Rules.hostNames)
include hs hh

mutual

theorem stmt_succeeds :
    (s : Stmt) → Rules.StmtTyped p place s →
      s.All (Rules.Carries p place) (Rules.CarriesScope p place) → Succeeds (stmt ctx s)
  | .pass span, _, _ => .pure _
  | .assign span x s e, .assign _ value, hc => by
    obtain ⟨type, hb⟩ := hc.1 span x s e rfl
    rw [stmt]
    exact (cell_succeeds hs hb).bind fun _ =>
      (expr_succeeds hs hh e value hc.2).bind fun _ => .emit _
  | .expr span e, .expr value, hc => by
    rw [stmt]
    refine (expr_succeeds hs hh e value hc.2).bind fun _ => ?_
    cases ctx.scratch with
    | none => exact .pure _
    | some id => exact .emit _
  | .ret span e, .ret _ _ value, hc => by
    rw [stmt]
    exact (expr_succeeds hs hh e value hc.2).bind fun _ => .terminate _
  | .while span c body, .while cond inside, hc => by
    have hcond := expr_succeeds hs hh c cond hc.2.1
    have hbody := block_succeeds body inside hc.2.2
    rw [stmt]
    exact Succeeds.newBlock.bind fun _ => Succeeds.newBlock.bind fun _ =>
      Succeeds.newBlock.bind fun _ => (Succeeds.terminate _).bind fun _ =>
      (Succeeds.enter _).bind fun _ => (condition_succeeds hcond).bind fun _ =>
      (Succeeds.terminate _).bind fun _ => (Succeeds.enter _).bind fun _ => hbody.bind fun _ =>
      (Succeeds.jumpIfOpen _).bind fun _ => .enter _
  | .cond span c body clauses otherwise, .cond cond inside clausesTyped last, hc => by
    have hcond := expr_succeeds hs hh c cond hc.2.1
    have hbody := block_succeeds body inside hc.2.2.1
    have hclauses := clauses_succeed clauses clausesTyped hc.2.2.2.1
    have hlast := block_succeeds otherwise last hc.2.2.2.2
    rw [stmt]
    exact Succeeds.newBlock.bind fun exit => (branch_succeeds hcond hbody exit).bind fun _ =>
      (hclauses exit).bind fun _ => hlast.bind fun _ => (Succeeds.jumpIfOpen _).bind fun _ =>
      .ite (.enter _) (.removeBlock _)
  | .unknown span, h, _ => nomatch h

theorem block_succeeds :
    (ss : List Stmt) → Rules.BlockTyped p place ss →
      Stmt.AllIn (Rules.Carries p place) (Rules.CarriesScope p place) ss → Succeeds (stmts ctx ss)
  | [], _, _ => .pure _
  | s :: rest, .cons head tail, hc => by
    rw [stmts]
    exact (stmt_succeeds s head hc.1).bind fun _ => Succeeds.isOpen.bind fun _ =>
      .ite (block_succeeds rest tail hc.2) (.pure _)

theorem clauses_succeed :
    (es : List Elif) → Rules.ClausesTyped p place es →
      Stmt.AllInElifs (Rules.Carries p place) (Rules.CarriesScope p place) es →
      ∀ exit, Succeeds (elifs ctx exit es)
  | [], _, _, _ => .pure _
  | .mk span c body :: rest, .cons cond inside tail, hc, exit => by
    have hcond := expr_succeeds hs hh c cond hc.1
    have hbody := block_succeeds body inside hc.2.1
    rw [elifs]
    exact (branch_succeeds hcond hbody exit).bind fun _ =>
      (clauses_succeed rest tail hc.2.2 exit).bind fun _ => .pure _

end

end

/-- A step of building that never stops and whose value satisfies a condition. -/
def Yields {α : Type} (b : Build α) (q : α → Prop) : Prop :=
  ∀ body, ∃ a body', b body = .ok (a, body') ∧ q a

theorem Succeeds.yields (h : Succeeds b) : Yields b fun _ => True := by
  intro body
  obtain ⟨⟨a, body'⟩, hr⟩ := h body
  exact ⟨a, body', hr, trivial⟩

theorem Yields.bind {f : α → Build β} (hb : Yields b q) (hf : ∀ a, q a → Yields (f a) r) :
    Yields (b >>= f) r := by
  intro body
  obtain ⟨a, body', h, hq⟩ := hb body
  obtain ⟨c, body'', h', hr⟩ := hf a hq body'
  exact ⟨c, body'', by simp only [Bind.bind, StateT.bind, h, Except.bind]; exact h', hr⟩

theorem Yields.pure {a : α} (h : q a) :
    Yields (Pure.pure a : Build α) q := fun body => ⟨a, body, rfl, h⟩

theorem Yields.succeeds (h : Yields b q) : Succeeds b := by
  intro body
  obtain ⟨a, body', hr, -⟩ := h body
  exact ⟨(a, body'), hr⟩

theorem paramSlots_yields (count : Nat) :
    (i : Nat) → (ps : List Param) → i + ps.length ≤ count →
      Yields (paramSlots count i ps) fun slots => slots.map (·.1) = ps.map (·.name)
  | _, [], _ => .pure rfl
  | i, a :: rest, h => by
    have hi : ¬ count ≤ i := by simp at h; omega
    rw [paramSlots]
    simp only [if_neg hi]
    refine (Succeeds.newSlot _).yields.bind fun id _ => ?_
    refine (paramSlots_yields count (i + 1) rest (by simp at h; omega)).bind fun slots hslots => ?_
    exact .pure (by simp [hslots])

theorem localSlots_yields :
    (vs : List VarDecl) → Yields (localSlots vs) fun slots => slots.map (·.1) = vs.map (·.name)
  | [] => .pure rfl
  | v :: rest => by
    rw [localSlots]
    exact (Succeeds.newSlot _).yields.bind fun id _ =>
      (localSlots_yields rest).bind fun slots hslots => .pure (by simp [hslots])

theorem lookup_isSome_of_mem {slots : List (String × Nat)} (h : x ∈ slots.map (·.1)) :
    (slots.lookup x).isSome := by
  obtain ⟨entry, he, rfl⟩ := List.mem_map.1 h
  exact List.lookup_isSome_iff.2 ⟨entry, he, by simp⟩

variable (mode : Arithmetic)
variable {α β : Type}

/-- What building depends on at the top level of a program. -/
def contextOf (mode : Arithmetic) (p : Program) : Context :=
  ⟨mode, p.funcs.map (·.name), p.vars.map (·.name), [], none⟩

theorem funcBody_succeeds (hw : Rules.WellTyped p) (ha : Rules.Annotated p) (hf : f ∈ p.funcs)
    (hc : f.params.length ≤ count) : Succeeds (funcBody (contextOf mode p) count f) := by
  rw [funcBody]
  refine Yields.succeeds (q := fun _ => True) ?_
  refine (paramSlots_yields count 0 f.params (by omega)).bind fun params hparams => ?_
  refine (localSlots_yields f.locals).bind fun locals hlocals => ?_
  have hs : Serves { contextOf mode p with slots := locals.reverse ++ params.reverse } p
      (some f) := by
    refine ⟨rfl, rfl, fun g hg x hx => lookup_isSome_of_mem ?_⟩
    cases hg
    rw [Rules.slotNames, List.mem_append] at hx
    simp only [List.map_append, List.map_reverse, hparams, hlocals, List.mem_append,
      List.mem_reverse]
    exact hx.symm
  refine (block_succeeds hs hw.notHost f.body (hw.funcs f hf).body (ha.funcs f hf)).yields.bind
    fun _ _ => ?_
  exact (Succeeds.isOpen.bind fun _ => .ite (.terminate _) (.pure _)).yields

theorem startBody_succeeds (hw : Rules.WellTyped p) (ha : Rules.Annotated p) :
    Succeeds (startBody (contextOf mode p) p.stmts) := by
  rw [startBody]
  refine (Succeeds.newSlot _).bind fun scratch => ?_
  have hs : Serves { contextOf mode p with scratch := some scratch } p none :=
    ⟨rfl, rfl, nofun⟩
  refine (block_succeeds hs hw.notHost p.stmts hw.stmts ha.stmts).bind fun _ => ?_
  exact .ite ((Succeeds.emitResult _).bind fun _ => .terminate _) (.terminate _)

theorem build_ok (h : Succeeds b) (results : Nat) : ∃ body, build results b = .ok body := by
  obtain ⟨⟨_, body⟩, hr⟩ := h (Body.empty results)
  exact ⟨body, by rw [build, StateT.run, hr]; rfl⟩

theorem filter_key_eq [DecidableEq β] {key : α → β} {l : List α} (hn : (l.map key).Nodup)
    (ha : a ∈ l) : l.filter (key · = key a) = [a] := by
  induction l with
  | nil => cases ha
  | cons b rest ih =>
    rw [List.map_cons, List.nodup_cons] at hn
    rcases List.mem_cons.1 ha with rfl | ha
    · have none : rest.filter (key · = key a) = [] := by
        rw [List.filter_eq_nil_iff]
        intro c hc heq
        exact hn.1 (of_decide_eq_true heq ▸ List.mem_map_of_mem hc)
      simp [none]
    · have hne : key b ≠ key a := fun heq => hn.1 (heq ▸ List.mem_map_of_mem ha)
      rw [List.filter_cons_of_neg (by simpa using hne)]
      exact ih hn.2 ha

/-- Names are distinct, so the declaration of a name is the function of that name. -/
theorem declaredParams_eq (hn : (fs.map (·.name)).Nodup) (hf : f ∈ fs) :
    declaredParams fs f.name = f.params := by
  simp [declaredParams, filter_key_eq hn hf]

variable (hw : Rules.WellTyped p) (ha : Rules.Annotated p)
include hw ha

theorem bodies_ok :
    (fs : List FuncDef) → (∀ f ∈ fs, f ∈ p.funcs) → ∀ done,
      ∃ all, bodies (contextOf mode p) p.funcs done fs = .ok all
  | [], _, done => ⟨done, rfl⟩
  | f :: rest, h, done => by
    have hf := h f List.mem_cons_self
    have hc := declaredParams_eq hw.funcNames hf
    have hcount : f.params.length ≤ (declaredParams p.funcs f.name).length := by simp [hc]
    obtain ⟨body, hb⟩ := build_ok (funcBody_succeeds mode hw ha hf hcount) (resultsOf f.name done)
    obtain ⟨all, hall⟩ := bodies_ok rest (fun g hg => h g (List.mem_cons_of_mem _ hg))
      (done ++ [(f.name, body)])
    exact ⟨all, by rw [bodies, hb]; exact hall⟩

theorem toBlockGraph_succeeds : ∃ g, p.toBlockGraph mode = .ok g := by
  obtain ⟨all, hall⟩ := bodies_ok mode hw ha p.funcs (fun _ hf => hf) []
  obtain ⟨start, hstart⟩ := build_ok (startBody_succeeds mode hw ha) 0
  unfold Program.toBlockGraph
  exact ⟨_, bind_eq_ok.2 ⟨all, hall, bind_eq_ok.2 ⟨start, hstart, rfl⟩⟩⟩

end BlockGraph

namespace StackCode

/-- A step of writing code: a line of its own, the head of a group, or the end of one. -/
inductive Mark
  | line (text : String)
  | opening (head : String)
  | closing
deriving DecidableEq, Repr

/-- Writes code at a depth of open groups. There is no text if a group is closed that was not
opened, or is left open at the end. -/
def write : (depth : Nat) → List Mark → Option (List String)
  | 0, [] => some []
  | _ + 1, [] => none
  | d, .line text :: rest => (write d rest).map (indented d text :: ·)
  | d, .opening head :: rest => (write (d + 1) rest).map (indented d head :: ·)
  | 0, .closing :: _ => none
  | d + 1, .closing :: rest => (write d rest).map (indented d ")" :: ·)

mutual

def marks : Instr → List Mark
  | .nop => [.line "(nop)"]
  | .ret => [.line "(return)"]
  | .const v => [.line ("(i32.const " ++ toString v ++ ")")]
  | .get p x => [.line ("(" ++ p.word ++ ".get $" ++ x ++ ")")]
  | .set p x => [.line ("(" ++ p.word ++ ".set $" ++ x ++ ")")]
  | .op o => [.line ("(" ++ o.name ++ ")")]
  | .call f => [.line ("(call $" ++ f ++ ")")]
  | .br l => [.line ("(br $" ++ l ++ ")")]
  | .brIf l => [.line ("(br_if $" ++ l ++ ")")]
  | .block l body => .opening ("(block $" ++ l) :: marksOf body ++ [.closing]
  | .loop l body => .opening ("(loop $" ++ l) :: marksOf body ++ [.closing]
  | .cond thenArm elseArm =>
    .opening "(if" :: .opening "(then" :: marksOf thenArm ++ .closing ::
      (if elseArm.isEmpty then [] else .opening "(else" :: marksOf elseArm ++ [.closing])
      ++ [.closing]

def marksOf : List Instr → List Mark
  | [] => []
  | i :: rest => marks i ++ marksOf rest

end

mutual

theorem write_marks : (i : Instr) → ∀ d rest,
    write d (marks i ++ rest) = (write d rest).map (i.lines d ++ ·)
  | .nop, d, rest => by simp [marks, write, Instr.lines]
  | .ret, d, rest => by simp [marks, write, Instr.lines]
  | .const v, d, rest => by simp [marks, write, Instr.lines]
  | .get p x, d, rest => by simp [marks, write, Instr.lines]
  | .set p x, d, rest => by simp [marks, write, Instr.lines]
  | .op o, d, rest => by simp [marks, write, Instr.lines]
  | .call f, d, rest => by simp [marks, write, Instr.lines]
  | .br l, d, rest => by simp [marks, write, Instr.lines]
  | .brIf l, d, rest => by simp [marks, write, Instr.lines]
  | .block l body, d, rest => by
    simp [marks, write, Instr.lines, write_marksOf body, Function.comp_def]
  | .loop l body, d, rest => by
    simp [marks, write, Instr.lines, write_marksOf body, Function.comp_def]
  | .cond thenArm elseArm, d, rest => by
    by_cases h : elseArm.isEmpty
    · simp [marks, write, Instr.lines, write_marksOf thenArm, h, Function.comp_def]
    · simp [marks, write, Instr.lines, write_marksOf thenArm, write_marksOf elseArm, h,
        Function.comp_def]

theorem write_marksOf : (is : List Instr) → ∀ d rest,
    write d (marksOf is ++ rest) = (write d rest).map (Instr.linesOf d is ++ ·)
  | [], d, rest => by simp [marksOf, Instr.linesOf]
  | i :: is, d, rest => by
    simp [marksOf, Instr.linesOf, write_marks i, write_marksOf is, Function.comp_def]

end

end StackCode

end WordScript
