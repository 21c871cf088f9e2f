import WordScript.Proofs.Correctness
import WordScript.Proofs.GraphFollows
import WordScript.Proofs.ReturnPaths

/-! The functions of a graph.

A function copies its arguments and the initial values of its variables into cells of its own. From
there on its blocks follow the evaluation of its body, and so do those of the start. -/
namespace WordScript
namespace BlockGraph

open Rules (Carries CarriesScope)

/-- Between the results `n` and `k` cells were made for names, and they hold values. -/
structure Filled (n k : Nat) (slots : List (String × Nat)) (values : List (String × Word))
    (s t : State) : Prop where
  names : slots.map (·.1) = values.map (·.1)
  cells : ∀ slot ∈ slots, ∃ v, (slot.1, v) ∈ values ∧ t.frame.cells slot.2 = some (some v)
  bounds : ∀ slot ∈ slots, n ≤ slot.2 ∧ slot.2 < k
  distinct : (slots.map (·.2)).Nodup
  others : ∀ id < n, t.frame.cells id = s.frame.cells id
  globals : t.globals = s.globals
  printed : t.printed = s.printed
  args : t.frame.args = s.frame.args

section slots

variable {m : Module} {f : Func} {b c : Body} {s t u : State} {n k l : Nat}

theorem newSlot_leads (hd : (f.blocks.map (·.number)).Nodup)
    (he : Extends f.blocks ((b.give .alloca).append (.store v (.slot b.results)))) (ho : b.Open)
    (hv : s.frame.value? v = some x) :
    Leads m f b s ((b.give .alloca).append (.store v (.slot b.results)))
      (s.setCell b.results (some x)) := by
  have opened := (Lengthens.give b .alloca).opened ho
  have alloca : Does m (.alloca b.results) s (s.setCell b.results none) := .step rfl
  have value : (s.setCell b.results none).frame.value? v = some x := by
    rw [← hv]
    cases v <;> rfl
  have made : (s.setCell b.results none).frame.cells b.results = some none :=
    Function.update_self _ _ _
  have again : (s.setCell b.results none).setCell b.results (some x) =
      s.setCell b.results (some x) := by
    simp [State.setCell]
  have store : Does m (.store v (.slot b.results)) (s.setCell b.results none)
      (s.setCell b.results (some x)) := by
    refine .step ?_
    simp [Inst.step?, value, State.write?, made,
      again]
  exact (Leads.give hd ((Lengthens.append _ _).extends opened he) alloca).trans
    (.append hd he store)

theorem newSlots_leads (hd : (f.blocks.map (·.number)).Nodup)
    (h : newSlots entries b = .ok (slots, c)) (ho : b.Open) (he : Extends f.blocks c)
    (hv : List.Forall₂ (fun entry value => entry.1 = value.1 ∧ s.frame.value? entry.2 = some value.2) entries values) :
    ∃ t, Leads m f b s c t ∧ Filled b.results c.results slots values s t := by
  induction entries generalizing b slots s values with
  | nil =>
    cases h
    cases hv
    exact ⟨s, .refl _ s, rfl, nofun, nofun, List.nodup_nil, fun _ _ => rfl, rfl, rfl, rfl⟩
  | cons entry entries ih =>
    obtain ⟨x, op⟩ := entry
    cases hv with
    | @cons _ value _ values head tail =>
      obtain ⟨y, v⟩ := value
      obtain ⟨same, value⟩ := head
      obtain rfl : x = y := same
      obtain ⟨slots', hrest, rfl⟩ := newSlots_cons_ok h
      have longer := (Lengthens.give b .alloca).trans (.append _ (.store op (.slot b.results)))
      have rest := newSlots_lengthens hrest
      have opened := longer.opened ho
      have first := newSlot_leads hd (m := m) (rest.extends opened he) ho value
      obtain ⟨t, leads, filled⟩ := ih hrest opened (s := s.setCell b.results (some v)) (by
        refine tail.imp fun entry value same => ⟨same.1, ?_⟩
        rw [← same.2]
        cases entry.2 <;> rfl)
      have results : b.results + 1 ≤ c.results := rest.results
      have held : t.frame.cells b.results = some (some v) :=
        (filled.others _ (Nat.lt_succ_self _)).trans (Function.update_self _ _ _)
      refine ⟨t, first.trans leads, ?_, ?_, ?_, ?_, ?_, filled.globals, filled.printed,
        filled.args⟩
      · rw [List.map_cons, List.map_cons, filled.names]
      · intro slot hs
        rcases List.mem_cons.1 hs with rfl | hs
        · exact ⟨v, List.mem_cons_self, held⟩
        · obtain ⟨u, mem, cell⟩ := filled.cells slot hs
          exact ⟨u, List.mem_cons_of_mem _ mem, cell⟩
      · intro slot hs
        rcases List.mem_cons.1 hs with rfl | hs
        · exact ⟨Nat.le_refl _, results⟩
        · obtain ⟨low, high⟩ := filled.bounds slot hs
          exact ⟨Nat.le_of_succ_le low, high⟩
      · refine List.nodup_cons.2 ⟨fun mem => ?_, filled.distinct⟩
        obtain ⟨slot, hs, heq⟩ := List.mem_map.1 mem
        have low : b.results < slot.2 := (filled.bounds slot hs).1
        exact Nat.ne_of_gt low heq
      · intro id hid
        rw [filled.others id (Nat.lt_succ_of_lt hid)]
        exact Function.update_of_ne (Nat.ne_of_lt hid) _ _

theorem Filled.append (h : Filled n k A V s t) (g : Filled k l B W t u) (hn : n ≤ k) (hk : k ≤ l) :
    Filled n l (A ++ B) (V ++ W) s u where
  names := by rw [List.map_append, List.map_append, h.names, g.names]
  cells slot hs := by
    rcases List.mem_append.1 hs with hs | hs
    · obtain ⟨v, mem, cell⟩ := h.cells slot hs
      refine ⟨v, List.mem_append_left _ mem, ?_⟩
      rw [g.others _ (h.bounds slot hs).2, cell]
    · obtain ⟨v, mem, cell⟩ := g.cells slot hs
      exact ⟨v, List.mem_append_right _ mem, cell⟩
  bounds slot hs := by
    rcases List.mem_append.1 hs with hs | hs
    · exact ⟨(h.bounds slot hs).1, Nat.lt_of_lt_of_le (h.bounds slot hs).2 hk⟩
    · exact ⟨Nat.le_trans hn (g.bounds slot hs).1, (g.bounds slot hs).2⟩
  distinct := by
    rw [List.map_append, List.nodup_append]
    refine ⟨h.distinct, g.distinct, ?_⟩
    intro id hid id' hid' heq
    obtain ⟨slot, hs, rfl⟩ := List.mem_map.1 hid
    obtain ⟨slot', hs', rfl⟩ := List.mem_map.1 hid'
    have low := (g.bounds slot' hs').1
    have high := (h.bounds slot hs).2
    omega
  others id hid := (g.others id (Nat.lt_of_lt_of_le hid hn)).trans (h.others id hid)
  globals := g.globals.trans h.globals
  printed := g.printed.trans h.printed
  args := g.args.trans h.args

end slots

/-- The values that the cells of a function have at first. -/
def valuesOf (d : FuncDef) (args : List Word) : List (String × Word) :=
  (d.params.map (·.name)).zip args ++ d.locals.map fun v => (v.name, Meaning.literal v.init)

section functions

variable {m : Module} {p : Program} {mode : Arithmetic} {f : Func} {d : FuncDef} {ctx : Context}
  {b b₁ b₂ c : Body} {s t : State} {args : List Word} {n k count : Nat}
  {params locals slots : List (String × Nat)} {w w' : Meaning.State} {flow : Meaning.Flow}

theorem valuesOf_names (hl : d.params.length = args.length) :
    (valuesOf d args).map (·.1) = Rules.slotNames d := by
  rw [valuesOf, List.map_append, Simulation.paramKeys hl, List.map_map]
  rfl

theorem mem_valuesOf : entry ∈ valuesOf d args ↔ entry ∈ Meaning.frameOf d args := by
  rw [valuesOf, Meaning.frameOf, List.mem_append, List.mem_append, or_comm]

theorem paramOperands_values (ps : List Param) (hl : ps.length = args.length)
    (ha : s.frame.args.drop n = args) :
    List.Forall₂ (fun entry value => entry.1 = value.1 ∧
      s.frame.value? entry.2 = some value.2) (paramOperands n ps)
      ((ps.map (·.name)).zip args) := by
  induction ps generalizing n args with
  | nil => exact .nil
  | cons a rest ih =>
    cases args with
    | nil => cases hl
    | cons v vs =>
      have here : s.frame.args[n]? = some v := by
        have first := congrArg (·[0]?) ha
        simpa using first
      have later : s.frame.args.drop (n + 1) = vs := by
        rw [← List.tail_drop, ha]
        rfl
      exact .cons ⟨rfl, here⟩ (ih (Nat.succ.inj hl) later)

theorem localOperands_values (frame : Frame) (vs : List VarDecl) :
    List.Forall₂ (fun entry value => entry.1 = value.1 ∧ frame.value? entry.2 = some value.2)
      (vs.map fun v => (v.name, Operand.ofInt v.init.encode))
      (vs.map fun v => (v.name, Meaning.literal v.init)) := by
  rw [List.forall₂_map_left_iff, List.forall₂_map_right_iff, List.forall₂_same]
  intro v _
  exact ⟨rfl, by rw [value?_ofInt, Literal.ofInt_encode]⟩

theorem function_fills (hd : (f.blocks.map (·.number)).Nodup)
    (hp : paramSlots d.params.length 0 d.params b = .ok (params, b₁))
    (hv : localSlots d.locals b₁ = .ok (locals, b₂)) (ho : b.Open) (he : Extends f.blocks b₂)
    (ha : s.frame.args = args) (hl : d.params.length = args.length) :
    ∃ t, Leads m f b s b₂ t ∧
      Filled b.results b₂.results (params ++ locals) (valuesOf d args) s t := by
  rw [paramSlots_eq 0 d.params (by omega)] at hp
  rw [localSlots_eq] at hv
  have first := newSlots_lengthens hp
  have second := newSlots_lengthens hv
  have opened := first.opened ho
  obtain ⟨t, leads, filled⟩ := newSlots_leads hd hp ho (second.extends opened he)
    (paramOperands_values (s := s) d.params hl ha)
  obtain ⟨u, leads', filled'⟩ := newSlots_leads hd hv opened he
    (localOperands_values t.frame d.locals)
  exact ⟨u, leads.trans leads', filled.append filled' first.results second.results⟩

theorem lookup_slots (h : Filled n k slots (valuesOf d args) s t) (hn : (Rules.slotNames d).Nodup)
    (hl : d.params.length = args.length) {id : Nat} :
    slots.reverse.lookup x = some id ↔ (x, id) ∈ slots := by
  rw [lookup_eq_some_iff_mem, List.mem_reverse]
  rw [List.map_reverse, List.nodup_reverse, h.names, valuesOf_names hl]
  exact hn

theorem function_site (hd : (f.blocks.map (·.number)).Nodup)
    (h : Filled n k slots (valuesOf d args) s t) (hn : (Rules.slotNames d).Nodup)
    (hl : d.params.length = args.length) :
    Site p mode f { contextOf mode p with slots := slots.reverse } (some d) where
  numbers := hd
  serves := by
    refine ⟨rfl, rfl, fun g hg x hx => lookup_isSome_of_mem ?_⟩
    cases hg
    rw [List.map_reverse, List.mem_reverse, h.names, valuesOf_names hl]
    exact hx
  mode := rfl
  only x id hx := by
    refine ⟨d, rfl, ?_⟩
    rw [← valuesOf_names hl, ← h.names]
    exact List.mem_map_of_mem ((lookup_slots h hn hl).1 hx)
  distinct x y id hx hy := by
    have same : (x, id) = (y, id) := List.inj_on_of_nodup_map h.distinct
      ((lookup_slots h hn hl).1 hx) ((lookup_slots h hn hl).1 hy) rfl
    exact congrArg Prod.fst same
  scratch _ _ _ := nofun

theorem function_fits (h : Filled n k slots (valuesOf d args) s t) (hn : (Rules.slotNames d).Nodup)
    (hl : d.params.length = args.length) (agrees : Agrees w s) :
    Fits { contextOf mode p with slots := slots.reverse }
      { w with frame := Meaning.frameOf d args } t where
  agrees := ⟨fun x => by rw [h.globals, agrees.globals], by rw [h.printed, agrees.printed]⟩
  slots x id hx := by
    obtain ⟨v, mem, cell⟩ := h.cells (x, id) ((lookup_slots h hn hl).1 hx)
    refine ⟨v, ?_, cell⟩
    have keys : ((Meaning.frameOf d args).map (·.1)).Nodup := by
      rw [Simulation.frameOf_keys hl]
      exact List.nodup_append_comm.1 hn
    exact (lookup_eq_some_iff_mem keys).2 (mem_valuesOf.1 mem)
  hidden x hx := by
    refine Simulation.lookup_eq_none fun mem => ?_
    have there : x ∈ slots.reverse.map (·.1) := by
      rw [Simulation.frameOf_keys hl, List.mem_append, or_comm, ← List.mem_append] at mem
      rw [List.map_reverse, List.mem_reverse, h.names, valuesOf_names hl]
      exact mem
    rw [← Option.not_isSome_iff_eq_none] at hx
    exact hx (lookup_isSome_of_mem there)
  scratch _ := nofun

theorem funcBody_ends (hf : f.blocks = c.blocks)
    (hc : funcBody (contextOf mode p) d.params.length d (Body.empty results) = .ok ((), c))
    (typed : Rules.FuncTyped p d)
    (annotated : Stmt.AllIn (Carries p (some d)) (CarriesScope p (some d)) d.body)
    (arity : d.params.length = args.length) (agrees : Agrees w s)
    (body : BlockRuns m p mode d.body { w with frame := Meaning.frameOf d args } flow w') :
    ∃ block t, f.block? 0 = some block ∧ Agrees w' t ∧
      Ends m f block.insts block.term { s with frame := .enter args }
        (some (Simulation.resultOf d flow)) t := by
  obtain ⟨params, b₁, locals, b₂, b₃, hparams, hlocals, hbody, rfl⟩ := funcBody_ok hc
  have longer := function_lengthens hparams hlocals
  have sound := longer.sound (.empty results)
  have opened := longer.opened (.empty results)
  have builds := stmts_build hbody sound opened
  have distinct : (f.blocks.map (·.number)).Nodup := by
    rw [hf]
    exact (builds.sound.settle _).distinct
  have whole : Extends f.blocks (b₃.settle (.ret (some (.ofInt (defaultValue d.returns))))) := by
    rw [hf]
    exact .refl _
  have after : Extends f.blocks b₃ := whole.of_grows (Grows.settle 0 _ b₃)
  have before := after.of_grows builds.grows
  obtain ⟨t, leads, filled⟩ := function_fills (s := { s with frame := .enter args }) (m := m)
    distinct hparams hlocals (.empty results) before rfl arity
  have goes := body (function_site distinct filled typed.slots arity) annotated hbody sound opened
    after (function_fits filled typed.slots arity ⟨agrees.globals, agrees.printed⟩)
  have ends : ∃ u, Agrees w' u ∧ EndsAt m f (Body.empty results) { s with frame := .enter args }
      (some (Simulation.resultOf d flow)) u := by
    cases goes with
    | @next u opened' fits leads' =>
      rw [Body.settle, if_pos (Body.isOpen_iff.2 opened')] at whole
      have value := value?_ofInt u.frame (defaultValue d.returns)
      rw [Simulation.ofInt_defaultValue] at value
      exact ⟨u, fits.agrees, leads _ _ (leads' _ _ (endsAt_close distinct whole (.ret value)))⟩
    | @ret v u agrees' ends => exact ⟨u, agrees', leads _ _ ends⟩
  obtain ⟨u, agrees', ends⟩ := ends
  obtain ⟨block, found, ends⟩ := ends.enter distinct (longer.extends (.empty results) before)
    (List.mem_singleton_self _)
  exact ⟨block, u, found, agrees', ends⟩

theorem function_runs (hl : Linked m p mode) (mem : d ∈ p.funcs)
    (arity : d.params.length = args.length)
    (body : BlockRuns m p mode d.body { w with frame := Meaning.frameOf d args } flow w') :
    CallRuns m p d.name args w (Simulation.resultOf d flow) { w' with frame := w.frame } := by
  intro ctx callee s hf hcallee agrees
  obtain rfl := callee?_user hf mem hcallee
  obtain ⟨results, c, hc, found⟩ := hl.user d mem
  obtain ⟨block, t, first, agrees', ends⟩ := funcBody_ends
    (f := ⟨.user d.name, d.params.map (·.name), true, c.blocks⟩) rfl hc (hl.typed.funcs d mem)
    (hl.annotated.funcs d mem) arity agrees body
  exact ⟨_, .function found (by simpa using arity) first ends,
    ⟨agrees'.globals, agrees'.printed⟩, rfl, rfl⟩

end functions

section evaluations

variable {m : Module} {p : Program} {mode : Arithmetic}

variable (hl : Linked m p mode)
include hl

mutual

theorem expr_followed : Meaning.Yields p mode e w v w' → ExprRuns m p mode e w v w'
  | .literal l w => literal_runs l w
  | .name value => name_runs value
  | .neg operand => unary_runs (expr_followed operand) rfl
  | .not operand => unary_runs (expr_followed operand) rfl
  | .binary left right operation applies =>
    binary_runs (expr_followed left) (expr_followed right) operation applies
  | .print argument typed => print_runs hl (expr_followed argument) typed
  | .call arguments other answer =>
    call_runs (arguments_followed arguments) other (call_followed answer)

theorem arguments_followed :
    Meaning.YieldsAll p mode args w vs w' → ArgumentsRun m p mode args w vs w'
  | .nil w => arguments_nil_run w
  | .cons head tail => arguments_cons_run (expr_followed head) (arguments_followed tail)

theorem call_followed : Meaning.Answers p mode f vs w v w' → CallRuns m p f vs w v w'
  | .host free found arity replies => hostCall_runs hl free found arity replies
  | .returns mem arity body => function_runs hl mem arity (block_followed body)
  | .falls mem arity body => function_runs hl mem arity (block_followed body)

theorem stmt_followed : Meaning.Runs p mode s w flow w' → StmtRuns m p mode s w flow w'
  | .pass span w => pass_runs span w
  | .assign value bound => assign_runs (expr_followed value) bound
  | .expr value => expr_runs (expr_followed value)
  | .ret value => ret_runs (expr_followed value)
  | .stop test => stop_runs (expr_followed test)
  | .again test holds pass rest =>
    again_runs (expr_followed test) holds (block_followed pass) (stmt_followed rest)
  | .leave test holds pass => leave_runs (expr_followed test) holds (block_followed pass)
  | .cond chosen => cond_runs (clauses_followed chosen)

theorem block_followed : Meaning.RunsAll p mode ss w flow w' → BlockRuns m p mode ss w flow w'
  | .nil w => block_nil_runs w
  | .cons head tail => block_cons_runs (stmt_followed head) (block_followed tail)
  | .left head rest => block_left_runs (stmt_followed head) rest

theorem clauses_followed :
    Meaning.Chooses p mode es otherwise w flow w' → ClausesRun m p mode es otherwise w flow w'
  | .last body => clauses_last_run (block_followed body)
  | .yes test holds taken => clauses_yes_run (expr_followed test) holds (block_followed taken)
  | .no test others => clauses_no_run (expr_followed test) (clauses_followed others)

end

end evaluations

section start

variable {m : Module} {p : Program} {mode : Arithmetic} {f : Func} {ctx : Context} {b c : Body}
  {s : State} {ss : List Stmt} {w w' : Meaning.State} {result : Option Word} {id : Nat}

/-- The statements of the top level have run, and the cell `id` holds their result, if any. -/
structure Showed (m : Module) (f : Func) (ctx : Context) (id : Nat) (b : Body) (s : State)
    (c : Body) (w : Meaning.State) (result : Option Word) (t : State) : Prop where
  fits : Fits ctx w t
  leads : Leads m f b s c t
  value : ∀ v, result = some v → t.frame.cells id = some (some v)

theorem topLevel_shows (hl : Linked m p mode) (h : Meaning.Finishes p mode ss w result w')
    (site : Site p mode f ctx none) (carries : Stmt.AllIn (Carries p none) (CarriesScope p none) ss)
    (hid : ctx.scratch = some id) (hc : stmts ctx ss b = .ok ((), c)) (hs : b.Sound) (ho : b.Open)
    (he : Extends f.blocks c) (fits : Fits ctx w s) :
    result.isSome = hasResult ss ∧ ∃ t, Showed m f ctx id b s c w' result t := by
  induction h generalizing b s with
  | nil w =>
    cases hc
    exact ⟨rfl, s, fits, .refl _ s, nofun⟩
  | @value span e w w' v value =>
    obtain ⟨d, hd, hrest⟩ := stmts_cons_ok hc
    obtain rfl : c = d := by
      rcases hrest with ⟨-, hrest⟩ | ⟨-, rfl⟩
      · cases hrest
        rfl
      · rfl
    obtain ⟨t, -, fits', leads, kept⟩ := kept_runs (expr_followed hl value) site carries.1.2 hd ho he
      fits hid
    refine ⟨rfl, t, fits', leads, ?_⟩
    rintro _ ⟨⟩
    exact kept
  | cons head inner tail ih =>
    obtain ⟨d, t, hrest, sound, opened, fits', leads⟩ :=
      head_leads (stmt_followed hl head) site carries.1 hc hs ho he fits
    obtain ⟨shown, u, showed⟩ := ih carries.2 hrest sound opened fits'
    rw [Simulation.hasResult_cons _ inner]
    exact ⟨shown, u, showed.fits, leads.trans showed.leads, showed.value⟩

theorem start_site (hd : (f.blocks.map (·.number)).Nodup) (id : Nat) :
    Site p mode f { contextOf mode p with scratch := some id } none where
  numbers := hd
  serves := ⟨rfl, rfl, nofun⟩
  mode := rfl
  only _ _ := nofun
  distinct _ _ _ := nofun
  scratch _ _ := nofun

theorem start_fits (agrees : Agrees (Meaning.initialState p) s) (id : Nat) (v : Word) :
    Fits { contextOf mode p with scratch := some id } (Meaning.initialState p)
      (s.setCell id (some v)) where
  agrees := ⟨agrees.globals, agrees.printed⟩
  slots _ _ := nofun
  hidden _ _ := rfl
  scratch k hk := by
    cases hk
    have stored : (s.setCell id (some v)).frame.cells id = some (some v) :=
      Function.update_self _ _ _
    rw [stored]
    rfl

theorem startBody_ends (hl : Linked m p mode) (hf : f.blocks = c.blocks)
    (hc : startBody (contextOf mode p) p.stmts (Body.empty 0) = .ok ((), c))
    (h : Meaning.Finishes p mode p.stmts (Meaning.initialState p) result w')
    (agrees : Agrees (Meaning.initialState p) s) :
    result.isSome = hasResult p.stmts ∧ ∃ block t, f.block? 0 = some block ∧ Agrees w' t ∧
      Ends m f block.insts block.term s result t := by
  obtain ⟨d, hstmts, rfl⟩ := startBody_ok hc
  have longer := (Lengthens.give (Body.empty 0) .alloca).trans
    (.append _ (.store (.ofInt 0) (.slot 0)))
  have sound := longer.sound (.empty 0)
  have opened := longer.opened (.empty 0)
  have builds := stmts_build hstmts sound opened
  have after := stmts_stay_open hl.typed.stmts hstmts sound opened
  have load := Lengthens.give d fun id => .load id (.slot 0)
  -- Whether there is a result or not, the last block is ended and nothing else is changed.
  have finish : ∀ e t, Lengthens d e → f.blocks = (e.close t).blocks →
      (f.blocks.map (·.number)).Nodup ∧ Extends f.blocks (e.close t) ∧ Extends f.blocks e := by
    intro e t he hb
    have whole : Extends f.blocks (e.close t) := by
      rw [hb]
      exact .refl _
    have closes : Grows 0 e (e.close t) := .close (he.opened after) t
    refine ⟨?_, whole, whole.of_grows closes⟩
    rw [hb]
    exact ((he.sound builds.sound).close t).distinct
  have ends : result.isSome = hasResult p.stmts ∧ (f.blocks.map (·.number)).Nodup ∧
      Extends f.blocks d ∧ ∃ t, Agrees w' t ∧ EndsAt m f (Body.empty 0) s result t := by
    cases shown : hasResult p.stmts with
    | true =>
      rw [shown] at hf
      obtain ⟨distinct, whole, given⟩ := finish _ _ load hf
      have before := load.extends after given
      have first := newSlot_leads distinct (m := m) (s := s)
        (before.of_grows builds.grows) (.empty 0) (value?_ofInt s.frame 0)
      obtain ⟨same, t, showed⟩ := topLevel_shows hl h (start_site distinct 0) hl.annotated.stmts rfl
        hstmts sound opened before (start_fits agrees 0 (BitVec.ofInt 32 0))
      rw [shown] at same
      obtain ⟨v, rfl⟩ := Option.isSome_iff_exists.1 same
      have loads : Does m (.load d.results (.slot 0)) t (t.give d.results v) := by
        refine .step ?_
        simp only [Inst.step?, State.read?, showed.value v rfl, ]
        rfl
      refine ⟨rfl, distinct, before, t.give d.results v,
        ⟨showed.fits.agrees.globals, showed.fits.agrees.printed⟩, ?_⟩
      exact first _ _ (showed.leads _ _ (Leads.give distinct given loads _ _
        (endsAt_close distinct whole (.ret (value?_give _ _ _)))))
    | false =>
      rw [shown] at hf
      obtain ⟨distinct, whole, before⟩ := finish _ _ (.refl d) hf
      have first := newSlot_leads distinct (m := m) (s := s)
        (before.of_grows builds.grows) (.empty 0) (value?_ofInt s.frame 0)
      obtain ⟨same, t, showed⟩ := topLevel_shows hl h (start_site distinct 0) hl.annotated.stmts rfl
        hstmts sound opened before (start_fits agrees 0 (BitVec.ofInt 32 0))
      rw [shown] at same
      obtain rfl : result = none := by simpa using same
      refine ⟨rfl, distinct, before, t, showed.fits.agrees, ?_⟩
      exact first _ _ (showed.leads _ _ (endsAt_close distinct whole .ret_none))
  obtain ⟨same, distinct, before, t, agrees', ends⟩ := ends
  obtain ⟨block, found, ends⟩ := ends.enter distinct
    (longer.extends (.empty 0) (before.of_grows builds.grows)) (List.mem_singleton_self _)
  exact ⟨same, block, t, found, agrees', ends⟩

end start

end BlockGraph
end WordScript
