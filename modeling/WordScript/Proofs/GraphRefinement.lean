import WordScript.Proofs.GraphFunctions
import WordScript.Proofs.GraphWellFormed
import WordScript.Proofs.RunDerivation
import WordScript.Proofs.TruthValues

/-! The graphs of a program do what its module does.

A run of the module that comes to an end is an evaluation by the rules, and the graphs follow every
such evaluation. So they end with the same result, the same lines and the same globals, as long as
the run does without the signed remainders that have no meaning for graphs. -/
namespace WordScript
open Rules (WellTyped check_sound slotNames)
open StackCode (contextAt globalsOf instanceOf loaded)
open Meaning (initialState)
open Program (legible_erase)

namespace Simulation

open Machine (Control InRange)
open StackCode (key)
open Meaning (Finishes)

section start

variable {p : Program} {mode : Arithmetic} {env : Machine.Env} {depth fuel bound : Nat}
  {g : Option (Machine.Func Machine.HostFunc)} {s t : Machine.State} {c : Control}

theorem topLevel_derived (hl : Linked p mode ⟨env.funcs, none⟩) (calls : CallsDerived p mode env bound)
    (names : Scoped p none) (hh : ∀ f ∈ p.funcs, f.name ∉ Rules.hostNames) :
    (ss : List Stmt) → ∀ {n code rest fuel w s c t}, fuel ≤ bound → Rules.BlockTyped p none ss →
      StackCode.stmts (contextAt mode p none) n ss = .ok code → Ready p none w s →
      Goes env depth g fuel (code ++ rest) s c t →
      ∃ result w', Finishes p mode ss w result w' ∧
        Continues env depth g fuel rest c t (TopLeft p ss s.stack.live result w' .next) := by
  intro ss
  induction ss with
  | nil =>
    intro n code rest fuel w s c t le _ h ready goes
    cases h
    exact ⟨none, w, .nil w, fuel, s, le_rfl, ⟨rfl, ready, rfl, rfl, nofun⟩, goes⟩
  | cons st others ih =>
    intro n code rest fuel w s c t le typed h ready goes
    obtain ⟨first, code, hf, ho, rfl⟩ := StackCode.stmts_cons_ok.1 h
    obtain ⟨head, tail⟩ : Rules.StmtTyped p none st ∧ Rules.BlockTyped p none others := by
      cases typed with
      | cons head tail => exact ⟨head, tail⟩
    rw [List.append_assoc] at goes
    by_cases last : ∃ span e, st = .expr span e ∧ others = []
    · -- The value of an expression that stands last stays in the scratch slot.
      obtain ⟨span, e, rfl, rfl⟩ := last
      cases ho
      obtain ⟨code, he, rfl⟩ := StackCode.stmt_expr_ok.1 hf
      cases head with
      | expr value =>
        rw [List.append_assoc] at goes
        obtain ⟨v, w', yields, k, u, le', pushed, goes⟩ :=
          expr_derived hl calls names hh e le value he ready goes
        obtain ⟨k', u', le'', ⟨ready', live, scratch⟩, goes⟩ := scratch_derived pushed goes
        refine ⟨some v, w', .value yields, k', u', le''.trans le', ⟨rfl, ready', live, rfl, ?_⟩, goes⟩
        rintro _ ⟨⟩
        exact scratch
    · have inner : ∀ span e, st = .expr span e → others ≠ [] :=
        fun span e hst hothers => last ⟨span, e, hst, hothers⟩
      obtain ⟨flow, w₁, runs, proceeds⟩ := stmt_derived hl calls names hh st le head hf ready goes
      cases proceeds with
      | next continues =>
        obtain ⟨k, u, le', ⟨ready', live⟩, goes⟩ := continues
        obtain ⟨result, w', finishes, k', u', le'', top, goes⟩ := ih (le'.trans le) tail ho ready' goes
        refine ⟨result, w', .cons runs inner finishes, k', u', le''.trans le',
          ⟨rfl, top.ready, live ▸ top.live, ?_, top.value⟩, goes⟩
        rw [top.shown, hasResult_cons st inner]
      | ret left =>
        cases left with
        | ret _ _ holds => obtain ⟨f, type, ⟨⟩, -⟩ := holds

theorem start_derived (hl : Linked p mode ⟨env.funcs, none⟩) (hw : WellTyped p)
    (clear : ∀ f ∈ p.funcs, StackCode.scratch ∉ slotNames f) {code : List StackCode.Instr}
    (hc : StackCode.stmts (contextAt mode p none) 0 p.stmts = .ok code)
    (visible : Visible (initialState p) s) (live : s.stack.live = [])
    (range : InRange env ⟨0, g, .call (loaded (StackCode.startOf p.stmts code)), s⟩)
    (h : (Machine.call env fuel 0 (loaded (StackCode.startOf p.stmts code))).run s = (.ok v, t)) :
    ∃ result w, Finishes p mode p.stmts (initialState p) result w ∧
      Matches (hasResult p.stmts) result w v t := by
  obtain ⟨k, args, c, u, x, rfl, shallow, pops, inside, leaves⟩ := Machine.call_defined_ok rfl h
  have entered := range.step (.enter rfl pops shallow)
  have none : s.stack.live = ([] : List Word).reverse ++ [] := live
  obtain ⟨u', pops', keeps, live'⟩ := Machine.run_popMany none
  cases pops.symm.trans pops'
  have height : u.stack.height = 0 := congrArg List.length live'
  have visible' : Visible (initialState p)
      { u with locals := [(key StackCode.scratch, (0 : Word))] } :=
    ⟨keeps.globals.trans visible.globals, keeps.printed.trans visible.printed⟩
  have ready := ready_initial hw visible' rfl
  obtain ⟨result, w, finishes, k', u', -, top, goes⟩ := topLevel_derived hl
    (calls_derived hl hw clear k) ⟨hw.globals, nofun, nofun⟩ hw.notHost p.stmts le_rfl hw.stmts hc
    ready ⟨inside, entered⟩
  refine ⟨result, w, finishes, ?_⟩
  have top' : TopLeft p p.stmts [] result w .next u' := live' ▸ top
  have settled : ∃ c' x', Machine.Settles (fun fuel => Machine.resume (Simulation.code env 1
      (if hasResult p.stmts then [.get .slot StackCode.scratch] else []) fuel) .next) u' (.ok c', x') ∧
      Shown p result w c' x' := show_settles top'
  obtain ⟨c', x', shows, shown⟩ := settled
  cases shows.eq_of_ok goes.run
  have answered : ∃ v' t', Machine.Settles (fun _ => Machine.leave
      (loaded (StackCode.startOf p.stmts code)) u.locals 0 c) x (.ok v', t') ∧
      Matches (hasResult p.stmts) result w v' t' := shown.leaves rfl
  obtain ⟨v', t', left, found⟩ := answered
  rw [height] at leaves
  obtain ⟨least, same⟩ := left.1
  cases (same least le_rfl).symm.trans leaves
  exact found

end start

end Simulation

theorem StackCode.Runnable.finishes (h : StackCode.Runnable p mode inst gs code)
    (hw : WellTyped p) (clear : ∀ f ∈ p.funcs, StackCode.scratch ∉ slotNames f)
    (range : ∀ f, inst.exports.lookup (Utf8.encode Builtin.startName) = some f → Machine.InRange ⟨inst.funcs, none⟩ (inst.entry f []))
    (outcome : (inst.invoke fuel none (Utf8.encode Builtin.startName) []).outcome = .ok v) :
    ∃ w, Meaning.Finishes p mode p.stmts (initialState p) v w ∧
      (inst.invoke fuel none (Utf8.encode Builtin.startName) []).behaviour? =
        some ⟨.ok v, w.printed.reverse, fun x => w.globals.lookup x⟩ := by
  obtain rfl := h.eq
  have linked := Simulation.linked_instance h.funcs h.loadable
  have bare : (StackCode.startOf p.stmts code).params = [] := rfl
  have seen := Simulation.invoke_behaviour?
    ⟨globalsOf p, gs, some (StackCode.startOf p.stmts code)⟩ bare fuel
  rw [seen]
  rw [Machine.Invocation.behaviour?, outcome] at seen
  have entered := range (loaded (StackCode.startOf p.stmts code))
    (by simp [instanceOf])
  rcases run : (Machine.call ⟨(instanceOf ⟨globalsOf p, gs,
    some (StackCode.startOf p.stmts code)⟩ (StackCode.startOf p.stmts code)).funcs, none⟩ fuel 0
    (loaded (StackCode.startOf p.stmts code))).run
      (Simulation.entryState (globalsOf p)) with ⟨e | word, t⟩
  · rw [run] at seen
    cases e <;> cases seen
  · obtain ⟨result, w, finishes, rfl, visible⟩ := Simulation.start_derived linked hw clear h.start
      (Simulation.visible_entryState p) rfl entered run
    have value := congrArg (Option.map (·.outcome)) seen
    rw [run] at value
    cases value
    refine ⟨w, finishes, ?_⟩
    rw [Simulation.observed, visible.printed, visible.globals_eq]

namespace Sexpr

mutual

def mentions (word : Bytes) : Sexpr → Bool
  | .atom text => text == word
  | .list items => mentionsIn word items

def mentionsIn (word : Bytes) : List Sexpr → Bool
  | [] => false
  | s :: rest => s.mentions word || mentionsIn word rest

end

theorem mentionsIn_eq_false {items : List Sexpr} :
    mentionsIn word items = false ↔ ∀ s ∈ items, s.mentions word = false := by
  induction items with
  | nil => simp [mentionsIn]
  | cons s rest ih => simp [mentionsIn, ih]

theorem mentionsIn_operands {s : Sexpr} (h : s.mentions word = false) :
    mentionsIn word s.operands = false := by
  cases s with
  | atom text => rfl
  | list items =>
    rw [mentions, mentionsIn_eq_false] at h
    exact mentionsIn_eq_false.2 fun o ho => h o (List.mem_of_mem_tail ho)

end Sexpr

namespace Machine

/-- Whether a word stands in the code of a function. -/
def Func.mentions (word : Bytes) (f : Func HostFunc) : Bool :=
  match f.code with
  | .imported _ => false
  | .defined _ body => Sexpr.mentionsIn word body

def Task.mentions (word : Bytes) : Task → Bool
  | .seq code => Sexpr.mentionsIn word code
  | .instr form => form.mentions word
  | .passes _ _ _ body => Sexpr.mentionsIn word body
  | .call f => f.mentions word

section mentions

variable {env : Env} {word : Bytes} {x y : Point}

theorem mentionsIn_of_subset (h : Sexpr.mentionsIn word ys = false) (hs : ∀ s ∈ xs, s ∈ ys) :
    Sexpr.mentionsIn word xs = false :=
  Sexpr.mentionsIn_eq_false.2 fun s hx => Sexpr.mentionsIn_eq_false.1 h s (hs s hx)

theorem splitLabel_subset (items : List Sexpr) : ∀ s ∈ (splitLabel items).2, s ∈ items := by
  intro s hs
  cases items with
  | nil => exact hs
  | cons i rest =>
    rw [splitLabel] at hs
    split at hs
    · exact List.mem_cons_of_mem _ hs
    · exact hs

theorem mentionsIn_arm (kind : Bytes) (h : Sexpr.mentionsIn word items = false) :
    Sexpr.mentionsIn word (arm kind items) = false := by
  rw [arm]
  cases chosen : (items.filter (·.head == kind)).getLast? with
  | none => rfl
  | some s =>
    have mem := List.mem_of_mem_filter (List.mem_of_getLast? chosen)
    exact Sexpr.mentionsIn_operands (Sexpr.mentionsIn_eq_false.1 h s mem)

theorem Starts.mentions (hf : ∀ f ∈ env.funcs, f.mentions word = false) (h : Starts env x y)
    (hx : x.task.mentions word = false) : y.task.mentions word = false := by
  cases h with
  | first => exact Sexpr.mentionsIn_eq_false.1 hx _ List.mem_cons_self
  | rest => exact mentionsIn_of_subset hx fun s hs => List.mem_cons_of_mem _ hs
  | block | loop => exact mentionsIn_of_subset (Sexpr.mentionsIn_operands hx) (splitLabel_subset _)
  | test =>
    exact mentionsIn_of_subset (Sexpr.mentionsIn_operands hx) fun s hs =>
      splitLabel_subset _ s (List.mem_of_mem_filter hs)
  | arm =>
    exact mentionsIn_arm _
      (mentionsIn_of_subset (Sexpr.mentionsIn_operands hx) (splitLabel_subset _))
  | operands =>
    exact mentionsIn_of_subset (Sexpr.mentionsIn_operands hx) fun s hs => List.mem_of_mem_filter hs
  | call _ _ _ found => exact hf _ (List.mem_of_find?_eq_some found)
  | pass => exact hx
  | again => exact hx
  | enter code =>
    rw [Task.mentions, Func.mentions, code] at hx
    exact hx

theorem reaches_mentions (hf : ∀ f ∈ env.funcs, f.mentions word = false) (h : Reaches env x y)
    (hx : x.task.mentions word = false) : y.task.mentions word = false := by
  induction h with
  | refl => exact hx
  | tail _ step ih => exact step.mentions hf ih

theorem inRange_of_mentions
    (hf : ∀ f ∈ env.funcs, f.mentions (keyword (WordOp.rem .signed).name) = false)
    (hx : x.task.mentions (keyword (WordOp.rem .signed).name) = false) : InRange env x := by
  intro y reach task
  have without := reaches_mentions hf reach hx
  rw [task, ] at without
  cases without

end mentions

end Machine

namespace BlockGraph

section linking

variable {p : Program} {mode : Arithmetic} {g : Module}

theorem func?_of_mem (hn : (g.funcs.map (·.symbol)).Nodup) (hf : f ∈ g.funcs) :
    g.func? f.symbol = some f := by
  have found := Simulation.find?_name hn hf
  exact found

theorem linked_of_ok (hw : WellTyped p) (ha : Rules.Annotated p)
    (hg : p.toBlockGraph mode = .ok g) :
    Linked g p mode ∧ ∃ start, startBody (contextOf mode p) p.stmts (Body.empty 0) = .ok ((), start) ∧
      g.func? (.outer Builtin.startName) = some (startOf p.stmts start) := by
  obtain ⟨bs, start, built, hstart, rfl⟩ := toBlockGraph_ok hw.funcNames hg
  have symbols : (List.zipWith funcOf p.funcs bs).map (·.symbol) =
      p.funcs.map fun d => .user d.name := by
    have names := congrArg (List.map Prod.fst) (signatures_zipWith built)
    simpa [Function.comp_def] using names
  have distinct : ((hostFuncs ++ List.zipWith funcOf p.funcs bs ++ [startOf p.stmts start]).map
      (·.symbol)).Nodup := by
    have names := names_nodup hw (m := ⟨p.vars.map fun v => (v.name, BitVec.ofInt 32 v.init.encode),
      hostFuncs ++ List.zipWith funcOf p.funcs bs ++ [startOf p.stmts start]⟩)
      (by rw [List.map_append, List.map_append, symbols]; rfl) (by simp)
    refine List.Nodup.of_map Symbol.name ?_
    rw [List.map_map]
    exact (List.nodup_append.1 names).1
  have hosts : ∀ i ∈ StackCode.hosts,
      (⟨.outer i.1, List.replicate i.2.reads "", true, []⟩ : Func) ∈ hostFuncs := by decide
  have find := fun f => func?_of_mem (f := f) (g := ⟨p.vars.map fun v => (v.name,
    BitVec.ofInt 32 v.init.encode), hostFuncs ++ List.zipWith funcOf p.funcs bs ++
      [startOf p.stmts start]⟩) distinct
  refine ⟨⟨hw, ha, fun i hi => ?_, fun d hd => ?_⟩, start, hstart, ?_⟩
  · exact find _ (List.mem_append_left _ (List.mem_append_left _ (hosts i hi)))
  · obtain ⟨body, own, mem⟩ := funcOf_mem built hd
    exact ⟨0, body, own, find _ (List.mem_append_left _ (List.mem_append_right _ mem))⟩
  · exact find _ (List.mem_append_right _ (List.mem_singleton_self _))

theorem agrees_initial (hg : p.toBlockGraph mode = .ok g) (hw : WellTyped p) :
    Agrees (initialState p) g.initialState := by
  obtain ⟨bs, start, -, -, rfl⟩ := toBlockGraph_ok hw.funcNames hg
  refine ⟨fun x => ?_, rfl⟩
  simp only [Module.initialState, initialState, Literal.ofInt_encode]

theorem behaviour_of_finishes (hw : WellTyped p) (ha : Rules.Annotated p)
    (hg : p.toBlockGraph mode = .ok g)
    (h : Meaning.Finishes p mode p.stmts (initialState p) result w) :
    ∃ least, ∀ fuel ≥ least,
      g.behaviour? fuel = some ⟨.ok result, w.printed.reverse, fun x => w.globals.lookup x⟩ := by
  obtain ⟨linked, start, hstart, found⟩ := linked_of_ok hw ha hg
  obtain ⟨same, block, t, first, agrees, ends⟩ := startBody_ends (f := startOf p.stmts start) linked
    rfl hstart h (agrees_initial hg hw)
  obtain ⟨least, reaches⟩ := Reaches.enter first ends
  refine ⟨least, fun fuel hf => ?_⟩
  have globals : t.globals = fun x => w.globals.lookup x := funext agrees.globals
  have shown : result.isSome = (startOf p.stmts start).result := same
  simp [Module.behaviour?, found, reaches fuel hf,
    if_pos shown, globals, agrees.printed]

end linking

end BlockGraph

open Machine (Image InRange)

theorem ok_of_toOption {ε α : Type} {x : Except ε α} {a : α} (h : x.toOption = some a) :
    x = .ok a := by
  cases x with
  | error e => cases h
  | ok b => exact congrArg Except.ok (Option.some.inj h)

/-- The graphs of a checked program do what its module does, in both modes: if a run of the entry of
the module ends without a trap, and without computing the signed remainder of a quotient that is out
of range, then the start of the graphs ends with the same result, if there is one, the same printed
lines and the same values of the globals. -/
theorem graph_follows_module (p t : Program) (mode : Arithmetic) (hk : p.Known)
    (h : p.check = .ok t) (hl : p.Legible)
    (hs : ∀ f ∈ p.funcs, StackCode.scratch ∉ Rules.slotNames f) :
    ∃ m g, t.toStackCode mode = .ok m ∧ t.toBlockGraph mode = .ok g ∧
      ((∀ v ∈ t.vars, (Expr.literal v.init).Representable) →
        ∃ image inst, Image.load (Utf8.encode m.render) = .ok image ∧
          image.instantiate = .ok inst) ∧
      ∀ image inst, Image.load (Utf8.encode m.render) = .ok image → image.instantiate = .ok inst →
        (∀ f, inst.exports.lookup (Utf8.encode Builtin.startName) = some f →
          InRange ⟨inst.funcs, none⟩ (inst.entry f [])) →
        ∀ fuel v, (inst.invoke fuel none (Utf8.encode Builtin.startName) []).outcome = .ok v →
          ∃ least, ∀ fuel' ≥ least, g.behaviour? fuel' = some ⟨.ok v,
            (inst.invoke fuel none (Utf8.encode Builtin.startName) []).printed,
            fun x => (inst.invoke fuel none (Utf8.encode Builtin.startName) []).inst.global?
              (Utf8.encode x)⟩ := by
  have checked := check_sound hk h
  have hw := checked.after
  have legible : t.Legible := by
    rw [← legible_erase, checked.same, legible_erase]
    exact hl
  have clear : ∀ f ∈ t.funcs, StackCode.scratch ∉ slotNames f := by
    intro f' hf'
    obtain ⟨f, hf, hff⟩ := forall₂_mem_right (Rules.check_funcs h).1 hf'
    rw [Rules.slotNames_eq hff]
    exact hs f hf
  obtain ⟨m, hm⟩ := StackCode.toStackCode_succeeds hw checked.annotated
  obtain ⟨g, hg⟩ := BlockGraph.toBlockGraph_succeeds mode hw checked.annotated
  refine ⟨m, g, hm, hg, StackCode.runs_of_legible legible hw hm, ?_⟩
  intro image inst hload hinst range fuel v outcome
  obtain ⟨gs, code, runnable⟩ := StackCode.runnable legible hw hm hload hinst
  obtain ⟨w, finishes, seen⟩ := runnable.finishes hw clear range outcome
  have shown := BlockGraph.behaviour_of_finishes hw checked.annotated hg finishes
  rw [← seen, Machine.Invocation.behaviour?, outcome] at shown
  exact shown

/-- The graphs of the factorial program do what its module does. -/
theorem factorial_graph_follows : factorial.Known ∧ factorial.Legible ∧
    ∃ t m g image inst, factorial.check = .ok t ∧ t.toStackCode .signed = .ok m ∧
      t.toBlockGraph .signed = .ok g ∧ Image.load (Utf8.encode m.render) = .ok image ∧
      image.instantiate = .ok inst ∧ ∃ least, ∀ fuel ≥ least,
        (g.behaviour? fuel).map (fun b => (b.outcome.toOption, b.printed, b.global "x")) =
          some (some (some 5), ["120"], some 5) := by
  have legible : factorial.Legible := StackCode.legible_of_writable factorial_writable
  have checked := check_sound factorial_known rfl
  have legible' := legible
  rw [← legible_erase, ← checked.same, legible_erase] at legible'
  obtain ⟨image, hload, hinst⟩ := StackCode.legible_instance .signed legible' checked.after
    (by simp [Expr.Representable, Typing.literal]) (.cons rfl .nil) rfl
  obtain ⟨m, g, hm, hg, -, follows⟩ := graph_follows_module factorial _ .signed factorial_known rfl
    legible (by decide)
  cases hm
  obtain ⟨least, shown⟩ := follows image _ hload hinst
    (fun f found => Machine.inRange_of_mentions (by decide +kernel) (by cases found; decide +kernel))
    100 (some 5) (ok_of_toOption (by decide +kernel))
  refine ⟨factorial_known, legible, _, _, g, image, _, rfl, rfl, hg, hload, hinst, least, fun fuel hf => ?_⟩
  rw [shown fuel hf]
  decide +kernel

/-- The module sets the global to five, the graphs to one: the statement overwrites a parameter
that has the name of the scratch slot in the module only. -/
theorem echoTruth_graph_differs : ∃ t m g image inst, (echoTruth StackCode.scratch).Known ∧
    (echoTruth StackCode.scratch).check = .ok t ∧ t.toStackCode .signed = .ok m ∧
    t.toBlockGraph .signed = .ok g ∧ Image.load (Utf8.encode m.render) = .ok image ∧
    image.instantiate = .ok inst ∧
    (∀ f, inst.exports.lookup (Utf8.encode Builtin.startName) = some f →
      InRange ⟨inst.funcs, none⟩ (inst.entry f [])) ∧
    (inst.invoke 20 none (Utf8.encode Builtin.startName) []).outcome.toOption = some none ∧
    (inst.invoke 20 none (Utf8.encode Builtin.startName) []).inst.global? (Utf8.encode "b") =
      some 5 ∧
    ∀ fuel b, g.behaviour? fuel = some b → b.global "b" = some 1 := by
  have checked := check_sound (echoTruth_known StackCode.scratch) rfl
  have legible : (echoTruth StackCode.scratch).Legible := echoTruth_legible rfl
  rw [← legible_erase, ← checked.same, legible_erase] at legible
  obtain ⟨image, hload, hinst⟩ := StackCode.legible_instance .signed legible checked.after
    (by simp [Expr.Representable, Typing.literal]) (.cons rfl .nil) rfl
  refine ⟨_, _, _, image, _, echoTruth_known StackCode.scratch, rfl, rfl, rfl, hload, hinst, ?_, ?_,
    ?_, ?_⟩
  · intro f found
    exact Machine.inRange_of_mentions (by decide +kernel) (by cases found; decide +kernel)
  · decide +kernel
  · decide +kernel
  · intro fuel b h
    rcases fuel with _ | _ | fuel
    · cases h
    · cases h
    · cases h
      rfl

end WordScript
