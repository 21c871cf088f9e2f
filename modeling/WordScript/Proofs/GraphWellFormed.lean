import WordScript.BlockGraph.Text
import WordScript.Proofs.GraphFlow
import WordScript.Proofs.GraphValues
import WordScript.Proofs.ReturnPaths
import WordScript.Proofs.Spelling

/-! The graphs of a checked program are well formed.

Every block is ended once and can be reached from the entry, every jump leads to a block of the
same function, instructions use values that are there, and no two things are called the same. -/
namespace WordScript
namespace BlockGraph

def Symbol.name : Symbol → String
  | .user f => "fn." ++ f
  | .outer f => f

theorem symbol_text (s : Symbol) : s.text = "@" ++ nameText s.name := by cases s <;> rfl

def Module.names (m : Module) : List String :=
  m.funcs.map (·.symbol.name) ++ m.globals.map ("var." ++ ·.1)

def IsBlockName (x : String) : Prop := x = "bb.entry" ∨ ∃ n : Nat, 0 < n ∧ x = "bb." ++ toString n

theorem isBlockName_blockName (n : Nat) : IsBlockName (blockName n) := by
  rw [blockName]
  split
  · exact .inl rfl
  · rename_i hn
    exact .inr ⟨n, Nat.pos_of_ne_zero hn, rfl⟩

/-- The name of the entry is that of no other block, as it does not end in a number. -/
theorem entry_ne_numbered (n : Nat) : "bb.entry" ≠ "bb." ++ toString n := by
  intro heq
  have rest : "entry" = toString n := (String.append_right_inj "bb.").1 heq
  have letter : 'e' ∈ (toString n).toList := rest ▸ by decide
  exact absurd (Numeral.isDigit_of_mem letter) (by decide)

theorem blockName_inj (h : blockName m = blockName n) : m = n := by
  rw [blockName, blockName] at h
  by_cases hm : m = 0 <;> by_cases hn : n = 0
  · rw [hm, hn]
  · rw [if_pos hm, if_neg hn] at h
    exact absurd h (entry_ne_numbered n)
  · rw [if_neg hm, if_pos hn] at h
    exact absurd h.symm (entry_ne_numbered m)
  · rw [if_neg hm, if_neg hn] at h
    exact Nat.repr_inj.1 ((String.append_right_inj "bb.").1 h)

theorem outer_unmarked (hx : x ∈ Builtin.startName :: Builtin.imports.map (·.1)) (y : String) :
    x ≠ "fn." ++ y ∧ x ≠ "var." ++ y := by
  have marks : ∀ x ∈ Builtin.startName :: Builtin.imports.map (·.1),
      x.toList.take 3 ≠ ['f', 'n', '.'] ∧ x.toList.take 3 ≠ ['v', 'a', 'r'] := by decide
  obtain ⟨notFunc, notVar⟩ := marks x hx
  constructor
  · rintro rfl
    exact notFunc (by rw [String.toList_append]; rfl)
  · rintro rfl
    exact notVar (by rw [String.toList_append]; rfl)

theorem func_ne_global (x y : String) : "fn." ++ x ≠ "var." ++ y := by
  intro heq
  have first := congrArg (fun s => s.toList.head?) heq
  simp at first

theorem names_nodup (hw : Rules.WellTyped p) {m : Module}
    (symbols : m.funcs.map (·.symbol) = Builtin.imports.map (fun i => .outer i.1) ++ p.funcs.map (fun f => .user f.name) ++ [.outer Builtin.startName])
    (globals : m.globals.map (·.1) = p.vars.map (·.name)) : m.names.Nodup := by
  have funcs : m.funcs.map (·.symbol.name) = Builtin.imports.map (·.1) ++
      p.funcs.map ("fn." ++ ·.name) ++ [Builtin.startName] := by
    have names := congrArg (List.map Symbol.name) symbols
    simpa [Function.comp_def, Symbol.name] using names
  have vars : m.globals.map ("var." ++ ·.1) = p.vars.map ("var." ++ ·.name) := by
    have names := congrArg (List.map ("var." ++ ·)) globals
    simpa [Function.comp_def] using names
  have outer : (Builtin.startName :: Builtin.imports.map (·.1)).Nodup := by decide
  have marked : ∀ mark : String, ∀ {α : Type} (l : List α) (name : α → String),
      (l.map name).Nodup → (l.map (mark ++ name ·)).Nodup := by
    intro mark α l name hn
    have marks := hn.map (f := (mark ++ ·)) fun _ _ => (String.append_right_inj mark).1
    rwa [List.map_map] at marks
  rw [Module.names, funcs, vars, List.nodup_append, List.nodup_append, List.nodup_append]
  refine ⟨⟨⟨outer.of_cons, marked _ _ _ hw.funcNames, ?_⟩, List.nodup_singleton _, ?_⟩,
    marked _ _ _ hw.globals, ?_⟩
  · rintro x hx _ hy rfl
    obtain ⟨f, -, heq⟩ := List.mem_map.1 hy
    exact (outer_unmarked (List.mem_cons_of_mem _ hx) f.name).1 heq.symm
  · rintro x hx _ hy rfl
    rw [List.mem_singleton.1 hy] at hx
    rcases List.mem_append.1 hx with hx | hx
    · exact (List.nodup_cons.1 outer).1 hx
    · obtain ⟨f, -, heq⟩ := List.mem_map.1 hx
      exact (outer_unmarked List.mem_cons_self f.name).1 heq.symm
  · rintro x hx _ hy rfl
    obtain ⟨v, -, rfl⟩ := List.mem_map.1 hy
    rcases List.mem_append.1 hx with hx | hx
    · rcases List.mem_append.1 hx with hx | hx
      · exact (outer_unmarked (List.mem_cons_of_mem _ hx) v.name).2 rfl
      · obtain ⟨f, -, heq⟩ := List.mem_map.1 hx
        exact func_ne_global f.name v.name heq
    · exact (outer_unmarked List.mem_cons_self v.name).2 (List.mem_singleton.1 hx).symm

/-- What there is around the code of a function of a module. -/
def Func.supply (m : Module) (f : Func) : Supply :=
  ⟨f.params.length, m.globals.map (·.1), m.funcs.map (·.symbol)⟩

/-- The cells that an instruction of a block may use: they are made in the entry, and for the
instructions of the entry itself before them. -/
def Func.cells (f : Func) (k : Block) (before : List Inst) (id : Nat) : Prop :=
  if k.number = 0 then .alloca id ∈ before
  else ∃ entry ∈ f.blocks, entry.number = 0 ∧ .alloca id ∈ entry.insts

/-- A well-formed function of a module. -/
structure Func.WellFormed (m : Module) (f : Func) : Prop where
  ended : ∀ k ∈ f.blocks, k.term.isSome = true
  targets : ∀ k ∈ f.blocks, ∀ j ∈ k.targets, ∃ k' ∈ f.blocks, k'.number = j
  names : (f.blocks.map fun k => blockName k.number).Nodup
  /-- Blocks are called as no parameter is, unless a parameter has the name of a block. -/
  params : (∀ x ∈ f.params, ¬ IsBlockName x) → ∀ k ∈ f.blocks, blockName k.number ∉ f.params
  entry : ∃ e rest, f.blocks = e :: rest ∧ e.number = 0
  noPredecessor : ∀ k ∈ f.blocks, 0 ∉ k.targets
  reachable : ∀ k ∈ f.blocks, Path f.blocks 0 k.number
  values : ∀ k ∈ f.blocks,
    KnownFrom (fun before => Inst.Known (f.supply m) (f.cells k before) before) [] k.insts
  ends : ∀ k ∈ f.blocks, ∀ t ∈ k.term, t.Known (f.supply m) k.insts

section functions

variable {m : Module} {f : Func} {s : Supply} {made : Nat → Prop} {setup : List Inst} {b c : Body}

theorem wellFormed_of_body (hf : f.blocks = c.blocks) (hs : f.supply m = s) (start : b.Starts setup)
    (known : KnownFrom (EntryKnown s) [] setup) (cells : ∀ id, made id → .alloca id ∈ setup)
    (woven : Weaves [] [] b c) (sound : c.Sound) (ended : c.Ended) (laid : c.Laid s made setup) :
    f.WellFormed m := by
  have edges : ∀ k ∈ c.blocks, ∀ j ∈ k.targets, 0 < j ∧ ∃ k' ∈ c.blocks, k'.number = j := by
    intro k hk j hj
    rcases woven.edges k.number j ⟨k, hk, rfl, hj⟩ with ⟨k', hk', -, hj'⟩ | new | none
    · rw [start.blocks] at hk'
      rw [List.mem_singleton.1 hk'] at hj'
      cases hj'
    · exact start.made ▸ new
    · cases none
  obtain ⟨entry, rest, hc, hn⟩ := laid.first
  have there : entry ∈ c.blocks := hc ▸ List.mem_cons_self
  have opens : setup <+: entry.insts := by
    obtain ⟨is, heq, -⟩ := laid.code entry there
    rw [heq, hn]
    exact List.prefix_append _ _
  refine ⟨?_, ?_, ?_, ?_, ?_, ?_, ?_, ?_, ?_⟩ <;> rw [hf]
  · intro k hk
    by_contra hterm
    have none : k.term = none := Option.not_isSome_iff_eq_none.1 hterm
    by_cases hn : k.number = c.current
    · exact hterm (ended k hk hn)
    · obtain ⟨there, other⟩ := (woven.unended k hk none hn).resolve_left List.not_mem_nil
      rw [start.blocks] at there
      rw [List.mem_singleton.1 there, start.current] at other
      exact other rfl
  · exact fun k hk j hj => (edges k hk j hj).2
  · have numbers := sound.distinct.map_on (f := blockName) fun _ _ _ _ => blockName_inj
    rwa [List.map_map] at numbers
  · intro clear k _ mem
    exact clear _ mem (isBlockName_blockName _)
  · exact laid.first
  · exact fun k hk hj => Nat.lt_irrefl 0 (edges k hk 0 hj).1
  · intro k hk
    by_cases hn : k.number = 0
    · rw [hn]
      exact .refl
    · have path := (woven.reached k hk (start.made ▸ Nat.pos_of_ne_zero hn)).resolve_left
        List.not_mem_nil
      rwa [start.current] at path
  · intro k hk
    obtain ⟨is, heq, code⟩ := laid.code k hk
    rw [hs, heq]
    by_cases h0 : k.number = 0
    · rw [Body.opening, if_pos h0] at code ⊢
      refine knownFrom_append.2 ⟨known.imp ?_ List.nil_prefix, code.imp ?_ List.prefix_rfl⟩
      · intro before i _ hi
        refine hi.imp fun id hid => ?_
        rwa [Func.cells, if_pos h0]
      · intro before i hb hi
        refine hi.imp fun id hid => ?_
        rw [Func.cells, if_pos h0]
        exact hb.subset (cells id hid)
    · rw [Body.opening, if_neg h0] at code ⊢
      refine code.imp ?_ List.nil_prefix
      intro before i _ hi
      refine hi.imp fun id hid => ?_
      rw [Func.cells, if_neg h0, hf]
      exact ⟨entry, there, hn, opens.subset (cells id hid)⟩
  · rw [hs]
    exact laid.ends

end functions

section programs

variable {mode : Arithmetic} {p : Program} {m : Module} {d : FuncDef} {b c : Body}

theorem Body.Starts.empty : (Body.empty 0).Starts [] := ⟨rfl, rfl, rfl⟩

theorem Body.Starts.sound (h : b.Starts is) : b.Sound where
  distinct := by simp [h.blocks]
  counted k hk := by
    rw [h.blocks] at hk
    rw [List.mem_singleton.1 hk]
    exact Nat.zero_le _
  current := ⟨_, h.blocks ▸ List.mem_singleton_self _, h.current.symm⟩

theorem Body.Starts.opened (h : b.Starts is) : b.Open := by
  intro k hk _
  rw [h.blocks] at hk
  rw [List.mem_singleton.1 hk]

/-- The module of a program supplies its functions with what building counts on. -/
structure Supplies (m : Module) (p : Program) : Prop where
  globals : m.globals.map (·.1) = p.vars.map (·.name)
  symbols : m.funcs.map (·.symbol) = Builtin.imports.map (fun i => .outer i.1) ++
    p.funcs.map (fun f => .user f.name) ++ [.outer Builtin.startName]

theorem Supplies.callee (h : Supplies m p) {ctx : Context} {callee : Symbol}
    (hf : ctx.funcs = p.funcs.map (·.name)) (hc : ctx.callee? name = some callee) :
    callee ∈ m.funcs.map (·.symbol) := by
  rw [h.symbols]
  rw [Context.callee?, hf] at hc
  split at hc
  · rename_i mem
    cases hc
    obtain ⟨f, hf, rfl⟩ := List.mem_map.1 (List.contains_iff_mem.1 mem)
    exact List.mem_append_left _ (List.mem_append_right _ (List.mem_map.2 ⟨f, hf, rfl⟩))
  · split at hc
    · rename_i found
      cases hc
      obtain ⟨arity, harity⟩ := Option.isSome_iff_exists.1 found
      refine List.mem_append_left _ (List.mem_append_left _ (List.mem_map.2 ?_))
      exact ⟨(name, arity), (lookup_eq_some_iff_mem (by decide)).1 harity, rfl⟩
    · cases hc

theorem Supplies.supplied (h : Supplies m p) (f : Func) (hs : ∀ slot ∈ slots, made slot.2)
    (hid : ∀ id ∈ scratch, made id) :
    Supplied { contextOf mode p with slots, scratch } (f.supply m) made where
  globals x hx := by
    rw [Func.supply, h.globals]
    exact hx
  callees name callee found := h.callee rfl found
  slots x id hx := by
    obtain ⟨before, after, heq, -⟩ := List.lookup_eq_some_iff.1 hx
    refine hs (x, id) ?_
    change slots = _ at heq
    rw [heq]
    exact List.mem_append_right _ List.mem_cons_self
  scratch := hid

theorem paramOperands_known (s : Supply) (ps : List Param) (hs : s.params = ps.length) :
    ∀ entry ∈ paramOperands 0 ps, entry.2.Known s [] := by
  intro entry mem
  obtain ⟨⟨a, i⟩, ha, rfl⟩ := List.mem_map.1 mem
  have bound := (List.mem_zipIdx ha).2.1
  rw [Nat.zero_add, ← hs] at bound
  exact bound

theorem function_wellFormed (hm : Supplies m p) (built : Built mode p d c) :
    (funcOf d c).WellFormed m := by
  obtain ⟨params, b₁, locals, b₂, b₃, hparams, hlocals, hbody, rfl⟩ := funcBody_ok built
  rw [paramSlots_eq 0 d.params (by omega)] at hparams
  rw [localSlots_eq] at hlocals
  -- The entry makes the cells, first of the parameters and then of the variables.
  obtain ⟨is, start₁, known₁, cells₁⟩ := newSlots_starts (s := (funcOf d b₃).supply m) hparams .empty
    (paramOperands_known _ d.params (List.length_map _))
  obtain ⟨js, start₂, known₂, cells₂⟩ := newSlots_starts hlocals start₁ (s := (funcOf d b₃).supply m) (by
    intro entry mem
    obtain ⟨v, -, rfl⟩ := List.mem_map.1 mem
    trivial)
  have made : ∀ slot ∈ (params ++ locals).reverse, Inst.alloca slot.2 ∈ [] ++ is ++ js := by
    intro slot hs
    rcases List.mem_append.1 (List.mem_reverse.1 hs) with hs | hs
    · exact List.mem_append_left _ (cells₁ slot hs)
    · exact List.mem_append_right _ (cells₂ slot hs)
  have supplied : Supplied { contextOf mode p with slots := (params ++ locals).reverse }
      ((funcOf d b₃).supply m) fun id => .alloca id ∈ [] ++ is ++ js := hm.supplied _ made nofun
  have builds := stmts_build hbody start₂.sound start₂.opened
  have woven := (stmts_woven d.body hbody start₂.sound start₂.opened).weaves.trans
    (.settle builds.sound (.ret (some (.ofInt (defaultValue d.returns))))) (.settle _ _ _)
    builds.sound
  have laid := stmts_laid supplied d.body hbody start₂.laid
  refine wellFormed_of_body rfl rfl start₂ (knownFrom_append.2 ⟨known₁, known₂⟩) (fun _ hid => hid)
    ?_ (builds.sound.settle _) (builds.sound.settle_ended _) ?_
  · simpa [Terminator.targets] using woven
  · rw [Body.settle]
    split
    · refine laid.close fun _ _ _ u hu => ?_
      cases hu
      trivial
    · exact laid

/-- The code of the top level starts with a cell for the value of its last statement. -/
def startSetup : List Inst := [.alloca 0, .store (.ofInt 0) (.slot 0)]

theorem start_starts :
    (((Body.empty 0).give .alloca).append (.store (.ofInt 0) (.slot 0))).Starts startSetup :=
  (Body.Starts.empty.give .alloca).append _

theorem start_wellFormed (hw : Rules.WellTyped p) (hm : Supplies m p)
    (h : startBody (contextOf mode p) p.stmts (Body.empty 0) = .ok ((), c)) :
    (startOf p.stmts c).WellFormed m := by
  obtain ⟨d, hd, rfl⟩ := startBody_ok h
  have start := start_starts
  have opened := stmts_stay_open hw.stmts hd start.sound start.opened
  have builds := stmts_build hd start.sound start.opened
  have woven := (stmts_woven p.stmts hd start.sound start.opened).weaves
  -- After the statements instructions may be added, and then the function is left.
  have finish : ∀ {f : Func} {e t}, f.blocks = (Body.close e t).blocks → Lengthens d e →
      t.targets = [] → e.Laid (f.supply m) (fun id => .alloca id ∈ startSetup) startSetup →
      (e.Here fun is => t.Known (f.supply m) is) → f.WellFormed m := by
    intro f e t hf longer ht laid known
    have whole := (woven.trans (.lengthens builds.sound longer) (longer.grows opened)
      builds.sound).trans (.close (longer.sound builds.sound) (longer.opened opened) t)
      (.close (longer.opened opened) t) (longer.sound builds.sound)
    rw [ht] at whole
    exact wellFormed_of_body hf rfl start ⟨trivial, ⟨trivial, List.mem_singleton_self _⟩, trivial⟩
      (fun _ hid => hid) whole ((longer.sound builds.sound).close t) (.close e t)
      (laid.close known)
  have laid : ∀ f : Func,
      d.Laid (f.supply m) (fun id => .alloca id ∈ startSetup) startSetup := by
    intro f
    refine stmts_laid (hm.supplied f nofun ?_) p.stmts hd start.laid
    rintro _ ⟨⟩
    exact List.mem_cons_self
  by_cases shown : hasResult p.stmts = true
  · rw [if_pos shown]
    refine finish rfl (.give _ _) rfl ((laid _).give fun _ _ _ => List.mem_cons_self) ?_
    intro k hk hn u hu
    cases hu
    exact given_known rfl k hk hn
  · rw [if_neg shown]
    exact finish rfl (.refl d) rfl (laid _) fun _ _ _ => nofun

theorem funcBody_once (ctx : Context) (d : FuncDef) :
    funcBodyOnce ctx d.params.length d (Body.empty 0) =
      funcBody ctx d.params.length d (Body.empty 0) := by
  refine build_bind_congr fun params b₁ hparams => ?_
  refine build_bind_congr fun locals b₂ hlocals => ?_
  have longer := function_lengthens hparams hlocals
  refine (build_bind_left (stmts_once d.body (longer.sound (.empty 0)) (longer.opened (.empty 0)))
    _).trans ?_
  refine build_bind_congr fun _ b₃ _ => ?_
  rw [build_bind_run (isOpen_run b₃), build_bind_run (isOpen_run b₃)]
  cases hopen : b₃.isOpen with
  | false => rfl
  | true => exact endOnce_run _ (Body.isOpen_iff.1 hopen)

theorem startBody_once (hw : Rules.WellTyped p) (ctx : Context) :
    startBodyOnce ctx p.stmts (Body.empty 0) = startBody ctx p.stmts (Body.empty 0) := by
  rw [startBodyOnce, startBody, build_bind_run (newSlot_run _ _), build_bind_run (newSlot_run _ _)]
  have start := start_starts
  refine (build_bind_left (stmts_once p.stmts start.sound start.opened) _).trans ?_
  refine build_bind_congr fun _ d hd => ?_
  have opened := stmts_stay_open hw.stmts hd start.sound start.opened
  split
  · rw [build_bind_run (emitResult_run d _)]
    exact endOnce_run _ ((Lengthens.give d _).opened opened)
  · exact endOnce_run _ opened

theorem signatures_zipWith (h : List.Forall₂ (Built mode p) fs bs) :
    (List.zipWith funcOf fs bs).map (fun f => (f.symbol, f.params)) =
      fs.map fun d => (.user d.name, d.params.map (·.name)) := by
  induction h with
  | nil => rfl
  | cons _ _ ih => rw [List.zipWith_cons_cons, List.map_cons, ih]; rfl

theorem mem_built (h : List.Forall₂ (Built mode p) fs bs) (hf : f ∈ List.zipWith funcOf fs bs) :
    ∃ d body, Built mode p d body ∧ f = funcOf d body := by
  induction h with
  | nil => cases hf
  | cons head _ ih =>
    rcases List.mem_cons.1 hf with rfl | hf
    · exact ⟨_, _, head, rfl⟩
    · exact ih hf

end programs

end BlockGraph

open BlockGraph

/-- The control-flow graphs of a checked program are well formed: of each function that has a body,
and of the module as a whole. They are built without ending a block twice. -/
theorem checked_graph_wellFormed (p t : Program) (mode : Arithmetic) (hk : p.Known)
    (h : p.check = .ok t) :
    ∃ g fs, t.toBlockGraph mode = .ok g ∧ g.funcs = hostFuncs ++ fs ∧
      fs.map (fun f => (f.symbol, f.params)) =
        t.funcs.map (fun d => (.user d.name, d.params.map (·.name))) ++
          [(.outer Builtin.startName, [])] ∧
      (∀ f ∈ fs, f.WellFormed g) ∧ g.names.Nodup ∧
      (∀ d ∈ t.funcs, ∃ body, funcOf d body ∈ fs ∧
        funcBodyOnce (contextOf mode t) d.params.length d (Body.empty 0) = .ok ((), body)) ∧
      ∃ body, startOf t.stmts body ∈ fs ∧
        startBodyOnce (contextOf mode t) t.stmts (Body.empty 0) = .ok ((), body) := by
  have checked := Rules.check_sound hk h
  have typed := checked.after
  obtain ⟨g, hg⟩ := toBlockGraph_succeeds mode typed checked.annotated
  obtain ⟨bs, start, built, hstart, rfl⟩ := toBlockGraph_ok typed.funcNames hg
  have signatures := signatures_zipWith built
  have symbols : (List.zipWith funcOf t.funcs bs).map (·.symbol) =
      t.funcs.map fun d => .user d.name := by
    have names := congrArg (List.map Prod.fst) signatures
    simpa [Function.comp_def] using names
  have supplies : Supplies ⟨t.vars.map fun v => (v.name, BitVec.ofInt 32 v.init.encode),
      hostFuncs ++ List.zipWith funcOf t.funcs bs ++ [startOf t.stmts start]⟩ t := by
    constructor
    · simp
    · rw [List.map_append, List.map_append, symbols]
      rfl
  refine ⟨_, List.zipWith funcOf t.funcs bs ++ [startOf t.stmts start], hg, List.append_assoc _ _ _,
    ?_, ?_, names_nodup typed supplies.symbols supplies.globals, ?_, start, ?_, ?_⟩
  · rw [List.map_append, signatures]
    rfl
  · intro f hf
    rcases List.mem_append.1 hf with hf | hf
    · obtain ⟨d, body, own, rfl⟩ := mem_built built hf
      exact function_wellFormed supplies own
    · rw [List.mem_singleton.1 hf]
      exact start_wellFormed typed supplies hstart
  · intro d hd
    obtain ⟨body, own, mem⟩ := funcOf_mem built hd
    exact ⟨body, List.mem_append_left _ mem, (funcBody_once _ d).trans own⟩
  · exact List.mem_append_right _ (List.mem_singleton_self _)
  · exact (startBody_once typed _).trans hstart

theorem not_isBlockName_n : ¬ IsBlockName "n" := by
  rintro (h | ⟨k, -, h⟩)
  · exact absurd h (by decide)
  · have lengths := congrArg String.length h
    rw [String.length_append] at lengths
    exact absurd lengths (by have : "bb.".length = 3 := rfl; have : "n".length = 1 := rfl; omega)

/-- The factorial's blocks do not take its parameter's name. -/
theorem factorial_graph_wellFormed :
    ∃ t g fs, factorial.Known ∧ factorial.check = .ok t ∧ t.toBlockGraph .signed = .ok g ∧
      g.funcs = hostFuncs ++ fs ∧ fs.length = 2 ∧ g.names.Nodup ∧
      ∀ f ∈ fs, f.WellFormed g ∧ ∀ k ∈ f.blocks, blockName k.number ∉ f.params := by
  obtain ⟨g, fs, hg, hfs, signatures, formed, distinct, -⟩ :=
    checked_graph_wellFormed factorial _ .signed factorial_known rfl
  refine ⟨_, g, fs, factorial_known, rfl, hg, hfs, ?_, distinct, fun f hf => ⟨formed f hf, ?_⟩⟩
  · simpa using congrArg List.length signatures
  · have mem := List.mem_map_of_mem (f := fun f => (f.symbol, f.params)) hf
    rw [signatures] at mem
    refine (formed f hf).params fun x hx => ?_
    rcases List.mem_cons.1 mem with own | own
    · cases (Prod.mk.inj own).2 ▸ hx with
      | head => exact not_isBlockName_n
      | tail _ none => cases none
    · cases (Prod.mk.inj (List.mem_singleton.1 own)).2 ▸ hx

/-- A parameter named like the entry block. No source can spell the name. -/
def blockNamed : Program :=
  let s : Span := default
  { vars := []
    funcs := [{
      span := s, name := "f", params := [⟨s, "bb.entry", some .int⟩], returns := some .int
      locals := [], body := [.ret s (.name s none "bb.entry" .unresolved)] }]
    stmts := [] }

/-- The parameter and the block share a name. -/
theorem blockNamed_clashes :
    ∃ t g, blockNamed.Known ∧ blockNamed.check = .ok t ∧ t.toBlockGraph .signed = .ok g ∧
      ∃ f ∈ g.funcs, ∃ k ∈ f.blocks, blockName k.number ∈ f.params := by
  refine ⟨_, _, ?_, rfl, rfl, ?_⟩
  · constructor
    · nofun
    · intro f hf
      cases List.mem_singleton.1 hf
      constructor <;> simp [Stmt.AllIn, Stmt.All, Stmt.KnownNode, Expr.All, Expr.KnownNode]
    · trivial
  · exact ⟨_, List.mem_append_left _ (List.mem_append_right _ List.mem_cons_self), _,
      List.mem_cons_self, List.mem_cons_self⟩

end WordScript
