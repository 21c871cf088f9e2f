import WordScript.Proofs.GraphBuilding
import WordScript.Proofs.Storage

/-! What the graphs of a program consist of.

A function makes a cell for each parameter and each variable and goes on with its statements; the
start does so with one cell for the value of the last statement. The names of functions are
distinct, so each function of a program has the one body that was built for it. -/
namespace WordScript
namespace BlockGraph

variable {slots : List (String × Nat)}

def newSlots : List (String × Operand) → Build (List (String × Nat))
  | [] => return []
  | (x, v) :: rest => do
    let id ← newSlot v
    return (x, id) :: (← newSlots rest)

theorem localSlots_eq (vs : List VarDecl) :
    localSlots vs = newSlots (vs.map fun v => (v.name, .ofInt v.init.encode)) := by
  induction vs with
  | nil => rfl
  | cons v rest ih => rw [localSlots, List.map_cons, newSlots, ih]

/-- The parameters of a function as operands, counted from `i` on. -/
def paramOperands (i : Nat) (ps : List Param) : List (String × Operand) :=
  (ps.zipIdx i).map fun q => (q.1.name, .param q.2)

theorem paramSlots_eq (i : Nat) (ps : List Param) (h : i + ps.length ≤ count) :
    paramSlots count i ps = newSlots (paramOperands i ps) := by
  induction ps generalizing i with
  | nil => rfl
  | cons a rest ih =>
    rw [List.length_cons] at h
    have within : ¬ count ≤ i := by omega
    rw [paramSlots, paramOperands, List.zipIdx_cons, List.map_cons, newSlots, if_neg within,
      ih (i + 1) (by omega), paramOperands]

theorem newSlots_cons_ok (h : newSlots ((x, v) :: rest) b = .ok (slots, c)) :
    ∃ slots', newSlots rest ((b.give .alloca).append (.store v (.slot b.results))) =
      .ok (slots', c) ∧ slots = (x, b.results) :: slots' := by
  rw [newSlots, build_bind_run (newSlot_run b v)] at h
  obtain ⟨slots', c', hrest, h⟩ := build_bind_ok.1 h
  cases h
  exact ⟨slots', hrest, rfl⟩

theorem newSlots_lengthens (h : newSlots entries b = .ok (slots, c)) : Lengthens b c := by
  induction entries generalizing b slots with
  | nil =>
    cases h
    exact .refl _
  | cons entry rest ih =>
    obtain ⟨slots', hrest, -⟩ := newSlots_cons_ok h
    exact ((Lengthens.give _ _).trans (.append _ _)).trans (ih hrest)

theorem Body.Sound.empty (results : Nat) : (Body.empty results).Sound where
  distinct := List.nodup_singleton _
  counted k hk := by
    rw [List.mem_singleton.1 hk]
    exact Nat.le_refl _
  current := ⟨_, List.mem_singleton_self _, rfl⟩

theorem Body.Open.empty (results : Nat) : (Body.empty results).Open := by
  intro k hk _
  rw [List.mem_singleton.1 hk]

section bodies

variable {d : FuncDef} {ctx : Context} {ss : List Stmt} {b b₁ b₂ c : Body} {count : Nat}
  {params locals : List (String × Nat)}

theorem function_lengthens (hp : paramSlots d.params.length 0 d.params b = .ok (params, b₁))
    (hv : localSlots d.locals b₁ = .ok (locals, b₂)) : Lengthens b b₂ := by
  rw [paramSlots_eq 0 d.params (by omega)] at hp
  rw [localSlots_eq] at hv
  exact (newSlots_lengthens hp).trans (newSlots_lengthens hv)

theorem funcBody_ok (h : funcBody ctx count d b = .ok ((), c)) :
    ∃ params b₁ locals b₂ b₃, paramSlots count 0 d.params b = .ok (params, b₁) ∧
      localSlots d.locals b₁ = .ok (locals, b₂) ∧
      stmts { ctx with slots := (params ++ locals).reverse } d.body b₂ = .ok ((), b₃) ∧
      c = b₃.settle (.ret (some (.ofInt (defaultValue d.returns)))) := by
  obtain ⟨params, b₁, hparams, h⟩ := build_bind_ok.1 h
  obtain ⟨locals, b₂, hlocals, h⟩ := build_bind_ok.1 h
  obtain ⟨_, b₃, hbody, h⟩ := build_bind_ok.1 h
  rw [build_bind_run (isOpen_run _)] at h
  refine ⟨params, b₁, locals, b₂, b₃, hparams, hlocals, ?_, ?_⟩
  · rw [List.reverse_append]
    exact hbody
  · rw [Body.settle]
    split at h <;> rename_i hopen <;> cases h
    · rw [if_pos hopen]
      rfl
    · rw [if_neg hopen]

theorem startBody_ok (h : startBody ctx ss b = .ok ((), c)) :
    ∃ d, stmts { ctx with scratch := some b.results } ss
        ((b.give .alloca).append (.store (.ofInt 0) (.slot b.results))) = .ok ((), d) ∧
      c = if hasResult ss then
          (d.give fun id => .load id (.slot b.results)).close (.ret (some (.result d.results)))
        else d.close (.ret none) := by
  rw [startBody, build_bind_run (newSlot_run b _)] at h
  obtain ⟨_, d, hstmts, h⟩ := build_bind_ok.1 h
  refine ⟨d, hstmts, ?_⟩
  split at h <;> rename_i shown
  · rw [if_pos shown]
    cases h
    rfl
  · rw [if_neg shown]
    cases h
    rfl

end bodies

/-- The function of a definition whose body is built. -/
def funcOf (d : FuncDef) (body : Body) : Func :=
  ⟨.user d.name, d.params.map (·.name), true, body.blocks⟩

def startOf (ss : List Stmt) (body : Body) : Func :=
  ⟨.outer Builtin.startName, [], hasResult ss, body.blocks⟩

def Built (mode : Arithmetic) (p : Program) (d : FuncDef) (body : Body) : Prop :=
  funcBody (contextOf mode p) d.params.length d (Body.empty 0) = .ok ((), body)

theorem run_of_build (h : build results x = .ok body) :
    x (Body.empty results) = .ok ((), body) := by
  obtain ⟨⟨⟨⟩, body'⟩, run, h⟩ := bind_eq_ok.1 h
  cases h
  exact run

section modules

variable {mode : Arithmetic} {p : Program} {ctx : Context} {fs all : List FuncDef}
  {done made : List (String × Body)} {bs : List Body}

theorem resultsOf_new (h : name ∉ done.map (·.1)) : resultsOf name done = 0 := by
  have none : done.filter (·.1 = name) = [] := by
    rw [List.filter_eq_nil_iff]
    intro entry mem same
    exact h (of_decide_eq_true same ▸ List.mem_map_of_mem mem)
  rw [resultsOf, none]
  rfl

theorem bodies_built (h : bodies (contextOf mode p) all done fs = .ok made)
    (hn : (done.map (·.1) ++ fs.map (·.name)).Nodup)
    (hp : ∀ f ∈ fs, declaredParams all f.name = f.params) :
    ∃ bs, List.Forall₂ (Built mode p) fs bs ∧ made = done ++ (fs.map (·.name)).zip bs := by
  induction fs generalizing done with
  | nil =>
    cases h
    exact ⟨[], .nil, (List.append_nil _).symm⟩
  | cons f rest ih =>
    obtain ⟨hf, hrest⟩ := List.forall_mem_cons.1 hp
    obtain ⟨body, hb, h⟩ := bind_eq_ok.1 h
    have new : f.name ∉ done.map (·.1) := fun mem =>
      List.disjoint_of_nodup_append hn mem List.mem_cons_self
    rw [resultsOf_new new, hf] at hb
    have names : ((done ++ [(f.name, body)]).map (·.1) ++ rest.map (·.name)).Nodup := by
      rw [List.map_append, List.append_assoc]
      exact hn
    obtain ⟨bs, built, rfl⟩ := ih h names hrest
    refine ⟨body :: bs, .cons (run_of_build hb) built, ?_⟩
    rw [List.append_assoc]
    rfl

theorem assemble_eq (hn : (fs.map (·.name)).Nodup) (hl : fs.length = bs.length)
    (hd : ∀ entry ∈ (fs.map (·.name)).zip bs, done.filter (·.1 = entry.1) = [entry]) :
    assemble done fs = List.zipWith funcOf fs bs := by
  induction fs generalizing bs with
  | nil => rfl
  | cons f rest ih =>
    cases bs with
    | nil => cases hl
    | cons body bs =>
      obtain ⟨new, hn⟩ := List.nodup_cons.1 hn
      obtain ⟨here, later⟩ := List.forall_mem_cons.1 hd
      have last : rest.any (·.name = f.name) = false := by
        rw [List.any_eq_false]
        intro g hg same
        exact new (List.mem_map.2 ⟨g, hg, of_decide_eq_true same⟩)
      rw [assemble, ih hn (Nat.succ.inj hl) later, last, here]
      simp [funcOf]

theorem toBlockGraph_ok (hn : (p.funcs.map (·.name)).Nodup) (h : p.toBlockGraph mode = .ok g) :
    ∃ bs start, List.Forall₂ (Built mode p) p.funcs bs ∧
      startBody (contextOf mode p) p.stmts (Body.empty 0) = .ok ((), start) ∧
      g = ⟨p.vars.map fun v => (v.name, BitVec.ofInt 32 v.init.encode),
        hostFuncs ++ List.zipWith funcOf p.funcs bs ++ [startOf p.stmts start]⟩ := by
  obtain ⟨made, hm, h⟩ := bind_eq_ok.1 h
  obtain ⟨start, hs, h⟩ := bind_eq_ok.1 h
  obtain ⟨bs, built, rfl⟩ := bodies_built hm hn fun f hf => declaredParams_eq hn hf
  refine ⟨bs, start, built, run_of_build hs, ?_⟩
  have lengths := built.length_eq
  have keys : ((p.funcs.map (·.name)).zip bs).map (·.1) = p.funcs.map (·.name) :=
    List.map_fst_zip (by rw [List.length_map]; omega)
  have own : ∀ entry ∈ (p.funcs.map (·.name)).zip bs,
      ((p.funcs.map (·.name)).zip bs).filter (·.1 = entry.1) = [entry] :=
    fun entry mem => filter_key_eq (keys.symm ▸ hn) mem
  cases h
  rw [List.nil_append, assemble_eq hn lengths own]
  rfl

theorem funcOf_mem (built : List.Forall₂ (Built mode p) fs bs) (mem : d ∈ fs) :
    ∃ body, Built mode p d body ∧ funcOf d body ∈ List.zipWith funcOf fs bs := by
  induction built with
  | nil => cases mem
  | cons head tail ih =>
    rcases List.mem_cons.1 mem with rfl | mem
    · exact ⟨_, head, List.mem_cons_self⟩
    · obtain ⟨body, own, later⟩ := ih mem
      exact ⟨body, own, List.mem_cons_of_mem _ later⟩

end modules

end BlockGraph
end WordScript
