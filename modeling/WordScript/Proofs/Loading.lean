import WordScript.Proofs.ModuleText

/-! Loading and linking the text of a module. -/
namespace WordScript
namespace StackCode

open Machine

variable {gs : List (String × Int)} {m : Module Instr} {start : Func Instr}

def Func.loadedName {β : Type} (f : Func β) : Bytes := if f.name = "" then [] else key f.name

/-- The names that a function is exported under. -/
def Func.exports {β : Type} (f : Func β) : List Bytes :=
  if f.exportName = "" then [] else [Utf8.encode f.exportName]

/-- The function that is loaded for a function of a module. -/
def loaded {σ : Type} (f : Func Instr) : Machine.Func σ where
  name := f.loadedName
  params := f.params.map key
  result := f.result
  code := .defined (f.locals.map key) (Instr.sexprs f.body)

theorem ofName?_head (i : Instr) : ∃ op, Op.ofName? i.sexpr.head = some op := by
  cases i with
  | op o => exact ⟨_, ofName?_op o⟩
  | get p x => cases p <;> exact ⟨_, rfl⟩
  | set p x => cases p <;> exact ⟨_, rfl⟩
  | _ => exact ⟨_, rfl⟩

section forms

variable (taken : List Bytes) (d : Draft) (rest : List Sexpr)

theorem funcForms_param (x : String) :
    funcForms taken d (slotForm "param" x :: rest) =
      funcForms taken { d with params := d.params ++ [key x] } rest := rfl

theorem funcForms_local (x : String) :
    funcForms taken d (slotForm "local" x :: rest) =
      funcForms taken { d with locals := d.locals ++ [key x] } rest := rfl

theorem funcForms_params (xs : List String) :
    funcForms taken d (xs.map (slotForm "param") ++ rest) =
      funcForms taken { d with params := d.params ++ xs.map key } rest := by
  induction xs generalizing d with
  | nil => simp
  | cons x xs ih => simp [funcForms_param, ih]

theorem funcForms_locals (xs : List String) :
    funcForms taken d (xs.map (slotForm "local") ++ rest) =
      funcForms taken { d with locals := d.locals ++ xs.map key } rest := by
  induction xs generalizing d with
  | nil => simp
  | cons x xs ih => simp [funcForms_local, ih]

theorem funcForms_result (h : d.result = false) :
    funcForms taken d (form "result" [wordType] :: rest) =
      funcForms taken { d with result := true } rest := by
  obtain ⟨name, params, result, locals, exports⟩ := d
  cases h
  rfl

theorem funcForms_name (x : String) (h : d.name = []) :
    funcForms taken d (.atom (key x) :: rest) = funcForms taken { d with name := key x } rest := by
  obtain ⟨name, params, result, locals, exports⟩ := d
  cases h
  rfl

theorem funcForms_export (ht : stringOf (quote text) = .ok (Utf8.encode text))
    (hn : Utf8.encode text ∉ taken ++ d.exports) :
    funcForms taken d (form "export" [quote text] :: rest) =
      funcForms taken { d with exports := d.exports ++ [Utf8.encode text] } rest := by
  have form : signatureForm taken false d (form "export" [quote text]) =
      .ok { d with exports := d.exports ++ [Utf8.encode text] } := by
    change (stringOf (quote text) >>= fun name => _) = _
    rw [ht]
    exact if_neg (by simpa using hn)
  change (signatureForm taken false d _ >>= fun d => funcForms taken d rest) = _
  rw [form]
  rfl

theorem funcForms_body (body : List Instr) :
    funcForms taken d (Instr.sexprs body) = .ok (d, Instr.sexprs body) := by
  cases body with
  | nil => rfl
  | cons i is =>
    obtain ⟨op, hop⟩ := ofName?_head i
    have other : ∀ word, Op.ofName? (keyword word) = none →
        (i.sexpr.head == keyword word) = false := by
      intro word hw
      refine beq_eq_false_iff_ne.2 fun heq => ?_
      rw [heq, hw] at hop
      cases hop
    have named : i.sexpr.isName = false := by
      cases i <;> rfl
    have signature : [keyword "param", keyword "result", keyword "export"].contains i.sexpr.head =
        false := by
      simp only [List.contains_cons, List.contains_nil, other "param" (by decide),
        other "result" (by decide), other "export" (by decide), Bool.or_false]
    rw [Instr.sexprs, funcForms, other "local" (by decide), signature, named]
    rfl

/-- Exports of a function that can be added to those already taken. -/
def Exportable (taken : List Bytes) (f : Func Instr) : Prop :=
  f.exportName ≠ "" → stringOf (quote f.exportName) = .ok (Utf8.encode f.exportName) ∧
    Utf8.encode f.exportName ∉ taken

theorem funcForms_signature (h : Exportable taken f) :
    funcForms taken .empty (signatureForms f ++ rest) =
      funcForms taken ⟨f.loadedName, f.params.map key, f.result, f.locals.map key, f.exports⟩
        rest := by
  have name : ∀ items, funcForms taken .empty
      ((if f.name = "" then [] else [.atom (key f.name)]) ++ items) =
        funcForms taken { Draft.empty with name := f.loadedName } items := by
    intro items
    rw [Func.loadedName]
    split
    · rfl
    · exact funcForms_name taken .empty items f.name rfl
  have exported : ∀ items, funcForms taken { Draft.empty with name := f.loadedName }
      ((if f.exportName = "" then [] else [form "export" [quote f.exportName]]) ++ items) =
        funcForms taken { Draft.empty with name := f.loadedName, exports := f.exports } items := by
    intro items
    rw [Func.exports]
    split
    · rfl
    · rename_i hne
      exact funcForms_export taken _ items (h hne).1 (by simpa [Draft.empty] using (h hne).2)
  have result : ∀ (d : Draft) items, d.result = false →
      funcForms taken d ((if f.result then [form "result" [wordType]] else []) ++ items) =
        funcForms taken { d with result := f.result } items := by
    intro d items hd
    cases hr : f.result with
    | true => exact funcForms_result taken d items hd
    | false =>
      obtain ⟨name, params, result, locals, exports⟩ := d
      cases hd
      rfl
  simp only [signatureForms, List.append_assoc, name, exported, funcForms_params]
  rw [result _ _ rfl, funcForms_locals]
  rfl

theorem addDefined_eq {m : Image} (hn : f.name ≠ "" → ∀ g ∈ m.funcs, g.name ≠ key f.name)
    (hx : Exportable m.exportNames f) :
    m.addDefined (funcForm f) = .ok { m with
      funcs := m.funcs ++ [loaded f]
      exports := m.exports ++ f.exports.map fun n => (n, loaded f) } := by
  have fresh : (!f.loadedName.isEmpty && m.funcs.any (·.name == f.loadedName)) = false := by
    by_cases he : f.name = ""
    · simp [Func.loadedName, he]
    · simp only [Func.loadedName, if_neg he]
      simpa [key] using hn he
  change (funcForms m.exportNames .empty (signatureForms f ++ Instr.sexprs f.body) >>= _) = _
  rw [funcForms_signature _ _ hx, funcForms_body]
  change (if _ then _ else _) = _
  rw [fresh]
  rfl

end forms

def loadedImport (i : String × Nat) : Machine.Func Import where
  name := key i.1
  params := List.replicate i.2 []
  result := true
  code := .imported ⟨Utf8.encode Builtin.source, Utf8.encode i.1⟩

def loadedGlobal (g : String × Int) : Global := ⟨key g.1, true, BitVec.ofInt 32 g.2⟩

theorem addFields_append (m : Image) (xs ys : List Sexpr) :
    m.addFields (xs ++ ys) = m.addFields xs >>= fun m => m.addFields ys := by
  induction xs generalizing m with
  | nil => rfl
  | cons x xs ih =>
    rw [List.cons_append, Image.addFields, Image.addFields]
    cases m.addField x with
    | error e => rfl
    | ok m' => exact ih m'

theorem addFields_imports : Image.empty.addFields (Builtin.imports.map importForm) =
    .ok ⟨Builtin.imports.map loadedImport, [], []⟩ := rfl

theorem addFields_globals (m : Image) (h : ∀ g ∈ gs, -2147483648 ≤ g.2 ∧ g.2 < 4294967296) :
    m.addFields (gs.map globalForm) =
      .ok { m with globals := m.globals ++ gs.map loadedGlobal } := by
  induction gs generalizing m with
  | nil => simp [Image.addFields]
  | cons g gs ih =>
    have first : m.addField (globalForm g) =
        .ok { m with globals := m.globals ++ [loadedGlobal g] } := by
      have field : m.addField (globalForm g) = m.addGlobal (globalForm g) := rfl
      have value := constant?_toString (h g List.mem_cons_self)
      rw [field]
      simp only [Image.addGlobal, globalForm, Sexpr.operands, Sexpr.items, form, List.tail_cons,
        Sexpr.text, value]
      rfl
    rw [List.map_cons, Image.addFields, first]
    change Image.addFields _ _ = _
    rw [ih _ fun g hg => h g (List.mem_cons_of_mem _ hg)]
    simp

theorem addFields_globals_range {m : Image} (h : m.addFields (gs.map globalForm ++ rest) = .ok m') :
    ∀ g ∈ gs, -2147483648 ≤ g.2 ∧ g.2 < 4294967296 := by
  induction gs generalizing m with
  | nil => nofun
  | cons g gs ih =>
    rw [List.map_cons, List.cons_append, Image.addFields] at h
    cases first : m.addField (globalForm g) with
    | error e =>
      rw [first] at h
      cases h
    | ok m₁ =>
      rw [first] at h
      refine List.forall_mem_cons.2 ⟨?_, ih h⟩
      by_contra outside
      have field : m.addField (globalForm g) = m.addGlobal (globalForm g) := rfl
      have value : constant? (Utf8.encode (toString g.2)) = none := by
        rw [constant?_toString_eq, if_neg outside]
      rw [field] at first
      simp only [Image.addGlobal, globalForm, Sexpr.operands, Sexpr.items, form, List.tail_cons,
        Sexpr.text, value] at first
      cases first

theorem addFields_funcs (m : Image) {fs : List (Func Instr)}
    (hx : ∀ f ∈ fs, f.exportName = "") (hd : (fs.map (·.name)).Nodup)
    (hm : ∀ f ∈ fs, f.name ≠ "" → ∀ g ∈ m.funcs, g.name ≠ key f.name) :
    m.addFields (fs.map funcForm) = .ok { m with funcs := m.funcs ++ fs.map loaded } := by
  induction fs generalizing m with
  | nil => simp [Image.addFields]
  | cons f fs ih =>
    have exported := hx f List.mem_cons_self
    have exports : f.exports = [] := by simp [Func.exports, exported]
    have first : m.addField (funcForm f) = .ok { m with funcs := m.funcs ++ [loaded f] } := by
      have field : m.addField (funcForm f) = m.addDefined (funcForm f) := rfl
      rw [field, addDefined_eq (hm f List.mem_cons_self) (fun h => absurd exported h), exports]
      simp
    obtain ⟨fresh, others⟩ := List.nodup_cons.1 hd
    rw [List.map_cons, Image.addFields, first]
    change Image.addFields _ _ = _
    rw [ih _ (fun f hf => hx f (List.mem_cons_of_mem _ hf)) others]
    · simp
    · -- A function that follows has neither an earlier name nor that of the first one.
      intro f' hf' named g hg
      rcases List.mem_append.1 hg with hg | hg
      · exact hm f' (List.mem_cons_of_mem _ hf') named g hg
      · obtain rfl := List.mem_singleton.1 hg
        rw [loaded, Func.loadedName]
        split
        · exact (List.cons_ne_nil _ _).symm
        · rw [ne_eq, key_inj]
          exact fun heq => fresh (List.mem_map.2 ⟨f', hf', heq.symm⟩)

/-- Modules whose text can be read, with the function that runs the top level. A function may have
the empty name. -/
structure Module.Legible (m : Module Instr) (start : Func Instr) : Prop where
  starts : m.start = some start
  globals : ∀ g ∈ m.globals, IsName g.1
  globalNames : (m.globals.map (·.1)).Nodup
  readable : ∀ f ∈ m.funcs, f.Readable
  unexported : ∀ f ∈ m.funcs, f.exportName = ""
  funcNames : (Builtin.imports.map (·.1) ++ m.funcs.map (·.name)).Nodup
  entry : start.Readable
  entryName : start.name = ""
  entryExport : start.exportName = Builtin.startName

/-- Modules whose text can be loaded, with the function that runs the top level. -/
structure Module.Loadable (m : Module Instr) (start : Func Instr) : Prop where
  starts : m.start = some start
  globals : ∀ g ∈ m.globals, IsName g.1 ∧ -2147483648 ≤ g.2 ∧ g.2 < 4294967296
  globalNames : (m.globals.map (·.1)).Nodup
  readable : ∀ f ∈ m.funcs, f.Readable
  named : ∀ f ∈ m.funcs, f.name ≠ "" ∧ f.exportName = ""
  funcNames : (Builtin.imports.map (·.1) ++ m.funcs.map (·.name)).Nodup
  entry : start.Readable
  entryName : start.name = ""
  entryExport : start.exportName = Builtin.startName

theorem Module.Loadable.legible (h : m.Loadable start) : m.Legible start where
  starts := h.starts
  globals g hg := (h.globals g hg).1
  globalNames := h.globalNames
  readable := h.readable
  unexported f hf := (h.named f hf).2
  funcNames := h.funcNames
  entry := h.entry
  entryName := h.entryName
  entryExport := h.entryExport

/-- The image that the text of a module is loaded as. -/
def imageOf (m : Module Instr) (start : Func Instr) : Image where
  funcs := Builtin.imports.map loadedImport ++ m.funcs.map loaded ++ [loaded start]
  globals := m.globals.map loadedGlobal
  exports := [(Utf8.encode Builtin.startName, loaded start)]

section legible

variable {m : Module Instr} {start : Func Instr}

theorem load_fields (h : m.Legible start) :
    Image.load (Utf8.encode m.render) =
      Image.addFields ⟨Builtin.imports.map loadedImport, [], []⟩ (m.globals.map globalForm) >>=
        fun image => image.addFields (m.funcs.map funcForm) >>=
          fun image => image.addFields [funcForm start] := by
  have text := render_spells h.globals h.readable (by
    intro f hf
    rw [h.starts] at hf
    cases hf
    exact h.entry)
  rw [Image.load, text]
  change Image.addFields _ (_ ++ _ ++ _ ++ _) = _
  rw [List.append_assoc, List.append_assoc, addFields_append, h.starts]
  change Image.addFields _ (_ ++ (_ ++ _)) = _
  rw [addFields_append]
  refine congrArg (_ >>= ·) (funext fun image => ?_)
  rw [addFields_append]
  rfl

theorem load_funcs (h : m.Legible start) (globals : List Global) :
    (Image.addFields ⟨Builtin.imports.map loadedImport, globals, []⟩ (m.funcs.map funcForm) >>=
      fun image => image.addFields [funcForm start]) =
        .ok ⟨Builtin.imports.map loadedImport ++ m.funcs.map loaded ++ [loaded start], globals,
          [(Utf8.encode Builtin.startName, loaded start)]⟩ := by
  obtain ⟨-, distinct, disjoint⟩ := List.nodup_append.1 h.funcNames
  have funcs := addFields_funcs ⟨Builtin.imports.map loadedImport, globals, []⟩ h.unexported
    distinct (by
      intro f hf _ g hg
      obtain ⟨i, hi, rfl⟩ := List.mem_map.1 hg
      rw [loadedImport, ne_eq, key_inj]
      exact disjoint _ (List.mem_map.2 ⟨i, hi, rfl⟩) _ (List.mem_map.2 ⟨f, hf, rfl⟩))
  have exported : start.exports = [Utf8.encode Builtin.startName] := by
    rw [Func.exports, h.entryExport]
    rfl
  have entry := addDefined_eq
    (m := ⟨Builtin.imports.map loadedImport ++ m.funcs.map loaded, globals, []⟩) (f := start)
    (fun hne => absurd h.entryName hne) (by
      rw [Exportable, h.entryExport]
      exact fun _ => ⟨rfl, List.not_mem_nil⟩)
  rw [funcs]
  change (Image.addDefined _ (funcForm start) >>= _) = _
  rw [entry, exported]
  rfl

theorem load_legible (h : m.Legible start)
    (hr : ∀ g ∈ m.globals, -2147483648 ≤ g.2 ∧ g.2 < 4294967296) :
    Image.load (Utf8.encode m.render) = .ok (imageOf m start) := by
  rw [load_fields h, addFields_globals _ hr]
  exact load_funcs h _

theorem load_render (h : m.Loadable start) :
    Image.load (Utf8.encode m.render) = .ok (imageOf m start) :=
  load_legible h.legible fun g hg => (h.globals g hg).2

theorem load_range (h : m.Legible start) (hl : Image.load (Utf8.encode m.render) = .ok image) :
    ∀ g ∈ m.globals, -2147483648 ≤ g.2 ∧ g.2 < 4294967296 := by
  rw [load_fields h] at hl
  cases globals : Image.addFields ⟨Builtin.imports.map loadedImport, [], []⟩
      (m.globals.map globalForm) with
  | error e =>
    rw [globals] at hl
    cases hl
  | ok image =>
    rw [← List.append_nil (m.globals.map globalForm)] at globals
    exact addFields_globals_range globals

end legible

/-- The host functions behind the imports, in their order. -/
def hosts : List (String × HostFunc) := [
  ("print", .printNum), ("print_num", .printNum), ("print_bool", .printBool),
  ("print_none", .printNone), ("abs", .abs), ("max", .max), ("min", .min), ("pow", .pow)]

def linkedImport (i : String × HostFunc) : Machine.Func HostFunc where
  name := key i.1
  params := List.replicate i.2.reads []
  result := true
  code := .imported i.2

theorem linkAll_append (xs ys : List (Machine.Func Import)) :
    linkAll (xs ++ ys) = linkAll xs >>= fun fs => linkAll ys >>= fun gs => pure (fs ++ gs) := by
  induction xs with
  | nil =>
    rw [List.nil_append]
    cases linkAll ys <;> rfl
  | cons f xs ih =>
    rw [List.cons_append, linkAll, linkAll, ih]
    cases f.link with
    | error e => rfl
    | ok g =>
      cases linkAll xs with
      | error e => rfl
      | ok fs => cases linkAll ys <;> rfl

theorem linkAll_imports :
    linkAll (Builtin.imports.map loadedImport) = .ok (hosts.map linkedImport) := rfl

theorem linkAll_loaded (fs : List (Func Instr)) :
    linkAll (fs.map loaded) = .ok (fs.map loaded) := by
  induction fs with
  | nil => rfl
  | cons f fs ih =>
    rw [List.map_cons, linkAll, ih]
    rfl

theorem duplicateGlobal?_eq_none {gs : List Global} (seen : List Bytes)
    (h : (seen ++ gs.map (·.name)).Nodup) : duplicateGlobal? seen gs = none := by
  induction gs generalizing seen with
  | nil => rfl
  | cons g gs ih =>
    have split : (g.name :: (seen ++ gs.map (·.name))).Nodup := by
      simpa [List.nodup_middle] using h
    have fresh : seen.contains g.name = false := by
      have hg := (List.nodup_cons.1 split).1
      simp only [List.mem_append, not_or] at hg
      simpa using hg.1
    rw [duplicateGlobal?, fresh]
    exact ih (g.name :: seen) split

def instanceOf (m : Module Instr) (start : Func Instr) : Instance where
  funcs := hosts.map linkedImport ++ m.funcs.map loaded ++ [loaded start]
  exports := [(Utf8.encode Builtin.startName, loaded start)]
  globals := m.globals.map loadedGlobal

theorem instantiate_legible (h : m.Legible start) :
    (imageOf m start).instantiate = .ok (instanceOf m start) := by
  have funcs : linkAll (imageOf m start).funcs = .ok (instanceOf m start).funcs := by
    change linkAll (_ ++ _ ++ [start].map loaded) = _
    rw [linkAll_append, linkAll_append, linkAll_loaded]
    rfl
  have distinct : duplicateGlobal? [] (imageOf m start).globals = none := by
    apply duplicateGlobal?_eq_none
    have names := h.globalNames.map fun a b (hab : key a = key b) => key_inj.1 hab
    simpa [imageOf, loadedGlobal, Function.comp_def] using names
  simp only [Image.instantiate, funcs, distinct]
  rfl

theorem instantiate_imageOf (h : m.Loadable start) :
    (imageOf m start).instantiate = .ok (instanceOf m start) := instantiate_legible h.legible

end StackCode
end WordScript
