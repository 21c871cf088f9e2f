import WordScript.Machine
import WordScript.Proofs.IndexedReading
import WordScript.Proofs.Shape

/-! Loading modules by positions.

A second loader looks the items of a form up by their positions, after it has asked how many there
are. No lookup fails: it loads what the first one loads. -/
namespace WordScript

namespace Sexpr

def head? (s : Sexpr) : Option Bytes :=
  if !s.isList || s.items.isEmpty then some []
  else s.items[0]?.map fun first => if first.isList then [] else first.text

/-- What stands after the head of a list, looked up. -/
def operands? (s : Sexpr) : Option (List Sexpr) := suffix? s.items 1

theorem head?_eq (s : Sexpr) : s.head? = some s.head := by
  rcases s with t | _ | ⟨_ | _, rest⟩ <;> rfl

variable {s : Sexpr}

theorem items_of_head (h : s.head.isEmpty = false) : ∃ first rest, s.items = first :: rest := by
  rcases s with t | _ | ⟨first, rest⟩
  · cases h
  · cases h
  · exact ⟨first, rest, rfl⟩

theorem operands?_eq (h : s.head.isEmpty = false) : s.operands? = some s.operands := by
  obtain ⟨first, rest, items⟩ := Sexpr.items_of_head h
  rw [operands?, operands, items, ]
  rfl

end Sexpr

namespace Machine
namespace Indexed

open Slip (need refuse)

abbrev Loads := Except (Slip LoadError)

def lift {α : Type} (x : Load α) : Loads α := x.mapError .refused

def slotName (s : Sexpr) : Loads Bytes :=
  if s.items.length != 3 then refuse (.slot s)
  else do
    let name ← need s.items[1]?
    if !name.isName then refuse (.slot s)
    else if (← need s.items[2]?).text != keyword "i32" then refuse (.slot s)
    else return name.text

def isNamed (s : Sexpr) : Loads Bool :=
  if s.items.length == 3 then do return (← need s.items[1]?).isName else return false

def importedSlots (s : Sexpr) : Loads (List Bytes) := do
  if ← isNamed s then return [← slotName s]
  else
    let types ← need s.operands?
    if types.all (·.text == keyword "i32") then return types.map fun _ => [] else refuse (.slot s)

def signatureForm (taken : List Bytes) (isImport : Bool) (d : Draft) (s : Sexpr) : Loads Draft := do
  let word ← need s.head?
  if word == keyword "param" then
    if isImport then return { d with params := d.params ++ (← importedSlots s) }
    else return { d with params := d.params ++ [← slotName s] }
  else if word == keyword "result" then
    if d.result || s.items.length != 2 then refuse (.resultForm s)
    else if (← need s.items[1]?).text != keyword "i32" then refuse (.resultForm s)
    else return { d with result := true }
  else if word == keyword "export" then
    if s.items.length != 2 then refuse (.exportForm s)
    else
      let name ← lift (stringOf (← need s.items[1]?))
      if (taken ++ d.exports).contains name then refuse (.duplicateExport name)
      else return { d with exports := d.exports ++ [name] }
  else if s.isName && d.name.isEmpty then return { d with name := s.text }
  else refuse (.signature s)

def signature (taken : List Bytes) (isImport : Bool) (d : Draft) : List Sexpr → Loads Draft
  | [] => return d
  | s :: rest => do signature taken isImport (← signatureForm taken isImport d s) rest

def funcForms (taken : List Bytes) : (fuel : Nat) → Draft → List Sexpr → Loads (Draft × List Sexpr)
  | 0, d, items => if items.isEmpty then return (d, []) else .error .outOfFuel
  | fuel + 1, d, items =>
    if items.isEmpty then return (d, [])
    else do
      let first ← need items[0]?
      let word ← need first.head?
      if word == keyword "local" then
        let d := { d with locals := d.locals ++ [← slotName first] }
        funcForms taken fuel d (← need (suffix? items 1))
      else if [keyword "param", keyword "result", keyword "export"].contains word then
        let d ← signature taken false d (← need (segment? items 0 1))
        funcForms taken fuel d (← need (suffix? items 1))
      else if first.isName && d.name.isEmpty then
        funcForms taken fuel { d with name := first.text } (← need (suffix? items 1))
      else return (d, items)

def addImport (m : Image) (s : Sexpr) : Loads Image :=
  if s.items.length != 4 then refuse (.importForm s)
  else do
    let func ← need s.items[3]?
    if (← need func.head?) != keyword "func" then refuse (.importForm s)
    else
      let source ← lift (stringOf (← need s.items[1]?))
      let name ← lift (stringOf (← need s.items[2]?))
      let d ← signature m.exportNames true .empty (← need func.operands?)
      lift (m.addFunc d (.imported ⟨source, name⟩))

def addDefined (m : Image) (s : Sexpr) : Loads Image := do
  let items ← need s.operands?
  let (d, body) ← funcForms m.exportNames items.length .empty items
  lift (m.addFunc d (.defined d.locals body))

def globalType (type : Sexpr) : Loads Bool := do
  if type.text == keyword "i32" then return false
  else if (← need type.head?) == keyword "mut" && type.items.length == 2 then
    if (← need type.items[1]?).text == keyword "i32" then return true else refuse (.globalType type)
  else refuse (.globalType type)

def addConstant (m : Image) (name : Bytes) (isMutable : Bool) (text : Bytes) : Loads Image :=
  match constant? text with
  | some v => return { m with globals := m.globals ++ [⟨name, isMutable, v⟩] }
  | none => refuse (.constant text)

def addGlobal (m : Image) (s : Sexpr) : Loads Image :=
  if s.items.length != 4 then refuse (.globalForm s)
  else do
    let name ← need s.items[1]?
    if !name.isName then refuse (.globalForm s)
    else
      let isMutable ← globalType (← need s.items[2]?)
      let init ← need s.items[3]?
      if (← need init.head?) != keyword "i32.const" || init.items.length != 2 then
        refuse (.initializer init)
      else
        addConstant m name.text isMutable (← need init.items[1]?).text

def addField (m : Image) (s : Sexpr) : Loads Image := do
  let word ← need s.head?
  if word == keyword "import" then addImport m s
  else if word == keyword "global" then addGlobal m s
  else if word == keyword "func" then addDefined m s
  else refuse (.moduleField s)

def addFields : Image → List Sexpr → Loads Image
  | m, [] => return m
  | m, s :: rest => do addFields (← addField m s) rest

def readSlip : Slip Sexpr.Fault → Slip LoadError
  | .refused fault => .refused (.reading fault)
  | .outside => .outside
  | .outOfFuel => .outOfFuel

def loadForms (forms : List Sexpr) : Loads Image :=
  if forms.length != 1 then refuse .noModule
  else do
    let form ← need forms[0]?
    if (← need form.head?) != keyword "module" then refuse .noModule
    else addFields .empty (← need form.operands?)

def load (text : Bytes) : Loads Image := do
  loadForms (← (Sexpr.Indexed.readText text).mapError readSlip)

section equal

variable {α β : Type} {s : Sexpr}

theorem lift_error (e : LoadError) : lift (.error e : Load α) = refuse e := rfl

theorem lift_bind (x : Load α) (f : α → Load β) :
    lift (x >>= f) = lift x >>= fun a => lift (f a) := by
  cases x <;> rfl

theorem lift_ite (c : Prop) [Decidable c] (x y : Load α) :
    lift (if c then x else y) = if c then lift x else lift y := by
  split <;> rfl

theorem head_eq (s : Sexpr) : (need s.head? : Loads Bytes) = .ok s.head := by
  rw [s.head?_eq]
  rfl

theorem operands_eq (h : s.head.isEmpty = false) :
    (need s.operands? : Loads (List Sexpr)) = .ok s.operands := by
  rw [Sexpr.operands?_eq h]
  rfl

theorem slotName_eq (s : Sexpr) : slotName s = lift (Machine.slotName s) := by
  rw [slotName, Machine.slotName]
  rcases s.items with _ | ⟨a, _ | ⟨name, _ | ⟨type, _ | ⟨d, rest⟩⟩⟩⟩
  · rfl
  · rfl
  · rfl
  · change (if (!name.isName) = true then _ else if (!(type.text == keyword "i32")) = true then _
      else _) = lift (if (name.isName && type.text == keyword "i32") = true then _ else _)
    cases name.isName <;> cases type.text == keyword "i32" <;> rfl
  · simp [lift_error]

theorem importedSlots_eq (h : s.head.isEmpty = false) :
    importedSlots s = lift (Machine.importedSlots s) := by
  obtain ⟨first, rest, items⟩ := Sexpr.items_of_head h
  have named : isNamed s = .ok (rest.length == 2 && (rest.headD default).isName) := by
    rw [isNamed, items]
    rcases rest with _ | ⟨name, _ | ⟨type, _ | ⟨c, rest⟩⟩⟩
    · rfl
    · rfl
    · rfl
    · rfl
  have tail : s.operands = rest := by rw [Sexpr.operands, items, List.tail_cons]
  rw [importedSlots, Machine.importedSlots, operands_eq h, named, slotName_eq, tail]
  simp only [lift_ite, lift_bind]
  rfl

theorem signatureForm_eq (taken : List Bytes) (isImport : Bool) (d : Draft) (s : Sexpr) :
    signatureForm taken isImport d s = lift (Machine.signatureForm taken isImport d s) := by
  rw [signatureForm, Machine.signatureForm, head_eq]
  simp only [ok_bind, lift_ite]
  split
  · rename_i param
    have head : s.head.isEmpty = false := by
      rw [beq_iff_eq.1 param]
      decide
    rw [importedSlots_eq head, slotName_eq, lift_bind, lift_bind]
    rfl
  · split
    · rename_i result
      obtain ⟨first, rest, items⟩ := Sexpr.items_of_head (s := s) (by
        rw [beq_iff_eq.1 result]
        decide)
      rw [Sexpr.operands, items]
      rcases rest with _ | ⟨type, _ | ⟨b, rest⟩⟩
      · cases d.result <;> rfl
      · change (if (d.result || false) = true then _ else if (type.text != keyword "i32") = true
          then _ else _) = lift (if (d.result || type.text != keyword "i32") = true then _ else _)
        cases d.result <;> cases type.text != keyword "i32" <;> rfl
      · simp [lift_error]
    · split
      · rename_i exported
        obtain ⟨first, rest, items⟩ := Sexpr.items_of_head (s := s) (by
          rw [beq_iff_eq.1 exported]
          decide)
        rw [Sexpr.operands, items]
        rcases rest with _ | ⟨literal, _ | ⟨b, rest⟩⟩
        · rfl
        · change (lift (stringOf literal) >>= fun name => if (taken ++ d.exports).contains name = true
            then _ else _) = lift (stringOf literal >>= fun name => if (taken ++ d.exports).contains
            name = true then _ else _)
          simp only [lift_bind, lift_ite]
          rfl
        · simp [lift_error]
      · rfl

theorem signature_eq (taken : List Bytes) (d : Draft) (items : List Sexpr) :
    signature taken true d items = lift (Machine.signature taken d items) := by
  induction items generalizing d with
  | nil => rfl
  | cons s rest ih =>
    rw [signature, Machine.signature, signatureForm_eq, lift_bind]
    simp only [ih]

theorem funcForms_eq (taken : List Bytes) (d : Draft) (items : List Sexpr) :
    funcForms taken items.length d items = lift (Machine.funcForms taken d items) := by
  induction items generalizing d with
  | nil => rfl
  | cons s rest ih =>
    have one : (need (segment? (s :: rest) 0 1) : Loads (List Sexpr)) = .ok [s] := by
      rfl
    have others : (need (suffix? (s :: rest) 1) : Loads (List Sexpr)) = .ok rest := by
      rfl
    have single (d : Draft) : signature taken false d [s] = lift (Machine.signatureForm taken false d s) := by
      rw [signature, signatureForm_eq]
      cases Machine.signatureForm taken false d s <;> rfl
    rw [List.length_cons, funcForms, Machine.funcForms]
    simp only [ok_bind, head_eq, others, one, single, slotName_eq, ih, lift_ite,
      lift_bind]
    rfl

theorem addImport_eq (m : Image) (s : Sexpr) : addImport m s = lift (m.addImport s) := by
  rw [addImport, Image.addImport, Sexpr.operands]
  rcases s.items with _ | ⟨a, _ | ⟨source, _ | ⟨name, _ | ⟨func, _ | ⟨b, rest⟩⟩⟩⟩⟩
  · rfl
  · rfl
  · rfl
  · rfl
  · change (need func.head? >>= fun word => if (word != keyword "func") = true then _ else _) =
      lift (if (func.head == keyword "func") = true then _ else _)
    rw [head_eq, ok_bind, bne]
    cases found : func.head == keyword "func" with
    | false => rfl
    | true =>
      have head : func.head.isEmpty = false := by
        rw [beq_iff_eq.1 found]
        decide
      change (lift (stringOf source) >>= fun source => lift (stringOf name) >>= fun name =>
        need func.operands? >>= fun items => signature m.exportNames true .empty items >>= fun d =>
        lift (m.addFunc d (.imported ⟨source, name⟩))) = lift (stringOf source >>= fun source =>
        stringOf name >>= fun name => Machine.signature m.exportNames .empty func.operands >>=
        fun d => m.addFunc d (.imported ⟨source, name⟩))
      simp only [operands_eq head, ok_bind, signature_eq, lift_bind]
  · simp [lift_error]

theorem globalType_eq (type : Sexpr) : globalType type = lift (Image.globalType type) := by
  rcases type with t | _ | ⟨t | _, _ | ⟨inner, _ | ⟨b, rest⟩⟩⟩
  · rw [Image.globalType, lift_ite]
    rfl
  · rfl
  · change (if (t == keyword "mut" && false) = true then _ else _) = _
    rw [Bool.and_false]
    rfl
  · change (if (t == keyword "mut" && true) = true then if (inner.text == keyword "i32") = true then _
      else _ else _) = lift (if (t == keyword "mut" && inner.text == keyword "i32") = true then _
      else _)
    cases t == keyword "mut" <;> cases inner.text == keyword "i32" <;> rfl
  · have long : (rest.length + 1 + 1 + 1 == 2) = false := by simp
    change (if (t == keyword "mut" && (rest.length + 1 + 1 + 1 == 2)) = true then _ else _) = _
    rw [long, Bool.and_false]
    rfl
  · rfl
  · rfl
  · rfl

theorem addGlobal_eq (m : Image) (s : Sexpr) : addGlobal m s = lift (m.addGlobal s) := by
  rw [addGlobal, Image.addGlobal, Sexpr.operands]
  rcases s.items with _ | ⟨a, _ | ⟨name, _ | ⟨type, _ | ⟨init, _ | ⟨b, rest⟩⟩⟩⟩⟩
  · rfl
  · rfl
  · rfl
  · rfl
  · change (if (!name.isName) = true then _ else globalType type >>= fun isMutable =>
      need init.head? >>= fun word => if (word != keyword "i32.const" || init.items.length != 2) = true
      then _ else _) = lift (if name.isName = true then _ else _)
    rw [globalType_eq]
    simp only [lift_ite, lift_bind]
    cases name.isName with
    | false => rfl
    | true =>
      refine congrArg (lift (Image.globalType type) >>= ·) (funext fun isMutable => ?_)
      rcases init with t | _ | ⟨t | _, _ | ⟨literal, _ | ⟨c, rest⟩⟩⟩
      · rfl
      · rfl
      · change (if (t != keyword "i32.const" || true) = true then _ else _) = _
        rw [Bool.or_true]
        rfl
      · change (if (t != keyword "i32.const" || false) = true then _ else _) =
          lift (if (t == keyword "i32.const") = true then _ else _)
        rw [bne]
        cases t == keyword "i32.const" with
        | false => rfl
        | true =>
          change addConstant m name.text isMutable literal.text = _
          rw [addConstant]
          cases constant? literal.text <;> rfl
      · have long : (rest.length + 1 + 1 + 1 != 2) = true := by simp
        change (if (t != keyword "i32.const" || (rest.length + 1 + 1 + 1 != 2)) = true then _ else _)
          = _
        rw [long, Bool.or_true]
        rfl
      · rfl
      · rfl
      · rfl
  · simp [lift_error]

theorem addDefined_eq (m : Image) (h : s.head.isEmpty = false) :
    addDefined m s = lift (m.addDefined s) := by
  rw [addDefined, Image.addDefined, operands_eq h, ok_bind, funcForms_eq, lift_bind]

theorem addField_eq (m : Image) (s : Sexpr) : addField m s = lift (m.addField s) := by
  rw [addField, Image.addField, head_eq, ok_bind]
  simp only [addImport_eq, addGlobal_eq]
  split
  · rfl
  · split
    · rfl
    · split
      · rename_i func
        rw [addDefined_eq m (by rw [beq_iff_eq.1 func]; decide)]
      · rfl

theorem addFields_eq (m : Image) (fields : List Sexpr) :
    addFields m fields = lift (m.addFields fields) := by
  induction fields generalizing m with
  | nil => rfl
  | cons s rest ih =>
    rw [addFields, Image.addFields, addField_eq, lift_bind]
    simp only [ih]

/-- **Loading by positions never looks outside of the text or of a form.** It ends as loading does:
with the same module, or with the same error. -/
theorem load_eq (text : Bytes) : load text = (Image.load text).mapError .refused := by
  rw [load, Sexpr.Indexed.readText_eq, Image.load]
  rcases Sexpr.readText text with fault | _ | ⟨form, _ | ⟨b, rest⟩⟩
  · rfl
  · rfl
  · change (need form.head? >>= fun word => if (word != keyword "module") = true then _ else _) =
      lift (if (form.head == keyword "module") = true then _ else _)
    rw [head_eq, ok_bind, bne]
    cases found : form.head == keyword "module" with
    | false => rfl
    | true =>
      have head : form.head.isEmpty = false := by
        rw [beq_iff_eq.1 found]
        decide
      exact (congrArg (· >>= addFields .empty) (operands_eq head)).trans (addFields_eq _ _)
  · change loadForms (form :: b :: rest) = refuse .noModule
    rw [loadForms, if_pos (by simp)]

end equal

end Indexed
end Machine
end WordScript
