import WordScript.Sexpr.Reader
import WordScript.Text.Numeral
import WordScript.Text.Quoted
import WordScript.Word

/-! Loading modules.

A module text is one `module` form of imports, globals and functions. Function bodies are kept as
they are: what an instruction means is decided when it runs. -/
namespace WordScript
namespace Machine

def keyword (text : String) : Bytes := Utf8.encode text

/-- What an imported function is imported as. -/
structure Import where
  source : Bytes
  name : Bytes
deriving DecidableEq, Repr

/-- How a function is carried out; `σ` tells how an imported one is. -/
inductive Code (σ : Type)
  | imported (source : σ)
  | defined (locals : List Bytes) (body : List Sexpr)

/-- A function. Names start with a dollar sign; a function without one has the empty name, and
so has a parameter of an import. -/
structure Func (σ : Type) where
  name : Bytes
  params : List Bytes
  result : Bool
  code : Code σ

structure Global where
  name : Bytes
  isMutable : Bool
  value : Word
deriving DecidableEq, Repr

/-- A loaded module. -/
structure Image where
  funcs : List (Func Import)
  globals : List Global
  exports : List (Bytes × Func Import)

/-- Why a text is not a module. -/
inductive LoadError
  | reading (fault : Sexpr.Fault)
  | noModule
  | moduleField (form : Sexpr)
  | importForm (form : Sexpr)
  | resultForm (form : Sexpr)
  | exportForm (form : Sexpr)
  | duplicateExport (name : Bytes)
  | signature (form : Sexpr)
  | duplicateFunction (name : Bytes)
  | globalForm (form : Sexpr)
  | globalType (form : Sexpr)
  | initializer (form : Sexpr)
  | slot (form : Sexpr)
  | noString (form : Sexpr)
  | malformedString (form : Sexpr)
  | constant (text : Bytes)

def constantMessage (text : Bytes) : String := "invalid i32 constant: " ++ Utf8.decode text

def LoadError.cause : LoadError → String
  | .reading fault => fault.message
  | .noModule => "expected a single `module` form"
  | .moduleField s => "unsupported module field: " ++ Utf8.decode s.print
  | .importForm s => "unsupported import: " ++ Utf8.decode s.print
  | .resultForm s => "unsupported result: " ++ Utf8.decode s.print
  | .exportForm s => "malformed export: " ++ Utf8.decode s.print
  | .duplicateExport n => "duplicate export: " ++ Utf8.decode n
  | .signature s => "unexpected " ++ Utf8.decode s.print ++ " in function signature"
  | .duplicateFunction n => "duplicate function: " ++ Utf8.decode n
  | .globalForm s => "unsupported global: " ++ Utf8.decode s.print
  | .globalType s => "unsupported global type: " ++ Utf8.decode s.print
  | .initializer s => "unsupported global initializer: " ++ Utf8.decode s.print
  | .slot s => "unsupported " ++ Utf8.decode s.head ++ ": " ++ Utf8.decode s.print
  | .noString s => "expected a string, got " ++ Utf8.decode s.print
  | .malformedString s => "malformed string: " ++ Utf8.decode s.print
  | .constant t => constantMessage t

def LoadError.message (e : LoadError) : String := "malformed module: " ++ e.cause

abbrev Load := Except LoadError

/-- A constant: a decimal number in the signed or the unsigned range, in which underscores do not
count. -/
def constant? (text : Bytes) : Option Word :=
  match Numeral.int? ((Utf8.decode text).toList.filter (· != '_')) with
  | some n => if -2147483648 ≤ n ∧ n < 4294967296 then some (BitVec.ofInt 32 n) else none
  | none => none

def stringOf : Sexpr → Load Bytes
  | .atom (34 :: rest) =>
    match Quoted.decode? (34 :: rest) with
    | some bytes => .ok bytes
    | none => .error (.malformedString (.atom (34 :: rest)))
  | s => .error (.noString s)

def slotName (s : Sexpr) : Load Bytes :=
  match s.items with
  | [_, name, type] =>
    if name.isName && type.text == keyword "i32" then .ok name.text else .error (.slot s)
  | _ => .error (.slot s)

/-- The parameters in a `param` form of an import: a named one, or any number without names. -/
def importedSlots (s : Sexpr) : Load (List Bytes) :=
  let types := s.operands
  if types.length == 2 && (types.headD default).isName then do return [← slotName s]
  else if types.all (·.text == keyword "i32") then .ok (types.map fun _ => [])
  else .error (.slot s)

/-- A function whose forms are being read. -/
structure Draft where
  name : Bytes
  params : List Bytes
  result : Bool
  locals : List Bytes
  exports : List Bytes

def Draft.empty : Draft := ⟨[], [], false, [], []⟩

/-- Reads one form of a signature. The exports of earlier functions are `taken`. -/
def signatureForm (taken : List Bytes) (isImport : Bool) (d : Draft) (s : Sexpr) : Load Draft :=
  if s.head == keyword "param" then
    if isImport then do return { d with params := d.params ++ (← importedSlots s) }
    else do return { d with params := d.params ++ [← slotName s] }
  else if s.head == keyword "result" then
    match s.operands with
    | [type] =>
      if d.result || type.text != keyword "i32" then .error (.resultForm s)
      else .ok { d with result := true }
    | _ => .error (.resultForm s)
  else if s.head == keyword "export" then
    match s.operands with
    | [literal] => do
      let name ← stringOf literal
      if (taken ++ d.exports).contains name then .error (.duplicateExport name)
      else return { d with exports := d.exports ++ [name] }
    | _ => .error (.exportForm s)
  else if s.isName && d.name.isEmpty then .ok { d with name := s.text }
  else .error (.signature s)

def signature (taken : List Bytes) (d : Draft) : List Sexpr → Load Draft
  | [] => .ok d
  | s :: rest => do signature taken (← signatureForm taken true d s) rest

def funcForms (taken : List Bytes) (d : Draft) : List Sexpr → Load (Draft × List Sexpr)
  | [] => .ok (d, [])
  | s :: rest =>
    if s.head == keyword "local" then do
      funcForms taken { d with locals := d.locals ++ [← slotName s] } rest
    else if [keyword "param", keyword "result", keyword "export"].contains s.head then do
      funcForms taken (← signatureForm taken false d s) rest
    else if s.isName && d.name.isEmpty then funcForms taken { d with name := s.text } rest
    else .ok (d, s :: rest)

namespace Image

def empty : Image := ⟨[], [], []⟩

def exportNames (m : Image) : List Bytes := m.exports.map (·.1)

def addFunc (m : Image) (d : Draft) (code : Code Import) : Load Image :=
  if !d.name.isEmpty && m.funcs.any (·.name == d.name) then .error (.duplicateFunction d.name)
  else
    let f : Func Import := ⟨d.name, d.params, d.result, code⟩
    .ok { m with funcs := m.funcs ++ [f], exports := m.exports ++ d.exports.map fun n => (n, f) }

/-- Adds `(import "source" "name" (func $f (param i32) (result i32)))`. -/
def addImport (m : Image) (s : Sexpr) : Load Image :=
  match s.operands with
  | [source, name, func] =>
    if func.head == keyword "func" then do
      let source ← stringOf source
      let name ← stringOf name
      let d ← signature m.exportNames .empty func.operands
      m.addFunc d (.imported ⟨source, name⟩)
    else .error (.importForm s)
  | _ => .error (.importForm s)

/-- Adds `(func $f (export "f") (param $x i32) (result i32) (local $y i32) (nop))`. -/
def addDefined (m : Image) (s : Sexpr) : Load Image := do
  let (d, body) ← funcForms m.exportNames .empty s.operands
  m.addFunc d (.defined d.locals body)

def globalType (type : Sexpr) : Load Bool :=
  match type with
  | .atom t => if t == keyword "i32" then .ok false else .error (.globalType type)
  | .list [.atom m, inner] =>
    if m == keyword "mut" && inner.text == keyword "i32" then .ok true else .error (.globalType type)
  | _ => .error (.globalType type)

def addGlobal (m : Image) (s : Sexpr) : Load Image :=
  match s.operands with
  | [name, type, init] =>
    if name.isName then do
      let isMutable ← globalType type
      match init with
      | .list [.atom op, literal] =>
        if op == keyword "i32.const" then
          match constant? literal.text with
          | some v => return { m with globals := m.globals ++ [⟨name.text, isMutable, v⟩] }
          | none => .error (.constant literal.text)
        else .error (.initializer init)
      | _ => .error (.initializer init)
    else .error (.globalForm s)
  | _ => .error (.globalForm s)

def addField (m : Image) (s : Sexpr) : Load Image :=
  if s.head == keyword "import" then m.addImport s
  else if s.head == keyword "global" then m.addGlobal s
  else if s.head == keyword "func" then m.addDefined s
  else .error (.moduleField s)

def addFields : Image → List Sexpr → Load Image
  | m, [] => .ok m
  | m, s :: rest => do addFields (← m.addField s) rest

def load (text : Bytes) : Load Image :=
  match Sexpr.readText text with
  | .error fault => .error (.reading fault)
  | .ok [form] =>
    if form.head == keyword "module" then Image.empty.addFields form.operands else .error .noModule
  | .ok _ => .error .noModule

end Image
end Machine
end WordScript
