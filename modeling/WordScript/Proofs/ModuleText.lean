import Mathlib
import WordScript.Proofs.Execution
import WordScript.Proofs.Spelling

/-! Module texts are loaded as the modules they were written from. -/
namespace WordScript
namespace StackCode

open Sexpr (Spells isWord isVerbatim)
open Machine (keyword)

variable {x text rest : String} {forms items : List Sexpr}

/-- Names that are one word once they are marked as names. -/
def IsName (x : String) : Prop := isWord ("$" ++ x) = true

mutual

def Instr.Named : Instr → Prop
  | .get _ x | .set _ x | .call x | .br x | .brIf x => IsName x
  | .block l body | .loop l body => IsName l ∧ Instr.NamedIn body
  | .cond thenArm elseArm => Instr.NamedIn thenArm ∧ Instr.NamedIn elseArm
  | _ => True

def Instr.NamedIn : List Instr → Prop
  | [] => True
  | i :: rest => i.Named ∧ Instr.NamedIn rest

end

theorem key_eq (x : String) : key x = Utf8.encode ("$" ++ x) := by
  rw [Utf8.encode_append]
  rfl

theorem key_inj : key x = key y ↔ x = y := by
  rw [key, key, List.cons.injEq, Utf8.encode_injective.eq_iff]
  exact and_iff_right rfl

/-- The lines of a function body as they stand in a text. -/
def bodyText (lines : List String) : String :=
  String.join (lines.map fun l => "    " ++ l ++ "\n")

theorem bodyText_append (xs ys : List String) :
    bodyText (xs ++ ys) = bodyText xs ++ bodyText ys := by
  simp [bodyText]

theorem indented_spells (depth : Nat) (h : Spells text forms) :
    Spells (indented depth text) forms := by
  have step : Spells "  " [] := .blanks (by simp)
  have indent : Spells (String.join (List.replicate depth "  ")) [] := by
    induction depth with
    | zero => exact .nil
    | succ n ih => exact (step.append ih).congr (by rw [List.replicate_succ, String.join_cons]) rfl
  exact indent.append h

theorem line_spells (depth : Nat) (h : Spells text forms) :
    Spells (bodyText [indented depth text]) forms := by
  have margin : Spells "    " [] := .blanks (by simp)
  have lineEnd : Spells "\n" [] := .blanks (by simp)
  refine ((margin.append (indented_spells depth h)).append lineEnd).congr ?_ (by simp)
  simp [bodyText]

theorem name_spells (h : IsName x) : Spells (" $" ++ x) [.atom (key x)] := by
  rw [key_eq]
  refine (Spells.word h).congr ?_ rfl
  rfl

section

variable (depth : Nat) (word : String) (hw : isWord word = true)
include depth word hw

theorem form_spells (h : Spells rest items) (ht : text = "(" ++ word ++ rest ++ ")") :
    Spells (bodyText [indented depth text]) [form word items] :=
  ht ▸ line_spells depth (.list hw h)

theorem named_spells (hx : IsName x) (ht : text = "(" ++ word ++ " $") :
    Spells (bodyText [indented depth (text ++ x ++ ")")]) [form word [.atom (key x)]] := by
  refine form_spells depth word hw (name_spells hx) ?_
  rw [ht, ← String.append_assoc]

theorem group_spells (hh : Spells head heads) (h : Spells (bodyText lines) items)
    (ht : text = "(" ++ word ++ head) :
    Spells (bodyText (indented depth text :: lines ++ [indented depth ")"]))
      [form word (heads ++ items)] := by
  have margin : Spells "    " [] := .blanks (by simp)
  have lineEnd : Spells "\n" [] := .blanks (by simp)
  have indent : Spells ("    " ++ indented depth "") [] :=
    margin.append (indented_spells depth .nil)
  have inner := ((hh.append lineEnd).append h).append indent
  refine ((indent.append (.list hw inner)).append lineEnd).congr ?_ (by simp [form, keyword])
  apply String.toList_injective
  simp [bodyText, indented, ht]

end

theorem not_separator_of_isDigit (h : c.isDigit = true) : c ∉ Sexpr.separators := by
  intro mem
  fin_cases mem <;> cases h

theorem isWord_toString (v : Int) : isWord (toString v) = true := by
  have plain : ∀ c ∈ (toString v).toList, Sexpr.separators.contains c = false := by
    intro c hc
    rcases Numeral.sign_or_isDigit_of_mem hc with rfl | hd
    · decide
    · simpa using not_separator_of_isDigit hd
  have text : toString v ≠ "" := by
    intro h
    have read := Numeral.int?_toString v
    rw [h] at read
    cases read
  simp only [isWord, Bool.and_eq_true, bne_iff_ne, List.all_eq_true, Bool.not_eq_true']
  exact ⟨text, plain⟩

theorem isWord_opName (o : WordOp) : isWord o.name = true := by
  rcases o with _ | _ | _ | _ | _ | _ | m | m | _ | _ | m | m | m | m <;>
    first | decide | (cases m <;> decide)

theorem sexprs_isEmpty (is : List Instr) : (Instr.sexprs is).isEmpty = is.isEmpty := by
  cases is <;> rfl

mutual

theorem instr_spells : (i : Instr) → i.Named → ∀ depth, Spells (bodyText (i.lines depth)) [i.sexpr]
  | .nop, _, depth => form_spells depth "nop" (by decide) .nil rfl
  | .ret, _, depth => form_spells depth "return" (by decide) .nil rfl
  | .const v, _, depth => by
    refine form_spells depth "i32.const" (by decide) (.word (isWord_toString v)) ?_
    rfl
  | .get .slot x, h, depth => named_spells depth "local.get" (by decide) h rfl
  | .get .global x, h, depth => named_spells depth "global.get" (by decide) h rfl
  | .set .slot x, h, depth => named_spells depth "local.set" (by decide) h rfl
  | .set .global x, h, depth => named_spells depth "global.set" (by decide) h rfl
  | .op o, _, depth => form_spells depth o.name (isWord_opName o) .nil (by rw [String.append_empty])
  | .call f, h, depth => named_spells depth "call" (by decide) h rfl
  | .br l, h, depth => named_spells depth "br" (by decide) h rfl
  | .brIf l, h, depth => named_spells depth "br_if" (by decide) h rfl
  | .block l body, h, depth =>
    group_spells depth "block" (by decide) (name_spells h.1) (code_spells body h.2 (depth + 1))
      (by rfl)
  | .loop l body, h, depth =>
    group_spells depth "loop" (by decide) (name_spells h.1) (code_spells body h.2 (depth + 1))
      (by rfl)
  | .cond thenArm elseArm, h, depth => by
    have yes : Spells (bodyText (indented (depth + 1) "(then" :: Instr.linesOf (depth + 2) thenArm
        ++ [indented (depth + 1) ")"])) [form "then" (Instr.sexprs thenArm)] :=
      group_spells (depth + 1) "then" (by decide) .nil (code_spells thenArm h.1 (depth + 2)) rfl
    have no : Spells (bodyText (indented (depth + 1) "(else" :: Instr.linesOf (depth + 2) elseArm
        ++ [indented (depth + 1) ")"])) [form "else" (Instr.sexprs elseArm)] :=
      group_spells (depth + 1) "else" (by decide) .nil (code_spells elseArm h.2 (depth + 2)) rfl
    rw [Instr.lines, Instr.sexpr, arms, sexprs_isEmpty]
    by_cases he : elseArm.isEmpty = true
    · simp only [if_pos he, List.append_nil]
      exact group_spells depth "if" (by decide) .nil yes rfl
    · simp only [if_neg he]
      have both := yes.append no
      rw [← bodyText_append] at both
      exact group_spells depth "if" (by decide) .nil both rfl

theorem code_spells : (is : List Instr) → Instr.NamedIn is →
    ∀ depth, Spells (bodyText (Instr.linesOf depth is)) (Instr.sexprs is)
  | [], _, _ => .nil
  | i :: rest, h, depth => by
    rw [Instr.linesOf, bodyText_append]
    exact (instr_spells i h.1 depth).append (code_spells rest h.2 depth)

end

/-- The type of all values, as an item of a form. -/
def wordType : Sexpr := .atom (keyword "i32")

def quote (text : String) : Sexpr := .atom (34 :: Utf8.encode text ++ [34])

def importForm (i : String × Nat) : Sexpr :=
  form "import" [quote Builtin.source, quote i.1, form "func" (.atom (key i.1) ::
    List.replicate i.2 (form "param" [wordType]) ++ [form "result" [wordType]])]

def globalForm (g : String × Int) : Sexpr :=
  form "global" [.atom (key g.1), form "mut" [wordType],
    form "i32.const" [.atom (Utf8.encode (toString g.2))]]

/-- A declaration of a parameter or a variable. -/
def slotForm (word x : String) : Sexpr := form word [.atom (key x), wordType]

/-- What stands before the instructions of a function. -/
def signatureForms (f : Func Instr) : List Sexpr :=
  (if f.name = "" then [] else [.atom (key f.name)])
    ++ (if f.exportName = "" then [] else [form "export" [quote f.exportName]])
    ++ f.params.map (slotForm "param") ++ (if f.result then [form "result" [wordType]] else [])
    ++ f.locals.map (slotForm "local")

def funcForm (f : Func Instr) : Sexpr := form "func" (signatureForms f ++ Instr.sexprs f.body)

def moduleForm (m : Module Instr) : Sexpr :=
  form "module" (Builtin.imports.map importForm ++ m.globals.map globalForm
    ++ m.funcs.map funcForm ++ m.start.toList.map funcForm)

/-- Functions whose text can be read: names are words, and an export has no escapes. -/
structure Func.Readable (f : Func Instr) : Prop where
  name : IsName f.name
  params : ∀ x ∈ f.params, IsName x
  locals : ∀ x ∈ f.locals, IsName x
  body : Instr.NamedIn f.body
  exported : isVerbatim f.exportName = true

theorem inline_spells (word : String) (hw : isWord word = true) (h : Spells rest items)
    (ht : text = " (" ++ word ++ rest ++ ")") : Spells text [form word items] := by
  have blank : Spells " " [] := .blanks (by simp)
  refine (blank.append (.list hw h)).congr ?_ rfl
  rw [ht]
  apply String.toList_injective
  simp

theorem wordType_spells : Spells " i32" [wordType] := Spells.word (w := "i32") (by decide)

theorem slot_spells (word : String) (hw : isWord word = true) (hx : IsName x) :
    Spells (" (" ++ word ++ " $" ++ x ++ " i32)") [slotForm word x] := by
  refine inline_spells word hw ((name_spells hx).append wordType_spells) ?_
  apply String.toList_injective
  simp

theorem result_spells : Spells " (result i32)" [form "result" [wordType]] :=
  inline_spells "result" (by decide) wordType_spells rfl

theorem globalLine_spells (h : IsName g.1) : Spells (globalLine g) [globalForm g] := by
  have blank : Spells " " [] := .blanks (by simp)
  have lineEnd : Spells "\n" [] := .blanks (by simp)
  have type : Spells " (mut i32)" [form "mut" [wordType]] :=
    inline_spells "mut" (by decide) wordType_spells rfl
  have value := inline_spells "i32.const" (by decide) (.word (isWord_toString g.2)) rfl
  have items := ((name_spells h).append type).append value
  refine ((blank.append (inline_spells "global" (by decide) items rfl)).append lineEnd).congr ?_ rfl
  have opening : "  (global $" = " " ++ (" (" ++ ("global" ++ " $")) := rfl
  have middle : " (mut i32) (i32.const " = " (mut i32)" ++ (" (" ++ ("i32.const" ++ " ")) := rfl
  have closing : "))\n" = ")" ++ (")" ++ "\n") := rfl
  delta globalLine
  simp only [opening, middle, closing, String.append_assoc]

theorem importLine_spells (hn : IsName i.1) (hq : isVerbatim i.1 = true) :
    Spells (importLine i) [importForm i] := by
  have blank : Spells " " [] := .blanks (by simp)
  have lineEnd : Spells "\n" [] := .blanks (by simp)
  have source : isVerbatim Builtin.source = true := by decide
  have param : Spells " (param i32)" [form "param" [wordType]] :=
    inline_spells "param" (by decide) wordType_spells rfl
  have params : Spells (String.join (List.replicate i.2 " (param i32)"))
      (List.replicate i.2 (form "param" [wordType])) := by
    induction i.2 with
    | zero => exact .nil
    | succ n ih =>
      exact (param.append ih).congr (by rw [List.replicate_succ, String.join_cons]) rfl
  have func := inline_spells "func" (by decide)
    (((name_spells hn).append params).append result_spells) rfl
  have items := ((Spells.quoted source).append (.quoted hq)).append func
  refine ((blank.append (inline_spells "import" (by decide) items rfl)).append lineEnd).congr ?_ rfl
  have opening : "  (import \"" = " " ++ (" (" ++ ("import" ++ " \"")) := rfl
  have between : "\" \"" = "\"" ++ " \"" := rfl
  have signature : "\" (func $" = "\"" ++ (" (" ++ ("func" ++ " $")) := rfl
  have closing : " (result i32)))\n" = " (result i32)" ++ (")" ++ (")" ++ "\n")) := rfl
  delta importLine
  simp only [opening, between, signature, closing, String.append_assoc]

theorem optional_spells [Decidable p] (h : ¬ p → Spells text forms) :
    Spells (if p then "" else text) (if p then [] else forms) := by
  split
  · exact .nil
  · rename_i hp
    exact h hp

theorem text_spells (h : f.Readable) : Spells (f.mapBody (Instr.linesOf 0)).text [funcForm f] := by
  have margin : Spells "  " [] := .blanks (by simp)
  have deep : Spells "   " [] := .blanks (by simp)
  have lineEnd : Spells "\n" [] := .blanks (by simp)
  have name : Spells (if f.name = "" then "" else " $" ++ f.name)
      (if f.name = "" then [] else [.atom (key f.name)]) :=
    optional_spells fun _ => name_spells h.name
  have exported : Spells (if f.exportName = "" then "" else " (export \"" ++ f.exportName ++ "\")")
      (if f.exportName = "" then [] else [form "export" [quote f.exportName]]) := by
    refine optional_spells fun _ => inline_spells "export" (by decide) (.quoted h.exported) ?_
    apply String.toList_injective
    simp
  have params : Spells (String.join (f.params.map fun p => " (param $" ++ p ++ " i32)"))
      (f.params.map (slotForm "param")) :=
    (Spells.join fun x hx => slot_spells "param" (by decide) (h.params x hx)).congr rfl
      (List.map_eq_flatMap)
  have result : Spells (if f.result then " (result i32)" else "")
      (if f.result then [form "result" [wordType]] else []) := by
    cases f.result with
    | true => exact result_spells
    | false => exact .nil
  have locals : Spells (String.join (f.locals.map fun l => "    (local $" ++ l ++ " i32)\n"))
      (f.locals.map (slotForm "local")) := by
    have each : ∀ x ∈ f.locals, Spells ("    (local $" ++ x ++ " i32)\n") [slotForm "local" x] := by
      intro x hx
      refine ((deep.append (slot_spells "local" (by decide) (h.locals x hx))).append lineEnd).congr
        ?_ rfl
      apply String.toList_injective
      simp
    exact (Spells.join each).congr rfl List.map_eq_flatMap
  have signature := ((((name.append exported).append params).append result).append lineEnd).append
    locals
  have inner := (signature.append (code_spells f.body h.body 0)).append margin
  refine ((margin.append (.list (w := "func") (by decide) inner)).append lineEnd).congr ?_ ?_
  · have opening : "  (func" = "  " ++ ("(" ++ "func") := rfl
    delta Func.text
    simp only [String.append_assoc]
    rfl
  · simp [funcForm, form, signatureForms, keyword]

theorem render_spells (hg : ∀ g ∈ m.globals, IsName g.1) (hf : ∀ f ∈ m.funcs, f.Readable)
    (hs : ∀ f ∈ m.start, f.Readable) :
    Sexpr.readText (Utf8.encode m.render) = .ok [moduleForm m] := by
  have lineEnd : Spells "\n" [] := .blanks (by simp)
  have imports : Spells (String.join (Builtin.imports.map importLine))
      (Builtin.imports.map importForm) := by
    have each : ∀ i ∈ Builtin.imports, Spells (importLine i) [importForm i] := by
      intro i hi
      have known : ∀ i ∈ Builtin.imports, isWord ("$" ++ i.1) = true ∧ isVerbatim i.1 = true := by
        decide
      exact importLine_spells (known i hi).1 (known i hi).2
    exact (Spells.join each).congr rfl List.map_eq_flatMap
  have globals : Spells (String.join (m.globals.map globalLine)) (m.globals.map globalForm) :=
    (Spells.join fun g hg' => globalLine_spells (hg g hg')).congr rfl List.map_eq_flatMap
  have funcs : Spells (String.join ((m.funcs.map (·.mapBody (Instr.linesOf 0))).map Func.text))
      (m.funcs.map funcForm) := by
    rw [List.map_map]
    exact (Spells.join fun f hf' => text_spells (hf f hf')).congr rfl List.map_eq_flatMap
  have start : Spells (((m.start.map (·.mapBody (Instr.linesOf 0))).map Func.text).getD "")
      (m.start.toList.map funcForm) := by
    cases hm : m.start with
    | none => exact .nil
    | some f => exact text_spells (hs f hm)
  have inner := (((lineEnd.append imports).append globals).append funcs).append start
  have whole : Spells m.render [moduleForm m] := by
    refine ((Spells.list (w := "module") (by decide) inner).append lineEnd).congr ?_ ?_
    · have opening : "(module\n" = "(" ++ ("module" ++ "\n") := rfl
      delta Module.render Module.text
      simp only [String.append_assoc]
      rfl
    · simp [moduleForm, form, keyword]
  exact whole.readText_eq

end StackCode
end WordScript
