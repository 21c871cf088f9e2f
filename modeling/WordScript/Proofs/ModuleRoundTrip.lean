import WordScript.Proofs.Names

/-! Modules survive being written and loaded.

Code is written line by line, and a line is an instruction of its own, the head of a group or the
end of one. So the lines alone give a forest, without the reader of module texts. What is loaded
from the text of a module is the module, with that forest for the body of each function. -/
namespace WordScript
namespace StackCode
open Instr (NamedIn linesOf sexpr sexprs)

open Machine
open Sexpr (isWord)

/-- The words of a line, between its parentheses. -/
def lineAtoms (text : List Char) : List Sexpr :=
  (text.splitOn ' ').map fun word => .atom (Utf8.encode (String.ofList word))

/-- Reads on in lines, inside groups that are not closed yet. `items` are the forms of the innermost
group and `outer` those of the groups around it, all last first. -/
def forestFrom (outer : List (List Sexpr)) (items : List Sexpr) :
    List String → Option (List Sexpr)
  | [] => if outer.isEmpty then some items.reverse else none
  | line :: rest =>
    match line.toList.dropWhile (· == ' ') with
    | [')'] =>
      match outer with
      | [] => none
      | before :: outer => forestFrom outer (.list items.reverse :: before) rest
    | '(' :: text =>
      if text.getLast? = some ')' then
        forestFrom outer (.list (lineAtoms text.dropLast) :: items) rest
      else forestFrom (items :: outer) (lineAtoms text).reverse rest
    | _ => none

/-- The forms that lines stand for by their nesting. -/
def forest (lines : List String) : Option (List Sexpr) := forestFrom [] [] lines

section lines

variable (depth : Nat) (outer : List (List Sexpr)) (items : List Sexpr) (rest : List String)
variable {words : List String} {text : String}

def lineText (words : List String) : List Char := [' '].intercalate (words.map String.toList)

theorem not_blank_of_isWord (h : isWord w = true) :
    ' ' ∉ w.toList := by
  have plain := List.all_eq_true.1 (Bool.and_eq_true_iff.1 h).2
  intro hb
  have separator := plain ' ' hb
  revert separator
  decide

theorem lineAtoms_lineText (hw : ∀ w ∈ words, isWord w = true) (hne : words ≠ []) :
    lineAtoms (lineText words) = words.map fun w => .atom (Utf8.encode w) := by
  have split : (lineText words).splitOn ' ' = words.map String.toList := by
    refine List.splitOn_intercalate ' ' ?_ (by simpa using hne)
    intro l hl
    obtain ⟨w, hmem, rfl⟩ := List.mem_map.1 hl
    exact not_blank_of_isWord (hw w hmem)
  simp [lineAtoms, split]

theorem dropWhile_indented (ht : text.toList = c :: cs) (hc : c ≠ ' ') :
    (indented depth text).toList.dropWhile (· == ' ') = c :: cs := by
  rw [indented, String.toList_append, ht]
  simp [hc]

theorem forestFrom_closing (before : List Sexpr) :
    forestFrom (before :: outer) items (indented depth ")" :: rest) =
      forestFrom outer (.list items.reverse :: before) rest := by
  have ends : ")".toList = [')'] := rfl
  simp [forestFrom, dropWhile_indented depth ends (by decide)]

theorem forestFrom_line (words : List String) (ht : text.toList = '(' :: (lineText words ++ [')']))
    (hw : ∀ w ∈ words, isWord w = true) (hne : words ≠ []) :
    forestFrom outer items (indented depth text :: rest) =
      forestFrom outer (.list (words.map fun w => .atom (Utf8.encode w)) :: items) rest := by
  simp [forestFrom, dropWhile_indented depth ht (by decide), lineAtoms_lineText hw hne]

theorem closing_not_mem_lineText (hw : ∀ w ∈ words, isWord w = true) :
    ')' ∉ lineText words := by
  have plain : ∀ w ∈ words, ')' ∉ w.toList := fun w hmem hc => by
    have separator := List.all_eq_true.1 (Bool.and_eq_true_iff.1 (hw w hmem)).2 ')' hc
    revert separator
    decide
  unfold lineText
  induction words with
  | nil => simp
  | cons w ws ih =>
    have first := plain w List.mem_cons_self
    have others := ih (fun v hv => hw v (List.mem_cons_of_mem _ hv))
      fun v hv => plain v (List.mem_cons_of_mem _ hv)
    cases ws with
    | nil => simpa using first
    | cons v ws => simpa [List.intercalate_cons_cons, first] using others

theorem forestFrom_opening (ht : text.toList = '(' :: lineText words)
    (hw : ∀ w ∈ words, isWord w = true) (hne : words ≠ []) :
    forestFrom outer items (indented depth text :: rest) =
      forestFrom (items :: outer) (words.map fun w => .atom (Utf8.encode w)).reverse rest := by
  have head : (lineText words).getLast? ≠ some ')' := fun hl =>
    closing_not_mem_lineText hw (List.mem_of_getLast? hl)
  simp [forestFrom, dropWhile_indented depth ht (by decide), lineAtoms_lineText hw hne, head]

theorem forestFrom_group (words : List String) (ht : text.toList = '(' :: lineText words)
    (hw : ∀ w ∈ words, isWord w = true) (hne : words ≠ [])
    (inside : ∀ outer items rest, forestFrom outer items (lines ++ rest) = forestFrom outer (forms.reverse ++ items) rest) :
    forestFrom outer items (indented depth text :: lines ++ indented depth ")" :: rest) =
      forestFrom outer (.list (words.map (fun w => .atom (Utf8.encode w)) ++ forms) :: items)
        rest := by
  rw [List.cons_append, forestFrom_opening depth outer items _ ht hw hne, inside,
    forestFrom_closing]
  simp

end lines

theorem isWord_pair (hw : isWord word = true) (hx : IsName x) :
    ∀ w ∈ [word, "$" ++ x], isWord w = true := by
  have name : isWord ("$" ++ x) = true := hx
  simp [hw, name]

section

variable (depth : Nat) (outer : List (List Sexpr)) (items : List Sexpr) (rest : List String)
  (word : String)
include depth outer items rest word

theorem forestFrom_named (hw : isWord word = true) (hx : IsName x)
    (ht : text.toList = '(' :: word.toList ++ ' ' :: '$' :: x.toList ++ [')']) :
    forestFrom outer items (indented depth text :: rest) =
      forestFrom outer (form word [.atom (key x)] :: items) rest := by
  have line := forestFrom_line depth outer items rest [word, "$" ++ x]
    (ht.trans (by simp [lineText])) (isWord_pair hw hx) (by simp)
  simpa [form, key_eq, keyword] using line

theorem forestFrom_labelled (hw : isWord word = true) (hl : IsName l)
    (ht : text.toList = '(' :: word.toList ++ ' ' :: '$' :: l.toList)
    (inside : ∀ outer items rest, forestFrom outer items (lines ++ rest) = forestFrom outer (forms.reverse ++ items) rest) :
    forestFrom outer items (indented depth text :: lines ++ indented depth ")" :: rest) =
      forestFrom outer (form word (.atom (key l) :: forms) :: items) rest := by
  have group := forestFrom_group depth outer items rest [word, "$" ++ l]
    (ht.trans (by simp [lineText])) (isWord_pair hw hl) (by simp) inside
  simpa [form, key_eq, keyword] using group

theorem forestFrom_block (forms : List Sexpr) (hw : isWord word = true)
    (inside : ∀ outer items rest, forestFrom outer items (lines ++ rest) = forestFrom outer (forms.reverse ++ items) rest) :
    forestFrom outer items (indented depth ("(" ++ word) :: lines ++ indented depth ")" :: rest) =
      forestFrom outer (form word forms :: items) rest := by
  have group := forestFrom_group depth outer items rest [word]
    (show ("(" ++ word).toList = _ by simp [lineText]) (by simpa using hw) (by simp) inside
  simpa [form, keyword] using group

end

mutual

theorem forestFrom_instr : (i : Instr) → i.Named → ∀ depth outer items rest,
    forestFrom outer items (i.lines depth ++ rest) = forestFrom outer (i.sexpr :: items) rest
  | .nop, _, depth, outer, items, rest =>
    forestFrom_line depth outer items rest ["nop"] rfl (by decide) (by simp)
  | .ret, _, depth, outer, items, rest =>
    forestFrom_line depth outer items rest ["return"] rfl (by decide) (by simp)
  | .const v, _, depth, outer, items, rest =>
    forestFrom_line depth outer items rest ["i32.const", toString v]
      (by simp [lineText])
      (by simpa using ⟨by decide, isWord_toString v⟩) (by simp)
  | .get p x, h, depth, outer, items, rest =>
    forestFrom_named depth outer items rest (p.word ++ ".get") (by cases p <;> decide) h
      (by simp)
  | .set p x, h, depth, outer, items, rest =>
    forestFrom_named depth outer items rest (p.word ++ ".set") (by cases p <;> decide) h
      (by simp)
  | .op o, _, depth, outer, items, rest =>
    forestFrom_line depth outer items rest [o.name] (by simp [lineText])
      (by simpa using isWord_opName o) (by simp)
  | .call f, h, depth, outer, items, rest =>
    forestFrom_named depth outer items rest "call" (by decide) h (by simp)
  | .br l, h, depth, outer, items, rest =>
    forestFrom_named depth outer items rest "br" (by decide) h (by simp)
  | .brIf l, h, depth, outer, items, rest =>
    forestFrom_named depth outer items rest "br_if" (by decide) h (by simp)
  | .block l body, h, depth, outer, items, rest => by
    have group := forestFrom_labelled depth outer items rest "block"
      (by decide) h.1 (show ("(block $" ++ l).toList = _ by simp)
      (forestFrom_code body h.2 (depth + 1))
    simpa [Instr.lines, sexpr] using group
  | .loop l body, h, depth, outer, items, rest => by
    have group := forestFrom_labelled depth outer items rest "loop"
      (by decide) h.1 (show ("(loop $" ++ l).toList = _ by simp)
      (forestFrom_code body h.2 (depth + 1))
    simpa [Instr.lines, sexpr] using group
  | .cond thenArm elseArm, h, depth, outer, items, rest => by
    have yes := fun outer items rest => forestFrom_block (depth + 1) outer items rest
      "then" (sexprs thenArm) (by decide) (forestFrom_code thenArm h.1 (depth + 2))
    have no := fun outer items rest => forestFrom_block (depth + 1) outer items rest
      "else" (sexprs elseArm) (by decide) (forestFrom_code elseArm h.2 (depth + 2))
    by_cases he : elseArm.isEmpty = true
    · have arm : ∀ outer items rest, forestFrom outer items ((indented (depth + 1) "(then" ::
            linesOf (depth + 2) thenArm ++ [indented (depth + 1) ")"]) ++ rest) =
          forestFrom outer ([form "then" (sexprs thenArm)].reverse ++ items) rest := by
        simpa using yes
      have group := forestFrom_block depth outer items rest "if" _ (by decide) arm
      simpa [Instr.lines, sexpr, arms, sexprs_isEmpty, he] using group
    · have both : ∀ outer items rest, forestFrom outer items ((indented (depth + 1) "(then" ::
            linesOf (depth + 2) thenArm ++ indented (depth + 1) ")" ::
            (indented (depth + 1) "(else" :: linesOf (depth + 2) elseArm
              ++ [indented (depth + 1) ")"])) ++ rest) =
          forestFrom outer ([form "then" (sexprs thenArm),
            form "else" (sexprs elseArm)].reverse ++ items) rest := by
        intro outer items rest
        have arms := (yes outer items (indented (depth + 1) "(else" ::
          linesOf (depth + 2) elseArm ++ indented (depth + 1) ")" :: rest)).trans
          (no outer _ rest)
        simpa using arms
      have group := forestFrom_block depth outer items rest "if" _ (by decide) both
      simpa [Instr.lines, sexpr, arms, sexprs_isEmpty, he] using group

theorem forestFrom_code : (is : List Instr) → NamedIn is → ∀ depth outer items rest,
    forestFrom outer items (linesOf depth is ++ rest) =
      forestFrom outer ((sexprs is).reverse ++ items) rest
  | [], _, _, _, _, _ => rfl
  | i :: is, h, depth, outer, items, rest => by
    rw [linesOf, List.append_assoc, forestFrom_instr i h.1, forestFrom_code is h.2]
    simp [sexprs]

end

theorem forest_linesOf (h : NamedIn is) :
    forest (linesOf 0 is) = some (sexprs is) := by
  have read := forestFrom_code is h 0 [] [] []
  simpa [forest, forestFrom] using read

/-- What is loaded for a function whose body is lines: the names, each behind a dollar sign, and the
forest of the body. -/
structure Func.LoadsAs (f : Func String) (g : Machine.Func Import) : Prop where
  name : g.name = if f.name = "" then [] else key f.name
  params : g.params = f.params.map key
  result : g.result = f.result
  code : ∃ body, forest f.body = some body ∧ g.code = .defined (f.locals.map key) body

theorem loaded_loadsAs {f : Func Instr} (h : NamedIn f.body) :
    (f.mapBody (linesOf 0)).LoadsAs (loaded f) :=
  ⟨rfl, rfl, rfl, sexprs f.body, forest_linesOf h, rfl⟩

end StackCode

open StackCode in
/-- The module of a checked program is loaded from its text as it was written: the imports, the
globals with their initial values as words, the functions and last the entry, which has no name and
is all that is exported. Then it can be instantiated. -/
theorem module_survives_text (p t : Program) (mode : Arithmetic) (hk : p.Known) (hp : p.Writable)
    (h : p.check = .ok t) :
    ∃ m start image funcs entry inst, t.toStackCode mode = .ok m ∧ m.start = some start ∧
      start.name = "" ∧ Machine.Image.load (Utf8.encode m.render) = .ok image ∧
      image.funcs = Builtin.imports.map loadedImport ++ funcs ++ [entry] ∧
      List.Forall₂ Func.LoadsAs (m.mapBody (Instr.linesOf 0)).funcs funcs ∧
      (start.mapBody (Instr.linesOf 0)).LoadsAs entry ∧
      image.globals = m.globals.map loadedGlobal ∧
      image.exports = [(Utf8.encode Builtin.startName, entry)] ∧
      image.instantiate = .ok inst := by
  have checked := Rules.check_sound hk h
  have writable : t.Writable := by
    rw [← t.writable_erase, checked.same, p.writable_erase]
    exact hp
  obtain ⟨m, hm⟩ := toStackCode_succeeds checked.after checked.annotated
  obtain ⟨gs, startCode, hgs, hc, rfl⟩ := toStackCode_ok.1 hm
  have loadable := module_loadable writable checked.after hgs hc
  refine ⟨_, startOf t.stmts startCode, _, gs.map loaded, _, _, hm, rfl, rfl, load_render loadable,
    rfl, ?_, loaded_loadsAs loadable.entry.body, rfl, rfl, instantiate_imageOf loadable⟩
  rw [Module.mapBody, List.forall₂_map_left_iff, List.forall₂_map_right_iff, List.forall₂_same]
  exact fun g hg => loaded_loadsAs (loadable.readable g hg).body

/-- A program with letters beyond ASCII in its names, a global that starts as `None` and a
conditional in a loop. -/
def accented : Program :=
  let s : Span := default
  let name (x : String) : Expr := .name s none x .unresolved
  { vars := [⟨s, "größe", some .unit, ⟨s, none, .unit, 0⟩⟩]
    funcs := [{
      span := s, name := "λ", params := [⟨s, "δ_1", some .bool⟩], returns := some .bool
      locals := []
      body := [.while s (name "δ_1") [.cond s (name "δ_1")
        [.assign s "δ_1" .unresolved (.literal ⟨s, none, .isFalse, 0⟩)] [] []],
        .ret s (name "δ_1")] }]
    stmts := [.expr s (.call s none "λ" [.literal ⟨s, none, .isTrue, 0⟩])] }

/-- The global of the accented program is loaded as the word for `None`. -/
theorem accented_survives_text : accented.Known ∧ accented.Writable ∧
    ∃ t m image, accented.check = .ok t ∧ t.toStackCode .signed = .ok m ∧
      Machine.Image.load (Utf8.encode m.render) = .ok image ∧
      image.globals = [⟨StackCode.key "größe", true, BitVec.intMin 32⟩] := by
  have known : accented.Known := by
    refine ⟨by simp [accented, VarDecl.Known, LiteralKind.Known], ?_, ?_⟩
    · intro f hf
      cases List.mem_singleton.1 hf
      constructor <;> simp [LiteralKind.Known, Stmt.AllIn, Stmt.All, Stmt.AllInElifs,
        Stmt.KnownNode, Expr.All, Expr.KnownNode]
    · simp [accented, LiteralKind.Known, Stmt.AllIn, Stmt.All, Stmt.KnownNode, Expr.All, Expr.AllIn,
        Expr.KnownNode]
  have writable : accented.Writable := by
    have names : (accented.names.all isIdentifier) = true := by decide +kernel
    refine ⟨List.all_eq_true.1 names, ?_, ?_, ?_, ?_⟩ <;>
      simp [accented, Expr.Representable, Stmt.AllIn, Stmt.All, Stmt.AllInElifs, Expr.All,
        Expr.AllIn]
  obtain ⟨t, ht⟩ : ∃ t, accented.check = .ok t := ⟨_, rfl⟩
  obtain ⟨m, start, image, funcs, entry, inst, hm, -, -, hi, -, -, -, globals, -⟩ :=
    module_survives_text accented t .signed known writable ht
  have written : m.globals = [("größe", 2147483648)] := by
    cases ht
    cases hm
    rfl
  exact ⟨known, writable, t, m, image, ht, hm, hi, by rw [globals, written]; rfl⟩

end WordScript
