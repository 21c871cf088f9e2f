import WordScript.Proofs.Loading
import WordScript.Proofs.StackTyping
import WordScript.Token.Scanner

/-! Programs whose modules can be loaded.

A name of a program is written into the text of its module behind a dollar sign. If it is an
identifier it is one word there, and none of the names that code generation makes up. An integer is
written in decimal, and can be read again if it is in the range of words. -/
namespace WordScript

variable {f : FuncDef} {x : String}

/-- Expressions that are no integers out of the range of words, signed or unsigned. -/
def Expr.Representable : Expr → Prop
  | .literal l => l.kind = .int → -2147483648 ≤ l.value ∧ l.value < 4294967296
  | _ => True

theorem Literal.encode_range {type : Ty} (ht : Rules.HasType p place (.literal l) type)
    (hr : (Expr.literal l).Representable) : -2147483648 ≤ l.encode ∧ l.encode < 4294967296 := by
  cases ht with
  | int kind => simpa [Literal.encode, kind] using hr kind
  | truth kind => rcases kind with kind | kind <;> simp [Literal.encode, kind]
  | unit kind => simp [Literal.encode, Word.noneCode, kind]

def isIdentifier (x : String) : Bool :=
  match x.toList with
  | [] => false
  | c :: rest => Scanner.isNameStart c && rest.all Scanner.isNameChar

def Program.names (p : Program) : List String :=
  p.vars.map (·.name) ++ p.funcs.flatMap fun f => f.name :: Rules.slotNames f

/-- Programs whose names and integers can be written into the text of a module. -/
structure Program.Writable (p : Program) : Prop where
  names : ∀ x ∈ p.names, isIdentifier x = true
  vars : ∀ v ∈ p.vars, (Expr.literal v.init).Representable
  locals : ∀ f ∈ p.funcs, ∀ v ∈ f.locals, (Expr.literal v.init).Representable
  funcs : ∀ f ∈ p.funcs, Stmt.AllIn Expr.Representable (fun _ => True) f.body
  stmts : Stmt.AllIn Expr.Representable (fun _ => True) p.stmts

theorem Program.mem_names_func (p : Program) (hf : f ∈ p.funcs) : f.name ∈ p.names :=
  List.mem_append_right _ (List.mem_flatMap.2 ⟨f, hf, List.mem_cons_self⟩)

theorem Program.mem_names_slot (p : Program) (hf : f ∈ p.funcs) (hx : x ∈ Rules.slotNames f) :
    x ∈ p.names :=
  List.mem_append_right _ (List.mem_flatMap.2 ⟨f, hf, List.mem_cons_of_mem _ hx⟩)

theorem Program.Writable.func {p : Program} (h : p.Writable) (hf : f ∈ p.funcs) :
    isIdentifier f.name = true := h.names _ (p.mem_names_func hf)

theorem Program.Writable.slot {p : Program} (h : p.Writable) (hf : f ∈ p.funcs)
    (hx : x ∈ Rules.slotNames f) : isIdentifier x = true :=
  h.names _ (p.mem_names_slot hf hx)

theorem Expr.representable_erase (e : Expr) : e.erase.Representable ↔ e.Representable := by
  cases e <;> rfl

theorem Program.names_erase (p : Program) : p.erase.names = p.names := by
  simp [Program.names, Program.erase, List.flatMap_map, FuncDef.erase, VarDecl.erase,
    Rules.slotNames, Function.comp_def]

/-- Whether a program can be written does not depend on what checking fills in. -/
theorem Program.writable_erase (p : Program) : p.erase.Writable ↔ p.Writable := by
  have block : ∀ ss, Stmt.AllIn Expr.Representable (fun _ => True) (Stmt.eraseAll ss) ↔
      Stmt.AllIn Expr.Representable (fun _ => True) ss :=
    Stmt.allIn_erase Expr.representable_erase fun _ => Iff.rfl
  have init : ∀ v : VarDecl, (Expr.literal v.erase.init).Representable ↔
      (Expr.literal v.init).Representable := fun _ => Iff.rfl
  constructor
  · rintro ⟨names, vars, locals, funcs, stmts⟩
    refine ⟨p.names_erase ▸ names, ?_, ?_, ?_, (block _).1 stmts⟩
    · exact fun v hv => (init v).1 (vars _ (List.mem_map_of_mem hv))
    · exact fun f hf v hv =>
        (init v).1 (locals _ (List.mem_map_of_mem hf) _ (List.mem_map_of_mem hv))
    · exact fun f hf => (block _).1 (funcs _ (List.mem_map_of_mem hf))
  · rintro ⟨names, vars, locals, funcs, stmts⟩
    refine ⟨p.names_erase.symm ▸ names, ?_, ?_, ?_, (block _).2 stmts⟩
    · exact List.forall_mem_map.2 fun v hv => (init v).2 (vars v hv)
    · exact List.forall_mem_map.2 fun f hf =>
        List.forall_mem_map.2 fun v hv => (init v).2 (locals f hf v hv)
    · exact List.forall_mem_map.2 fun f hf => (block _).2 (funcs f hf)

/-- Programs whose names are read back from the text of a module as they are. -/
structure Program.Legible (p : Program) : Prop where
  names : ∀ x ∈ p.names, StackCode.IsName x
  named : ∀ f ∈ p.funcs, f.name ≠ ""

theorem Program.legible_erase (p : Program) : p.erase.Legible ↔ p.Legible := by
  constructor
  · rintro ⟨names, named⟩
    exact ⟨p.names_erase ▸ names, fun f hf => named f.erase (List.mem_map_of_mem hf)⟩
  · rintro ⟨names, named⟩
    exact ⟨p.names_erase.symm ▸ names, List.forall_mem_map.2 named⟩

theorem isNameChar_of_mem (h : isIdentifier x = true) :
    ∀ c ∈ x.toList, Scanner.isNameChar c = true := by
  unfold isIdentifier at h
  intro c hc
  split at h
  · cases h
  · rename_i d rest heq
    rw [heq] at hc
    rw [Bool.and_eq_true_iff] at h
    rcases List.mem_cons.1 hc with rfl | hc
    · rw [Scanner.isNameChar, h.1]
      rfl
    · exact List.all_eq_true.1 h.2 c hc

theorem Scanner.isNameChar_eq_false (ascii : c.toNat < 0x80) (alpha : c.isAlpha = false)
    (underscore : c ≠ '_') (digit : isDigit c = false) : isNameChar c = false := by
  rw [isNameChar, isNameStart, Letter.isLetter, alpha, digit,
    decide_eq_false (Nat.not_le.2 ascii), beq_eq_false_iff_ne.2 underscore]
  rfl

theorem isNameChar_separator (h : c ∈ Sexpr.separators) : Scanner.isNameChar c = false := by
  have plain : (Sexpr.separators.all fun c =>
      c.toNat < 0x80 && !c.isAlpha && c != '_' && !Scanner.isDigit c) = true := by decide
  have separator := List.all_eq_true.1 plain c h
  simp only [Bool.and_eq_true, decide_eq_true_eq, Bool.not_eq_true', bne_iff_ne] at separator
  obtain ⟨⟨⟨ascii, alpha⟩, underscore⟩, digit⟩ := separator
  exact Scanner.isNameChar_eq_false ascii alpha underscore digit

theorem ne_empty_of_isIdentifier (h : isIdentifier x = true) : x ≠ "" := by
  rintro rfl
  cases h

theorem ne_scratch_of_isIdentifier (h : isIdentifier x = true) : x ≠ StackCode.scratch := by
  rintro rfl
  cases h

theorem Program.Writable.clear {p : Program} (h : p.Writable) (hf : f ∈ p.funcs) :
    StackCode.scratch ∉ Rules.slotNames f :=
  fun hx => ne_scratch_of_isIdentifier (h.slot hf hx) rfl

namespace StackCode

open Sexpr (isWord)

theorem isWord_append (hx : isWord x = true) (hy : ∀ c ∈ y.toList, c ∉ Sexpr.separators) :
    isWord (x ++ y) = true := by
  simp only [isWord, Bool.and_eq_true, bne_iff_ne, List.all_eq_true, Bool.not_eq_true',
    List.contains_eq_mem, decide_eq_false_iff_not] at hx ⊢
  refine ⟨fun h => hx.1 (String.append_eq_empty_iff.1 h).1, fun c hc => ?_⟩
  rw [String.toList_append, List.mem_append] at hc
  exact hc.elim (hx.2 c) (hy c)

theorem isName_of_isIdentifier (h : isIdentifier x = true) : IsName x := by
  refine isWord_append (by decide) fun c hc hs => ?_
  have char := isNameChar_of_mem h c hc
  rw [isNameChar_separator hs] at char
  cases char

theorem isName_scratch : IsName scratch := rfl

theorem legible_of_writable {p : Program} (h : p.Writable) : p.Legible where
  names x hx := isName_of_isIdentifier (h.names x hx)
  named _ hf := ne_empty_of_isIdentifier (h.func hf)

theorem isName_number (text : String) (h : IsName text) (n : Nat) :
    IsName (text ++ toString n) := by
  rw [IsName, ← String.append_assoc]
  exact isWord_append h fun c hc => not_separator_of_isDigit (Numeral.isDigit_of_mem hc)

theorem isName_of_mem_labelsFrom (h : l ∈ labelsFrom n count) : IsName l := by
  obtain ⟨k, -, hk⟩ := List.mem_flatMap.1 h
  rcases List.mem_cons.1 hk with rfl | hk
  · exact isName_number ".brk_" rfl k
  · cases List.mem_singleton.1 hk
    exact isName_number ".loop_" rfl k

section code

variable {s : Surroundings} {labels : List String}

variable (hg : ∀ x ∈ s.globals, IsName x) (hs : ∀ x ∈ s.slots, IsName x)
  (hf : ∀ f ∈ s.funcs, IsName f.1)
include hg hs hf

mutual

theorem instr_named :
    (i : Instr) → ∀ {labels takes leaves}, InstrTyped s labels i takes leaves →
      (∀ l ∈ labels, IsName l) → (∀ l ∈ labelsOf i, IsName l) → i.Named
  | .get _ x, _, _, _, h, _, _ => by
    cases h with
    | getSlot mem => exact hs x mem
    | getGlobal mem => exact hg x mem
  | .set _ x, _, _, _, h, _, _ => by
    cases h with
    | setSlot mem => exact hs x mem
    | setGlobal mem => exact hg x mem
  | .call f, _, _, _, .call mem, _, _ => hf _ mem
  | .br l, _, _, _, .br mem, hl, _ => hl l mem
  | .brIf l, _, _, _, .brIf mem, hl, _ => hl l mem
  | .block l body, _, _, _, .block inside, hl, hb => by
    obtain ⟨self, others⟩ := List.forall_mem_cons.1 hb
    exact ⟨self, code_named body inside (List.forall_mem_cons.2 ⟨self, hl⟩) others⟩
  | .loop l body, _, _, _, .loop inside, hl, hb => by
    obtain ⟨self, others⟩ := List.forall_mem_cons.1 hb
    exact ⟨self, code_named body inside (List.forall_mem_cons.2 ⟨self, hl⟩) others⟩
  | .cond thenArm elseArm, _, _, _, .cond yes no, hl, hb => by
    obtain ⟨left, right⟩ := List.forall_mem_append.1 hb
    exact ⟨code_named thenArm yes hl left, code_named elseArm no hl right⟩
  | .nop, _, _, _, _, _, _ => trivial
  | .const _, _, _, _, _, _, _ => trivial
  | .op _, _, _, _, _, _, _ => trivial
  | .ret, _, _, _, _, _, _ => trivial

theorem code_named :
    (is : List Instr) → ∀ {labels before after}, CodeTyped s labels is before after →
      (∀ l ∈ labels, IsName l) → (∀ l ∈ labelsIn is, IsName l) → Instr.NamedIn is
  | [], _, _, _, _, _, _ => trivial
  | i :: rest, _, _, _, .cons head tail, hl, hb => by
    obtain ⟨first, others⟩ := List.forall_mem_append.1 hb
    exact ⟨instr_named i head hl first, code_named rest tail hl others⟩

end

end code

section modules

variable {p : Program} {mode : Arithmetic} {gs : List (Func Instr)} {startCode : List Instr}

theorem isName_import : ∀ i ∈ Builtin.imports, IsName i.1 := by
  have words : (Builtin.imports.all fun i => isWord ("$" ++ i.1)) = true := by decide
  exact List.all_eq_true.1 words

section

variable (names : ∀ x ∈ p.names, IsName x)
include names

theorem namedIn_body
    (h : List.Forall₂ (fun f g => funcDef (contextAt mode p none) f = .ok g) p.funcs gs)
    (hs : ∀ x ∈ g.params ++ g.locals, IsName x) (hl : ∀ l ∈ labelsIn g.body, IsName l)
    (ht : CodeTyped (surroundings ⟨globalsOf p, gs, some (startOf p.stmts startCode)⟩ g) [] g.body 0 n) :
    Instr.NamedIn g.body := by
  refine code_named ?_ hs ?_ g.body ht nofun hl
  · intro x hx
    refine names x (List.mem_append_left _ ?_)
    simpa [surroundings, globalsOf] using hx
  · intro f hf
    rcases List.mem_append.1 hf with hf | hf
    · obtain ⟨i, hi, rfl⟩ := List.mem_map.1 hf
      exact isName_import i hi
    · rw [funcDefs_signatures h] at hf
      obtain ⟨d, hd, rfl⟩ := List.mem_map.1 hf
      exact names _ (p.mem_names_func hd)

section

variable (hw : Rules.WellTyped p)
  (h : List.Forall₂ (fun f g => funcDef (contextAt mode p none) f = .ok g) p.funcs gs)
include hw h

theorem funcOf_readable (startCode : List Instr) (hf : f ∈ p.funcs)
    (hb : stmts (contextAt mode p (some f)) 0 f.body = .ok body) : (funcOf f body).Readable := by
  have params : ∀ x ∈ (funcOf f body).params, IsName x := fun x hx =>
    names x (p.mem_names_slot hf (List.mem_append_left _ hx))
  have locals : ∀ x ∈ (funcOf f body).locals, IsName x := by
    intro x hx
    rcases List.mem_cons.1 hx with rfl | hx
    · exact isName_scratch
    · exact names x (p.mem_names_slot hf (List.mem_append_right _ hx))
  refine ⟨names _ (p.mem_names_func hf), params, locals, ?_, rfl⟩
  have typed : CodeTyped (surroundings ⟨globalsOf p, gs, some (startOf p.stmts startCode)⟩
      (funcOf f body)) [] (funcOf f body).body 0 1 := funcOf_typed hw h hf hb
  refine namedIn_body names h (List.forall_mem_append.2 ⟨params, locals⟩) ?_ typed
  intro l hl
  have label : l ∈ labelsFrom 0 (loopsIn f.body) := by
    rw [funcOf, labelsIn_append, labelsIn_append, labelsIn_inits, block_labels f.body hb] at hl
    simpa [labelsIn, labelsOf] using hl
  exact isName_of_mem_labelsFrom label

section

variable (hc : stmts (contextAt mode p none) 0 p.stmts = .ok startCode)
include hc

theorem startOf_readable : (startOf p.stmts startCode).Readable := by
  have locals : ∀ x ∈ (startOf p.stmts startCode).locals, IsName x := by
    intro x hx
    cases List.mem_singleton.1 hx
    exact isName_scratch
  have unnamed : IsName "" := rfl
  have exported : Sexpr.isVerbatim Builtin.startName = true := by decide
  refine ⟨unnamed, nofun, locals, ?_, exported⟩
  refine namedIn_body names h locals ?_ (startOf_valid hw h hc).code
  intro l hl
  have label : l ∈ labelsFrom 0 (loopsIn p.stmts) := by
    rw [startOf, labelsIn_append, block_labels p.stmts hc] at hl
    cases hr : hasResult p.stmts <;> simpa [labelsIn, labelsOf, hr] using hl
  exact isName_of_mem_labelsFrom label

theorem module_legible :
    Module.Legible ⟨globalsOf p, gs, some (startOf p.stmts startCode)⟩
      (startOf p.stmts startCode) where
  starts := rfl
  globals g hg := by
    obtain ⟨v, hv, rfl⟩ := List.mem_map.1 hg
    exact names _ (List.mem_append_left _ (List.mem_map_of_mem hv))
  globalNames := by simpa [globalsOf, Function.comp_def] using hw.globals
  readable g hg := by
    obtain ⟨f, hf, hfg⟩ := forall₂_mem_right h hg
    obtain ⟨body, hb, rfl⟩ := funcDef_ok.1 hfg
    exact funcOf_readable names hw h startCode hf hb
  unexported g hg := by
    obtain ⟨f, hf, hfg⟩ := forall₂_mem_right h hg
    obtain ⟨body, hb, rfl⟩ := funcDef_ok.1 hfg
    rfl
  funcNames := funcNames_nodup hw h
  entry := startOf_readable names hw h hc
  entryName := rfl
  entryExport := rfl

end

end

end

/-- The module of a well-typed program can be loaded from its text if the initial values of its
globals are words. -/
theorem legible_loadable (hp : p.Legible) (hw : Rules.WellTyped p)
    (hr : ∀ v ∈ p.vars, -2147483648 ≤ v.init.encode ∧ v.init.encode < 4294967296)
    (h : List.Forall₂ (fun f g => funcDef (contextAt mode p none) f = .ok g) p.funcs gs)
    (hc : stmts (contextAt mode p none) 0 p.stmts = .ok startCode) :
    Module.Loadable ⟨globalsOf p, gs, some (startOf p.stmts startCode)⟩
      (startOf p.stmts startCode) := by
  have legible := module_legible hp.names hw h hc
  refine ⟨rfl, fun g hg => ⟨legible.globals g hg, ?_⟩, legible.globalNames, legible.readable,
    fun g hg => ⟨?_, legible.unexported g hg⟩, legible.funcNames, legible.entry, rfl, rfl⟩
  · obtain ⟨v, hv, rfl⟩ := List.mem_map.1 hg
    exact hr v hv
  · obtain ⟨f, hf, hfg⟩ := forall₂_mem_right h hg
    obtain ⟨body, hb, rfl⟩ := funcDef_ok.1 hfg
    exact hp.named f hf

theorem module_loadable (hp : p.Writable) (hw : Rules.WellTyped p)
    (h : List.Forall₂ (fun f g => funcDef (contextAt mode p none) f = .ok g) p.funcs gs)
    (hc : stmts (contextAt mode p none) 0 p.stmts = .ok startCode) :
    Module.Loadable ⟨globalsOf p, gs, some (startOf p.stmts startCode)⟩
      (startOf p.stmts startCode) := by
  refine legible_loadable (legible_of_writable hp) hw (fun v hv => ?_) h hc
  obtain ⟨type, -, literal⟩ := hw.inits v hv
  exact Literal.encode_range literal (hp.vars v hv)

end modules

end StackCode
end WordScript
