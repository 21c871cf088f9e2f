import Mathlib.Tactic.Common
import WordScript.Sexpr.Reader

/-! Reading S-expressions by positions.

A second reader of S-expressions keeps a position in the text and looks every byte up there. A
position may lie outside of the text, and then the lookup fails. It never does: this reader answers
as the one that is fed the bytes one at a time. -/
namespace WordScript

/-- How a function ends that looks things up by their positions and may refuse its input. -/
inductive Slip (ε : Type)
  | refused (e : ε)
  /-- There is nothing at a position that was looked up. -/
  | outside
  | outOfFuel

/-- The items from a position on, which may be the position behind the last one. -/
def suffix? {α : Type} (l : List α) (start : Nat) : Option (List α) :=
  if start ≤ l.length then some (l.drop start) else none

def segment? {α : Type} (l : List α) (start stop : Nat) : Option (List α) :=
  if start ≤ stop ∧ stop ≤ l.length then some ((l.take stop).drop start) else none

namespace Slip

variable {ε α : Type}

def need : Option α → Except (Slip ε) α
  | some a => .ok a
  | none => .error .outside

def refuse (e : ε) : Except (Slip ε) α := .error (.refused e)

end Slip

namespace Sexpr
namespace Indexed

open Reader (isBlank endsWord)
open Slip (need refuse)

abbrev Read := Except (Slip Fault)

def inLine (b : UInt8) : Bool := b != 10

def inWord (b : UInt8) : Bool := !endsWord b

/-- The first position from a given one on whose byte fails a test, or the end of the text. -/
def skipWhile (test : UInt8 → Bool) (text : Bytes) (pos : Nat) : Read Nat :=
  if pos < text.length then do
    if test (← need text[pos]?) then skipWhile test text (pos + 1) else return pos
  else return pos
termination_by text.length - pos

/-- The position of the quotation mark that closes a string, or one not inside the text. -/
def stringEnd (text : Bytes) (pos : Nat) : Read Nat :=
  if pos < text.length then do
    let b ← need text[pos]?
    if b == 34 then return pos
    else if b == 92 then stringEnd text (pos + 2)
    else stringEnd text (pos + 1)
  else return pos
termination_by text.length - pos

/-- How many bytes stand before the first `;)`. -/
def commentEnd? : Bytes → Option Nat
  | [] => none
  | b :: rest =>
    if b = 59 ∧ rest.head? = some 41 then some 0 else (commentEnd? rest).map (· + 1)

def skipSpace (text : Bytes) : (fuel pos : Nat) → Read Nat
  | 0, _ => .error .outOfFuel
  | fuel + 1, pos =>
    if pos < text.length then do
      if isBlank (← need text[pos]?) then skipSpace text fuel (pos + 1)
      else
        let rest ← need (suffix? text pos)
        if rest.take 2 = [59, 59] then skipSpace text fuel (← skipWhile inLine text pos)
        else if rest.take 2 = [40, 59] then
          match commentEnd? rest with
          | none => refuse (.unclosedComment pos)
          | some n => skipSpace text fuel (pos + n + 2)
        else return pos
    else return pos

mutual

/-- Reads the item at a position, and gives the position after it. -/
def readItem (text : Bytes) : (fuel pos : Nat) → Read (Sexpr × Nat)
  | 0, _ => .error .outOfFuel
  | fuel + 1, pos => do
    let b ← need text[pos]?
    if b == 40 then readItems text fuel pos (pos + 1) []
    else if b == 41 then refuse (.unopened pos)
    else if b == 34 then
      let stop ← stringEnd text (pos + 1)
      if text.length ≤ stop then refuse (.unclosedString pos)
      else return (.atom (← need (segment? text pos (stop + 1))), stop + 1)
    else
      let stop ← skipWhile inWord text pos
      if stop = pos then refuse (.semicolon pos)
      else return (.atom (← need (segment? text pos stop)), stop)

/-- Reads the rest of a list; the items before are given last first. -/
def readItems (text : Bytes) : (fuel start pos : Nat) → List Sexpr → Read (Sexpr × Nat)
  | 0, _, _, _ => .error .outOfFuel
  | fuel + 1, start, pos, items => do
    let pos ← skipSpace text fuel pos
    if text.length ≤ pos then refuse (.unclosedList start)
    else if (← need text[pos]?) == 41 then return (.list items.reverse, pos + 1)
    else
      let (item, pos) ← readItem text fuel pos
      readItems text fuel start pos (item :: items)

end

/-- Reads the rest of a text; the items before are given last first. -/
def readRest (text : Bytes) : (fuel pos : Nat) → List Sexpr → Read (List Sexpr)
  | 0, _, _ => .error .outOfFuel
  | fuel + 1, pos, items => do
    let pos ← skipSpace text fuel pos
    if text.length ≤ pos then return items.reverse
    else
      let (item, pos) ← readItem text fuel pos
      readRest text fuel pos (item :: items)

def readText (text : Bytes) : Read (List Sexpr) := readRest text (2 * text.length + 3) 0 []

end Indexed

namespace Reader

open Indexed (inLine inWord commentEnd?)

/-- What becomes of a text of which a reader has yet to read some bytes. -/
def outcome (r : Reader) (bytes : Bytes) : Except Fault (List Sexpr) := do
  (← r.readAll bytes).finish

abbrev between (pos : Nat) (items : List Sexpr) (opened : List (Nat × List Sexpr)) : Reader :=
  ⟨pos, .between, items, opened⟩

variable {pos : Nat} {items : List Sexpr} {opened : List (Nat × List Sexpr)} {b : UInt8}
  {rest : Bytes}

theorem outcome_cons (r : Reader) (b : UInt8) (rest : Bytes) :
    r.outcome (b :: rest) = r.step b >>= fun r => r.outcome rest := by
  rw [outcome, readAll]
  cases r.step b <;> rfl

theorem outcome_blank (h : isBlank b = true) :
    (between pos items opened).outcome (b :: rest) = (between (pos + 1) items opened).outcome rest := by
  rw [outcome_cons]
  simp only [step, read, fresh, h]
  rfl

theorem outcome_lineComment :
    outcome ⟨pos, .lineComment, items, opened⟩ rest =
      (between (pos + (rest.takeWhile inLine).length) items opened).outcome
        (rest.dropWhile inLine) := by
  induction rest generalizing pos with
  | nil => rfl
  | cons b rest ih =>
    cases other : inLine b with
    | false =>
      obtain rfl : b = 10 := by simpa [inLine] using other
      exact (outcome_blank (b := 10) (by decide)).symm
    | true =>
      have newline : (b == 10) = false := by simpa [inLine] using other
      rw [outcome_cons, List.takeWhile_cons_of_pos other, List.dropWhile_cons_of_pos other,
        List.length_cons, show pos + ((rest.takeWhile inLine).length + 1) =
          pos + 1 + (rest.takeWhile inLine).length by omega, ← ih]
      simp only [step, read, newline]
      rfl

theorem eq_of_take_two {bytes : Bytes} (h : bytes.take 2 = [a, b]) :
    ∃ rest, bytes = a :: b :: rest := by
  refine ⟨bytes.drop 2, ?_⟩
  conv_lhs => rw [← List.take_append_drop 2 bytes, h]
  rfl

theorem outcome_semicolons (h : rest.take 2 = [59, 59]) :
    (between pos items opened).outcome rest =
      (between (pos + (rest.takeWhile inLine).length) items opened).outcome
        (rest.dropWhile inLine) := by
  obtain ⟨rest, rfl⟩ := eq_of_take_two h
  have comment : (between pos items opened).outcome (59 :: 59 :: rest) =
      outcome ⟨pos + 1 + 1, .lineComment, items, opened⟩ rest := by
    exact outcome_cons _ _ _
  have other : inLine 59 = true := by decide
  rw [comment, outcome_lineComment, List.takeWhile_cons_of_pos other,
    List.takeWhile_cons_of_pos other, List.dropWhile_cons_of_pos other,
    List.dropWhile_cons_of_pos other, List.length_cons, List.length_cons,
    show pos + 1 + 1 + (rest.takeWhile inLine).length =
      pos + ((rest.takeWhile inLine).length + 1 + 1) by omega]

/-- Goes on after the comment that the first `;)` closes. -/
def closeComment (start pos : Nat) (items : List Sexpr) (opened : List (Nat × List Sexpr))
    (bytes : Bytes) : Except Fault (List Sexpr) :=
  match commentEnd? bytes with
  | none => .error (.unclosedComment start)
  | some n => (between (pos + n + 2) items opened).outcome (bytes.drop (n + 2))

theorem closeComment_cons {start : Nat} (h : ¬ (b = 59 ∧ rest.head? = some 41)) :
    closeComment start pos items opened (b :: rest) =
      closeComment start (pos + 1) items opened rest := by
  rw [closeComment, closeComment, commentEnd?, if_neg h]
  cases commentEnd? rest with
  | none => rfl
  | some n =>
    change (between (pos + (n + 1) + 2) items opened).outcome (rest.drop (n + 2)) = _
    rw [show pos + (n + 1) + 2 = pos + 1 + n + 2 by omega]

/-- A comment between parentheses goes on to the first `;)`; a semicolon that was read last counts
as the start of it. -/
theorem outcome_blockComment {start : Nat} :
    outcome ⟨pos + after.toNat, .blockComment start after, items, opened⟩ rest =
      closeComment start pos items opened (if after then 59 :: rest else rest) := by
  induction rest generalizing pos after with
  | nil => cases after <;> rfl
  | cons b rest ih =>
    -- What comes after the next byte unless that byte closes the comment.
    have goes (pos : Nat) : outcome ⟨pos + 1, .blockComment start (b == 59), items, opened⟩ rest =
        closeComment start pos items opened (b :: rest) := by
      by_cases semi : b = 59
      · subst semi
        exact @ih pos true
      · rw [closeComment_cons (fun h => semi h.1), beq_eq_false_iff_ne.2 semi]
        exact @ih (pos + 1) false
    rw [outcome_cons]
    cases after with
    | false => exact goes pos
    | true =>
      by_cases closes : b = 41
      · subst closes
        rfl
      · have open_ : ¬ ((59 : UInt8) = 59 ∧ (b :: rest).head? = some 41) := by simp [closes]
        rw [if_pos rfl, closeComment_cons open_, ← goes]
        simp only [step, read, beq_eq_false_iff_ne.2 closes]
        rfl

theorem outcome_comment (h : rest.take 2 = [40, 59]) :
    (between pos items opened).outcome rest = closeComment pos pos items opened rest := by
  obtain ⟨rest, rfl⟩ := eq_of_take_two h
  rw [closeComment_cons (fun h => absurd h.1 (by decide))]
  have inside : outcome ⟨pos + 1 + true.toNat, .blockComment pos true, items, opened⟩ rest =
      closeComment pos (pos + 1) items opened (59 :: rest) := outcome_blockComment
  exact inside

theorem outcome_word :
    outcome ⟨pos, .word bytes, items, opened⟩ rest =
      (between (pos + (rest.takeWhile inWord).length)
        (.atom (bytes.reverse ++ rest.takeWhile inWord) :: items) opened).outcome
        (rest.dropWhile inWord) := by
  induction rest generalizing pos bytes with
  | nil => simp only [List.takeWhile_nil, List.append_nil]; rfl
  | cons b rest ih =>
    rw [outcome_cons]
    cases goes : inWord b with
    | false =>
      have ends : endsWord b = true := by simpa [inWord] using goes
      rw [List.takeWhile_cons_of_neg (by simp [goes]), List.dropWhile_cons_of_neg (by simp [goes]),
        outcome_cons, List.append_nil]
      simp only [step, read, ends]
      rfl
    | true =>
      have stays : endsWord b = false := by simpa [inWord] using goes
      rw [List.takeWhile_cons_of_pos goes, List.dropWhile_cons_of_pos goes, List.length_cons,
        show pos + ((rest.takeWhile inWord).length + 1) =
          pos + 1 + (rest.takeWhile inWord).length by omega,
        show bytes.reverse ++ b :: rest.takeWhile inWord =
          (b :: bytes).reverse ++ rest.takeWhile inWord by simp, ← ih]
      simp only [step, read, stays]
      rfl

theorem outcome_letter (h : endsWord b = false) :
    (between pos items opened).outcome (b :: rest) =
      outcome ⟨pos + 1, .word [b], items, opened⟩ rest := by
  have other : isBlank b = false ∧ (b == 40) = false ∧ (b == 41) = false ∧ (b == 34) = false ∧
      (b == 59) = false := by
    simpa only [endsWord, Bool.or_eq_false_iff, and_assoc] using h
  obtain ⟨blank, opens, closes, quote, semi⟩ := other
  rw [outcome_cons]
  simp only [step, read, fresh, blank, opens, closes, quote, semi]
  rfl

theorem outcome_semicolon (h : rest.head? ≠ some 59) :
    (between pos items opened).outcome (59 :: rest) = .error (.semicolon pos) := by
  change outcome ⟨pos + 1, .semicolon pos, items, opened⟩ rest = _
  cases rest with
  | nil => rfl
  | cons b rest =>
    have other : (b == 59) = false := by simpa using h
    rw [outcome_cons]
    simp only [step, read, other]
    rfl

section strings

variable {start : Nat} {bytes : Bytes}

theorem outcome_quote : outcome ⟨pos, .string start bytes false, items, opened⟩ (34 :: rest) =
    (between (pos + 1) (.atom (bytes.reverse ++ [34]) :: items) opened).outcome rest := by
  rw [← List.reverse_cons]
  rfl

theorem outcome_escape :
    outcome ⟨pos, .string start bytes false, items, opened⟩ (92 :: c :: rest) =
      outcome ⟨pos + 1 + 1, .string start (c :: 92 :: bytes) false, items, opened⟩ rest := by
  exact outcome_cons _ _ _

theorem outcome_inside (quote : b ≠ 34) (escape : b ≠ 92) :
    outcome ⟨pos, .string start bytes false, items, opened⟩ (b :: rest) =
      outcome ⟨pos + 1, .string start (b :: bytes) false, items, opened⟩ rest := by
  rw [outcome_cons]
  simp only [step, read, beq_eq_false_iff_ne.2 quote, beq_eq_false_iff_ne.2 escape]
  rfl

end strings

theorem outcome_paren (h : rest.head? ≠ some 59) :
    (between pos items opened).outcome (40 :: rest) =
      (between (pos + 1) [] ((pos, items) :: opened)).outcome rest := by
  change outcome ⟨pos + 1, .paren pos, items, opened⟩ rest = _
  cases rest with
  | nil => rfl
  | cons b rest =>
    have list : (b == 59) = false := by simpa using h
    rw [outcome_cons, outcome_cons]
    simp only [step, read, list]
    rfl

end Reader

namespace Indexed

open Reader
open Slip (need refuse)

variable {text : Bytes} {pos : Nat}
variable {b : UInt8} {rest : Bytes} {next fuel : Nat}

theorem need_getElem (h : text.drop pos = b :: rest) : (need text[pos]? : Read UInt8) = .ok b := by
  have : text[pos]? = some b := by
    rw [← Nat.add_zero pos, ← List.getElem?_drop, h]
    rfl
  rw [this]
  rfl

theorem drop_succ (h : text.drop pos = b :: rest) : text.drop (pos + 1) = rest := by
  rw [← List.drop_drop, h]
  rfl

theorem exists_drop (h : pos < text.length) : ∃ b rest, text.drop pos = b :: rest :=
  ⟨_, _, List.drop_eq_getElem_cons h⟩

theorem lt_of_drop (h : text.drop pos = b :: rest) : pos < text.length := by
  by_contra past
  rw [List.drop_eq_nil_of_le (Nat.not_lt.1 past)] at h
  cases h

theorem drop_takeWhile (test : UInt8 → Bool) :
    text.drop (pos + ((text.drop pos).takeWhile test).length) = (text.drop pos).dropWhile test := by
  rw [← List.drop_drop]
  generalize text.drop pos = rest
  induction rest with
  | nil => rfl
  | cons b rest ih =>
    cases h : test b with
    | false =>
      rw [List.takeWhile_cons_of_neg (by simp [h]), List.dropWhile_cons_of_neg (by simp [h])]
      rfl
    | true =>
      rw [List.takeWhile_cons_of_pos h, List.dropWhile_cons_of_pos h]
      exact ih

theorem skipWhile_eq (test : UInt8 → Bool) :
    skipWhile test text pos = .ok (pos + ((text.drop pos).takeWhile test).length) := by
  induction left : text.length - pos generalizing pos with
  | zero =>
    rw [skipWhile, if_neg (by omega), List.drop_eq_nil_of_le (by omega)]
    rfl
  | succ left ih =>
    obtain ⟨b, rest, hb⟩ := exists_drop (show pos < text.length by omega)
    rw [skipWhile, if_pos (by omega), need_getElem hb, hb]
    change (if test b = true then _ else _) = _
    cases h : test b with
    | false =>
      rw [List.takeWhile_cons_of_neg (by simp [h])]
      rfl
    | true =>
      rw [List.takeWhile_cons_of_pos h, List.length_cons, if_pos rfl, ih (by omega), drop_succ hb]
      congr 1
      omega

/-- An item or the end of a list stands at a position, after blanks and comments. -/
def Begins (text : Bytes) (pos : Nat) : Prop :=
  ∃ b rest, text.drop pos = b :: rest ∧ isBlank b = false ∧ (b :: rest).take 2 ≠ [59, 59] ∧
    (b :: rest).take 2 ≠ [40, 59]

/-- Skipping blanks and comments from a position on agrees with the reader. -/
def Skips (text : Bytes) (pos : Nat) (x : Read Nat) : Prop :=
  (∃ stop, x = .ok stop ∧ pos ≤ stop ∧ (stop < text.length → Begins text stop) ∧
    ∀ items opened, (between pos items opened).outcome (text.drop pos) =
      (between stop items opened).outcome (text.drop stop)) ∨
  ∃ fault, x = refuse fault ∧
    ∀ items opened, (between pos items opened).outcome (text.drop pos) = .error fault

/-- What skips on from a later position skips from an earlier one between which the reader reads
nothing of note. -/
theorem Skips.from (h : Skips text next x) (later : pos ≤ next)
    (same : ∀ items opened, (between pos items opened).outcome (text.drop pos) = (between next items opened).outcome (text.drop next)) :
    Skips text pos x := by
  obtain ⟨stop, eq, le, begins, reads⟩ | ⟨fault, eq, reads⟩ := h
  · exact .inl ⟨stop, eq, by omega, begins, fun items opened =>
      (same items opened).trans (reads items opened)⟩
  · exact .inr ⟨fault, eq, fun items opened => (same items opened).trans (reads items opened)⟩

theorem skipSpace_skips (enough : text.length - pos < fuel) :
    Skips text pos (skipSpace text fuel pos) := by
  induction fuel generalizing pos with
  | zero => omega
  | succ fuel ih =>
    rw [skipSpace]
    by_cases inside : pos < text.length
    · obtain ⟨b, rest, hb⟩ := exists_drop inside
      have whole : (need (suffix? text pos) : Read Bytes) = .ok (b :: rest) := by
        rw [suffix?, if_pos (by omega), hb]
        rfl
      rw [if_pos inside, need_getElem hb, whole]
      change Skips text pos (if isBlank b = true then _ else if (b :: rest).take 2 = [59, 59] then _
        else if (b :: rest).take 2 = [40, 59] then _ else pure pos)
      split
      · rename_i blank
        have left : text.length - (pos + 1) < fuel := by omega
        refine (ih left).from (by omega) fun items opened => ?_
        rw [hb, outcome_blank blank, drop_succ hb]
      · rename_i blank
        split
        · rename_i semicolons
          have two : 2 ≤ ((text.drop pos).takeWhile inLine).length := by
            obtain ⟨more, eq⟩ := eq_of_take_two semicolons
            have other : inLine 59 = true := by decide
            rw [hb, eq, List.takeWhile_cons_of_pos other, List.takeWhile_cons_of_pos other]
            simp only [List.length_cons]
            omega
          rw [skipWhile_eq]
          refine (ih (by omega)).from (by omega) fun items opened => ?_
          rw [drop_takeWhile, hb, outcome_semicolons semicolons]
        · rename_i line
          split
          · rename_i comment
            cases h : commentEnd? (b :: rest) with
            | none =>
              refine .inr ⟨_, rfl, fun items opened => ?_⟩
              rw [hb, outcome_comment comment, closeComment, h]
            | some n =>
              have left : text.length - (pos + n + 2) < fuel := by omega
              refine (ih left).from (by omega) fun items opened => ?_
              rw [hb, outcome_comment comment, closeComment, h, ← hb]
              simp [Nat.add_assoc]
          · rename_i block
            refine .inl ⟨pos, rfl, Nat.le_refl _, fun _ => ⟨b, rest, hb, ?_, line, block⟩,
              fun _ _ => rfl⟩
            simpa using blank
    · rw [if_neg inside]
      exact .inl ⟨pos, rfl, Nat.le_refl _, fun h => absurd h inside, fun _ _ => rfl⟩

theorem slice_cons (h : text.drop pos = b :: rest) (le : pos < stop) :
    (text.take stop).drop pos = b :: (text.take stop).drop (pos + 1) := by
  rw [List.drop_take, List.drop_take, h, drop_succ h,
    show stop - pos = stop - (pos + 1) + 1 by omega]
  rfl

theorem stringEnd_spec (text : Bytes) (pos : Nat) :
    ∃ stop, stringEnd text pos = .ok stop ∧ pos ≤ stop ∧ ∀ start bytes items opened,
      (stop < text.length → outcome ⟨pos, .string start bytes false, items, opened⟩ (text.drop pos) =
        (between (stop + 1) (.atom (bytes.reverse ++ (text.take (stop + 1)).drop pos) :: items)
          opened).outcome (text.drop (stop + 1))) ∧
      (text.length ≤ stop → outcome ⟨pos, .string start bytes false, items, opened⟩ (text.drop pos) =
        .error (.unclosedString start)) := by
  induction left : text.length - pos using Nat.strongRecOn generalizing pos with
  | ind left ih =>
    rw [stringEnd]
    by_cases inside : pos < text.length
    · obtain ⟨b, rest, hb⟩ := exists_drop inside
      rw [if_pos inside, need_getElem hb]
      change ∃ stop, (if (b == 34) = true then _ else if (b == 92) = true then _ else _) = _ ∧ _
      by_cases quote : b = 34
      · subst quote
        refine ⟨pos, rfl, Nat.le_refl _, fun start bytes items opened => ⟨fun _ => ?_, fun h => ?_⟩⟩
        · rw [hb, outcome_quote, slice_cons hb (by omega), drop_succ hb, List.drop_take,
            Nat.sub_self, List.take_zero]
        · omega
      rw [if_neg (by simp [quote])]
      by_cases escape : b = 92
      · subst escape
        obtain ⟨stop, eq, le, reads⟩ := ih _ (by omega) (pos + 1 + 1) rfl
        refine ⟨stop, eq, by omega, fun start bytes items opened => ?_⟩
        have hc := drop_succ hb
        cases rest with
        | nil =>
          have last := List.drop_eq_nil_iff.1 hc
          rw [hb]
          exact ⟨fun h => by omega, fun _ => rfl⟩
        | cons c rest =>
          have more := reads start (c :: 92 :: bytes) items opened
          rw [hb, outcome_escape, slice_cons hb (by omega), slice_cons hc (by omega),
            ← drop_succ hc]
          simpa using more
      · obtain ⟨stop, eq, le, reads⟩ := ih _ (by omega) (pos + 1) rfl
        rw [if_neg (by simp [escape])]
        refine ⟨stop, eq, by omega, fun start bytes items opened => ?_⟩
        have more := reads start (b :: bytes) items opened
        rw [hb, outcome_inside quote escape, slice_cons hb (by omega), ← drop_succ hb]
        simpa using more
    · rw [if_neg inside]
      refine ⟨pos, rfl, Nat.le_refl _, fun start bytes items opened => ⟨fun h => absurd h inside,
        fun _ => ?_⟩⟩
      rw [List.drop_eq_nil_of_le (Nat.not_lt.1 inside)]
      rfl

/-- Reading an item at a position agrees with a reader that has read the text up to there, whose
state `before` is put in for the items and the open lists around. -/
def Reads (text : Bytes) (pos : Nat) (before : List Sexpr → List (Nat × List Sexpr) → Reader)
    (x : Read (Sexpr × Nat)) : Prop :=
  (∃ item stop, x = .ok (item, stop) ∧ pos < stop ∧ ∀ items opened,
    (before items opened).outcome (text.drop pos) =
      (between stop (item :: items) opened).outcome (text.drop stop)) ∨
  ∃ fault, x = refuse fault ∧
    ∀ items opened, (before items opened).outcome (text.drop pos) = .error fault

theorem Reads.from (h : Reads text next before' x) (later : pos ≤ next)
    (same : ∀ items opened, (before items opened).outcome (text.drop pos) = (before' items opened).outcome (text.drop next)) :
    Reads text pos before x := by
  obtain ⟨item, stop, eq, lt, reads⟩ | ⟨fault, eq, reads⟩ := h
  · exact .inl ⟨item, stop, eq, by omega, fun items opened =>
      (same items opened).trans (reads items opened)⟩
  · exact .inr ⟨fault, eq, fun items opened => (same items opened).trans (reads items opened)⟩

/-- Reading with an amount of fuel agrees with the reader wherever the fuel suffices. -/
structure ReadsAll (text : Bytes) (fuel : Nat) : Prop where
  item {pos : Nat} (begins : Begins text pos) (other : (text.drop pos).head? ≠ some 41)
    (enough : 2 * (text.length - pos) + 1 ≤ fuel) :
    Reads text pos (between pos) (readItem text fuel pos)
  items {start pos : Nat} {items : List Sexpr} (enough : 2 * (text.length - pos) + 2 ≤ fuel) :
    Reads text pos (fun before opened => between pos items ((start, before) :: opened))
      (readItems text fuel start pos items)

theorem reads_string (hb : ∃ rest, text.drop pos = 34 :: rest) :
    Reads text pos (between pos) (readItem text (fuel + 1) pos) := by
  obtain ⟨rest, hb⟩ := hb
  obtain ⟨stop, eq, le, reads⟩ := stringEnd_spec text (pos + 1)
  have opened (items : List Sexpr) (opened : List (Nat × List Sexpr)) :
      (between pos items opened).outcome (text.drop pos) =
        outcome ⟨pos + 1, .string pos [34] false, items, opened⟩ (text.drop (pos + 1)) := by
    rw [hb, drop_succ hb]
    rfl
  rw [readItem, need_getElem hb]
  rw [eq]
  change Reads text pos (between pos) (if text.length ≤ stop then _ else _)
  split
  · rename_i past
    exact .inr ⟨_, rfl, fun items open_ => (opened items open_).trans ((reads _ _ _ _).2 past)⟩
  · refine .inl ⟨_, _, ?_, ?_, fun items open_ => (opened items open_).trans
      ((reads _ _ _ _).1 (by omega))⟩
    · rw [segment?, if_pos (by omega), slice_cons hb (by omega)]
      rfl
    · omega

theorem head?_ne_of_take_two (h : (a :: rest).take 2 ≠ [b, c]) (first : a = b) :
    rest.head? ≠ some c := by
  rintro second
  cases rest with
  | nil => cases second
  | cons d rest =>
    cases second
    subst first
    exact h rfl

theorem segment?_takeWhile (test : UInt8 → Bool) (inside : pos ≤ text.length) :
    segment? text pos (pos + ((text.drop pos).takeWhile test).length) =
      some ((text.drop pos).takeWhile test) := by
  have front : (text.drop pos).takeWhile test <+: text.drop pos := List.takeWhile_prefix test
  have short := front.length_le
  rw [List.length_drop] at short
  rw [segment?, if_pos (by omega), List.drop_take, Nat.add_sub_cancel_left,
    ← List.prefix_iff_eq_take.1 front]

theorem reads_word (hb : text.drop pos = b :: rest) (blank : isBlank b = false) (opens : b ≠ 40)
    (closes : b ≠ 41) (quote : b ≠ 34) (line : (b :: rest).take 2 ≠ [59, 59]) :
    Reads text pos (between pos) (readItem text (fuel + 1) pos) := by
  rw [readItem, need_getElem hb]
  change Reads text pos (between pos) (if (b == 40) = true then _ else if (b == 41) = true then _
    else if (b == 34) = true then _ else _)
  rw [if_neg (by simp [opens]), if_neg (by simp [closes]), if_neg (by simp [quote]), skipWhile_eq, hb]
  change Reads text pos (between pos) (if pos + ((b :: rest).takeWhile inWord).length = pos then _
    else _)
  by_cases semi : b = 59
  · subst semi
    rw [List.takeWhile_cons_of_neg (by decide), List.length_nil, if_pos (Nat.add_zero pos)]
    refine .inr ⟨_, rfl, fun items opened => ?_⟩
    rw [hb, outcome_semicolon (head?_ne_of_take_two line rfl)]
  · have letter : endsWord b = false := by
      simp [endsWord, blank, opens, closes, quote, semi]
    have goes : inWord b = true := by simp [inWord, letter]
    have some_ : 0 < ((b :: rest).takeWhile inWord).length := by
      rw [List.takeWhile_cons_of_pos goes, List.length_cons]
      omega
    rw [if_neg (by omega), ← hb, segment?_takeWhile inWord (Nat.le_of_lt (lt_of_drop hb))]
    refine .inl ⟨_, _, rfl, by rw [hb]; omega, fun items opened => ?_⟩
    rw [drop_takeWhile, hb, outcome_letter letter, outcome_word, List.takeWhile_cons_of_pos goes,
      List.dropWhile_cons_of_pos goes, Nat.add_right_comm]
    rfl

theorem reads_item (ih : ReadsAll text fuel) (begins : Begins text pos)
    (other : (text.drop pos).head? ≠ some 41) (enough : 2 * (text.length - pos) + 1 ≤ fuel + 1) :
    Reads text pos (between pos) (readItem text (fuel + 1) pos) := by
  obtain ⟨b, rest, hb, blank, line, block⟩ := begins
  have inside := lt_of_drop hb
  by_cases opens : b = 40
  · rw [readItem, need_getElem hb]
    subst opens
    have others : Reads text (pos + 1)
        (fun before opened => between (pos + 1) [] ((pos, before) :: opened))
        (readItems text fuel pos (pos + 1) []) := ih.items (by omega)
    refine others.from (by omega) fun items opened => ?_
    rw [hb, outcome_paren (head?_ne_of_take_two block rfl), drop_succ hb]
  · by_cases quote : b = 34
    · exact reads_string ⟨rest, quote ▸ hb⟩
    · refine reads_word hb blank opens (fun closes => ?_) quote line
      rw [hb, closes] at other
      exact other rfl

theorem reads_items {start : Nat} {items : List Sexpr} (ih : ReadsAll text fuel)
    (enough : 2 * (text.length - pos) + 2 ≤ fuel + 1) :
    Reads text pos (fun before opened => between pos items ((start, before) :: opened))
      (readItems text (fuel + 1) start pos items) := by
  rw [readItems]
  obtain ⟨stop, eq, le, begins, skips⟩ | ⟨fault, eq, skips⟩ :=
    skipSpace_skips (show text.length - pos < fuel by omega)
  · rw [eq]
    change Reads text pos _ (if text.length ≤ stop then _ else _)
    split
    · rename_i past
      refine .inr ⟨_, rfl, fun before opened => (skips _ _).trans ?_⟩
      rw [List.drop_eq_nil_of_le past]
      rfl
    · have begins := begins (by omega)
      obtain ⟨b, rest, hb, -⟩ := id begins
      rw [need_getElem hb]
      change Reads text pos _ (if (b == 41) = true then _ else _)
      split
      · rename_i closes
        obtain rfl : b = 41 := by simpa using closes
        refine .inl ⟨_, _, rfl, by omega, fun before opened => (skips _ _).trans ?_⟩
        rw [hb, drop_succ hb]
        rfl
      · rename_i goes
        have other : (text.drop stop).head? ≠ some 41 := by
          rw [hb]
          simpa using goes
        obtain ⟨item, next, eq', lt, reads⟩ | ⟨fault, eq', reads⟩ :=
          ih.item begins other (by omega)
        · rw [eq']
          have others : Reads text next
              (fun before opened => between next (item :: items) ((start, before) :: opened))
              (readItems text fuel start next (item :: items)) := ih.items (by omega)
          exact others.from (by omega) fun before opened => (skips _ _).trans (reads _ _)
        · rw [eq']
          exact .inr ⟨fault, rfl, fun before opened => (skips _ _).trans (reads _ _)⟩
  · rw [eq]
    exact .inr ⟨fault, rfl, fun before opened => skips _ _⟩

theorem reads_all (text : Bytes) (fuel : Nat) : ReadsAll text fuel := by
  induction fuel with
  | zero => exact ⟨fun _ _ h => by omega, fun h => by omega⟩
  | succ fuel ih => exact ⟨reads_item ih, reads_items ih⟩

theorem readRest_eq {items : List Sexpr} (enough : 2 * (text.length - pos) + 2 ≤ fuel) :
    readRest text fuel pos items =
      ((between pos items []).outcome (text.drop pos)).mapError .refused := by
  induction fuel generalizing pos items with
  | zero => omega
  | succ fuel ih =>
    rw [readRest]
    obtain ⟨stop, eq, le, begins, skips⟩ | ⟨fault, eq, skips⟩ :=
      skipSpace_skips (show text.length - pos < fuel by omega)
    · rw [eq, skips]
      change (if text.length ≤ stop then _ else _) = _
      split
      · rename_i past
        rw [List.drop_eq_nil_of_le past]
        rfl
      · have begins := begins (by omega)
        obtain ⟨b, rest, hb, -⟩ := id begins
        by_cases closes : b = 41
        · subst closes
          obtain ⟨k, rfl⟩ : ∃ k, fuel = k + 1 := ⟨fuel - 1, by omega⟩
          rw [readItem, need_getElem hb, hb]
          rfl
        · obtain ⟨item, next, eq', lt, reads⟩ | ⟨fault, eq', reads⟩ :=
            (reads_all text fuel).item begins (by rw [hb]; simpa using closes) (by omega)
          · rw [eq', reads]
            exact ih (by omega)
          · rw [eq', reads]
            rfl
    · rw [eq, skips]
      rfl

/-- **Reading by positions never looks outside of the text.** It has the same end as reading one
byte after another: the same items, or the same fault. -/
theorem readText_eq (text : Bytes) :
    readText text = (Sexpr.readText text).mapError .refused :=
  readRest_eq (by omega)

end Indexed

end Sexpr
end WordScript
