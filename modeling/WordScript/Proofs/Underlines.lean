import Mathlib.Data.List.DropRight
import WordScript.Diagnostic.Display
import WordScript.Pipeline
import WordScript.Proofs.Lookahead

/-! What is shown of a source.

A span is shown as the lines it touches, without the blanks that all of them start with, and with
carets below the columns it selects. Columns count characters. The end of a line is measured in
bytes, so the carets go beyond the end of a line that goes on into the next one and has characters
of several bytes. -/
namespace WordScript

theorem Pos.line_foldl (p : Pos) (cs : List Char) :
    (cs.foldl Pos.after p).line = p.line + cs.count '\n' := by
  induction cs generalizing p with
  | nil => rfl
  | cons c rest ih =>
    rw [List.foldl_cons, ih, List.count_cons, Pos.after]
    by_cases newline : c = '\n'
    · simp [newline]
      omega
    · by_cases tab : c = '\t' <;> simp [newline, tab]

theorem Utf8.count_newline (bytes : Bytes) :
    ((scalars bytes).map (·.char)).count '\n' = bytes.count 10 := by
  induction h : bytes.length using Nat.strong_induction_on generalizing bytes with
  | _ n ih =>
    by_cases mem : 10 ∈ bytes
    · obtain ⟨u, v, rfl, none⟩ := List.eq_append_cons_of_mem mem
      have before : '\n' ∉ (scalars u).map (·.char) := by
        simpa using scalars_ne_newline none
      have after := ih v.length (by rw [← h]; simp; omega) v rfl
      rw [scalars_append (by decide), List.map_append, List.map_cons, List.count_append,
        List.count_append, List.count_eq_zero.2 before, List.count_eq_zero.2 none, List.count_cons,
        List.count_cons, after]
      rfl
    · have none : '\n' ∉ (scalars bytes).map (·.char) := by simpa using scalars_ne_newline mem
      rw [List.count_eq_zero.2 none, List.count_eq_zero.2 mem]

theorem Pos.line_ofBytes (bytes : Bytes) : (Pos.ofBytes bytes).line = bytes.count 10 := by
  rw [Pos.ofBytes, Pos.ofChars, line_foldl, Utf8.count_newline, Nat.zero_add]

theorem Span.Selects.lines {s : Span} (h : s.Selects source) :
    s.start.line ≤ s.stop.line ∧ s.stop.line ≤ source.count 10 := by
  obtain ⟨a, b, order, -, rfl⟩ := h
  simp only [Span.ofRange, Pos.line_ofBytes]
  exact ⟨(List.take_sublist_take_left order).count_le 10, (List.take_sublist b source).count_le 10⟩

namespace Display

def utf8 (cs : List Char) : Bytes := cs.flatMap String.utf8EncodeChar

@[simp] theorem utf8_nil : utf8 [] = [] := rfl

theorem utf8_cons (c : Char) (cs : List Char) :
    utf8 (c :: cs) = String.utf8EncodeChar c ++ utf8 cs := rfl

theorem utf8_append (cs ds : List Char) : utf8 (cs ++ ds) = utf8 cs ++ utf8 ds := List.flatMap_append

theorem not_mem_encodeChar (low : b.toNat < 128) (other : c ≠ Char.ofNat b.toNat) :
    b ∉ String.utf8EncodeChar c :=
  fun mem => other (Utf8.eq_of_mem_encodeChar mem low).symm

theorem splitLines_ne_nil (bytes : Bytes) : splitLines bytes ≠ [] := by
  cases bytes with
  | nil => simp [splitLines]
  | cons b rest =>
    rw [splitLines]
    split
    · simp
    · split <;> simp

theorem splitLines_append (none : 10 ∉ u) (v : Bytes) :
    splitLines (u ++ v) = (splitLines v).modifyHead (u ++ ·) := by
  obtain ⟨line, lines, split⟩ := List.exists_cons_of_ne_nil (splitLines_ne_nil v)
  induction u with
  | nil => simp [split]
  | cons b rest ih =>
    rw [List.mem_cons, not_or] at none
    rw [List.cons_append, splitLines, ih none.2, split]
    simp [Ne.symm none.1]

theorem splitLines_utf8 (cs : List Char) :
    splitLines (utf8 cs) = (cs.splitOn '\n').map utf8 := by
  induction cs with
  | nil => rfl
  | cons c rest ih =>
    rw [List.splitOn] at ih ⊢
    rw [List.splitOnP_cons_eq_if_modifyHead, utf8_cons]
    obtain ⟨line, lines, split⟩ := List.exists_cons_of_ne_nil (splitLines_ne_nil (utf8 rest))
    by_cases newline : c = '\n'
    · have byte : String.utf8EncodeChar '\n' = [10] := by decide
      rw [newline, byte, List.singleton_append, splitLines, split]
      simp [← ih, split]
    · rw [splitLines_append (not_mem_encodeChar (by decide) newline), ih]
      obtain ⟨line, lines, split⟩ := List.exists_cons_of_ne_nil
        (List.map_eq_nil_iff.not.1 (ih ▸ splitLines_ne_nil (utf8 rest)))
      simp [newline, split, utf8_cons]

theorem length_splitLines (bytes : Bytes) : (splitLines bytes).length = bytes.count 10 + 1 := by
  induction bytes with
  | nil => rfl
  | cons b rest ih =>
    obtain ⟨line, lines, split⟩ := List.exists_cons_of_ne_nil (splitLines_ne_nil rest)
    rw [split] at ih
    rw [splitLines, split, List.count_cons]
    by_cases newline : b = 10 <;> simp [newline] at ih ⊢ <;> omega

theorem encodeChar_ne_nil (c : Char) : String.utf8EncodeChar c ≠ [] := by
  obtain ⟨a, tail, bytes, -⟩ := Utf8.first_encodeChar c []
  simp [bytes]

theorem trimReturns_utf8 (cs : List Char) :
    trimReturns (utf8 cs) = utf8 (cs.rdropWhile (· = '\r')) := by
  change (utf8 cs).rdropWhile _ = _
  induction cs using List.reverseRecOn with
  | nil => rfl
  | append_singleton cs c ih =>
    by_cases ret : c = '\r'
    · have byte : utf8 ['\r'] = [13] := by decide
      rw [ret, utf8_append, byte, List.rdropWhile_concat_pos _ _ _ (by decide),
        List.rdropWhile_concat_pos _ _ _ (by decide), ih]
    · rw [List.rdropWhile_concat_neg _ _ _ (by simpa using ret), utf8_append, utf8_cons, utf8_nil,
        List.append_nil, List.rdropWhile_eq_self_iff]
      intro filled last
      rw [List.getLast_append_of_ne_nil _ (encodeChar_ne_nil c)] at last
      have mem := List.getLast_mem (encodeChar_ne_nil c)
      rw [of_decide_eq_true last] at mem
      exact not_mem_encodeChar (by decide) ret mem

/-- The characters of a line as they are shown: carriage returns at its end are dropped, and four
blanks stand for a tab. -/
def shownChars (line : List Char) : List Char :=
  (line.rdropWhile (· = '\r')).flatMap fun c => if c = '\t' then [' ', ' ', ' ', ' '] else [c]

theorem expandTabs_utf8 (cs : List Char) :
    expandTabs (utf8 cs) =
      utf8 (cs.flatMap fun c => if c = '\t' then [' ', ' ', ' ', ' '] else [c]) := by
  induction cs with
  | nil => rfl
  | cons c rest ih =>
    rw [utf8_cons, expandTabs, List.flatMap_append, List.flatMap_cons, utf8_append, ← ih, expandTabs]
    congr 1
    by_cases tab : c = '\t'
    · rw [tab]
      decide
    · have other := not_mem_encodeChar (b := 9) (by decide) tab
      rw [if_neg tab, utf8_cons, utf8_nil, List.append_nil]
      refine (List.flatMap_congr fun b mem => if_neg ?_).trans (List.flatMap_singleton' _)
      rintro rfl
      exact other mem

theorem shown_utf8 (cs : List Char) : expandTabs (trimReturns (utf8 cs)) = utf8 (shownChars cs) := by
  rw [trimReturns_utf8, expandTabs_utf8, shownChars]

def margin (cs : List Char) : Nat := (cs.takeWhile (· = ' ')).length

theorem indentation_utf8 (cs : List Char) : indentation (utf8 cs) = margin cs := by
  induction cs with
  | nil => rfl
  | cons c rest ih =>
    by_cases blank : c = ' '
    · have byte : String.utf8EncodeChar ' ' = [32] := by decide
      rw [indentation] at ih
      simp [indentation, margin, utf8_cons, blank, byte, ih]
    · obtain ⟨a, tail, bytes, -⟩ := Utf8.first_encodeChar c []
      have other : a ≠ 32 := by
        rintro rfl
        exact not_mem_encodeChar (b := 32) (by decide) blank (by simp [bytes])
      simp [indentation, margin, utf8_cons, bytes, blank, other]

theorem drop_utf8 (h : n ≤ margin cs) : (utf8 cs).drop n = utf8 (cs.drop n) := by
  induction n generalizing cs with
  | zero => rfl
  | succ n ih =>
    cases cs with
    | nil => rfl
    | cons c rest =>
      obtain rfl : c = ' ' := by
        by_contra other
        simp [margin, other] at h
      have byte : String.utf8EncodeChar ' ' = [32] := by decide
      rw [utf8_cons, byte, List.singleton_append, List.drop_succ_cons, List.drop_succ_cons]
      exact ih (by simpa [margin] using h)

theorem length_le_utf8 (cs : List Char) : cs.length ≤ (utf8 cs).length := by
  induction cs with
  | nil => rfl
  | cons c rest ih =>
    have filled := List.length_pos_iff.2 (encodeChar_ne_nil c)
    rw [utf8_cons, List.length_append, List.length_cons]
    omega

theorem length_utf8 (ascii : ∀ c ∈ cs, c.toNat < 128) : (utf8 cs).length = cs.length := by
  induction cs with
  | nil => rfl
  | cons c rest ih =>
    obtain ⟨first, others⟩ := List.forall_mem_cons.1 ascii
    have low : c.val.toNat ≤ 127 := Nat.le_of_lt_succ first
    have one : String.utf8EncodeChar c = [UInt8.ofNat c.val.toNat] := by
      simp only [String.utf8EncodeChar, low, if_true]
    rw [utf8_cons, one, List.singleton_append, List.length_cons, List.length_cons, ih others]

/-- The columns of a line that a span selects, as far as the line is shown. -/
def Shows (span : Span) (line margin width col : Nat) : Prop :=
  margin ≤ col ∧ col < width ∧
    (span.start.line < line ∨ span.start.line = line ∧ span.start.col ≤ col) ∧
    (line < span.stop.line ∨ line = span.stop.line ∧ col < span.stop.col)

/-- Carets stand below the columns that are selected, and one caret below a line of which none is
selected. -/
structure Underlines (span : Span) (line margin width : Nat) (u : Underline) : Prop where
  below : (∃ col, Shows span line margin width col) → ∀ col,
    margin + u.start ≤ col ∧ col < margin + u.start + u.count ↔ Shows span line margin width col
  one : (¬∃ col, Shows span line margin width col) → u.count = 1

section carets

variable {span : Span} {line margin width : Nat}

theorem clamp_eq (n : Nat) (h : lo ≤ hi) : clamp n lo hi = max lo (min n hi) := by
  unfold clamp
  split
  · omega
  · split <;> omega

theorem underline_underlines (fits : margin ≤ width) (above : span.start.line ≤ line)
    (below : line ≤ span.stop.line) :
    Underlines span line margin width
      (underline span margin width (line = span.start.line) (line = span.stop.line)) := by
  obtain ⟨start, first⟩ : ∃ start, start =
      if line = span.start.line then clamp span.start.col margin width else margin := ⟨_, rfl⟩
  obtain ⟨stop, last⟩ : ∃ stop, stop =
      if line = span.stop.line then clamp span.stop.col start width else width := ⟨_, rfl⟩
  have whole : underline span margin width (line = span.start.line) (line = span.stop.line) =
      ⟨start - margin, if stop = start then 1 else stop - start⟩ := by
    simp only [underline, decide_eq_true_eq, ← first, ← last]
  rw [clamp_eq _ fits] at first
  have left : margin ≤ start ∧ start ≤ width := by split at first <;> omega
  rw [clamp_eq _ left.2] at last
  have order : start ≤ stop := by split at last <;> omega
  have range (col : Nat) : start ≤ col ∧ col < stop ↔ Shows span line margin width col := by
    unfold Shows
    split at first <;> split at last <;> omega
  rw [whole]
  constructor
  · rintro ⟨c, shown⟩ col
    have inside := (range c).2 shown
    rw [if_neg (by omega), ← range]
    simp only
    omega
  · intro none
    simp only [ite_eq_left_iff]
    intro other
    exact absurd ⟨start, (range start).1 (by omega)⟩ none

theorem Underlines.congr (h : Underlines span line margin width u)
    (same : ∀ col, Shows span line margin width' col ↔ Shows span line margin width col) :
    Underlines span line margin width' u := by
  constructor <;> simp only [same]
  · exact h.below
  · exact h.one

end carets

theorem sharedIndentation_le : ∀ l ∈ lines, sharedIndentation lines ≤ indentation l := by
  fun_induction sharedIndentation lines with
  | case1 => nofun
  | case2 l => simp
  | case3 l rest _ ih =>
    refine List.forall_mem_cons.2 ⟨min_le_left _ _, fun m mem => ?_⟩
    exact (min_le_right _ _).trans (ih m mem)

theorem exists_sharedIndentation (some : lines ≠ []) :
    ∃ l ∈ lines, indentation l = sharedIndentation lines := by
  fun_induction sharedIndentation lines with
  | case1 => exact absurd rfl some
  | case2 l => exact ⟨l, by simp, rfl⟩
  | case3 l rest more ih =>
    rcases min_choice (indentation l) (sharedIndentation rest) with least | least
    · exact ⟨l, by simp, least.symm⟩
    · obtain ⟨m, mem, same⟩ := ih (by rintro rfl; exact more rfl)
      exact ⟨m, by simp [mem], by rw [same, least]⟩

theorem take_margin (h : n ≤ margin cs) :
    cs.take n = List.replicate n ' ' := by
  obtain ⟨rest, split⟩ := List.takeWhile_prefix (l := cs) (· = ' ')
  rw [← split, List.take_append_of_le_length h]
  refine List.eq_replicate_iff.2 ⟨List.length_take_of_le h, fun c mem => ?_⟩
  simpa using List.mem_takeWhile_imp (List.mem_of_mem_take mem)

theorem getElem?_margin (cs : List Char) : cs[margin cs]? ≠ some ' ' := by
  induction cs with
  | nil => simp
  | cons c rest ih =>
    by_cases blank : c = ' '
    · simpa [margin, blank] using ih
    · simp [margin, blank]

/-- The characters of the lines that a span touches. -/
def spanLines (text : String) (span : Span) : List (List Char) :=
  (((text.toList.splitOn '\n').take (span.stop.line + 1)).drop span.start.line).map shownChars

theorem shownLines_utf8 (text : String) (span : Span) :
    shownLines (Utf8.encode text) span = (spanLines text span).map utf8 := by
  have split : splitLines (Utf8.encode text) = (text.toList.splitOn '\n').map utf8 :=
    splitLines_utf8 text.toList
  simp [shownLines, spanLines, split, shown_utf8, ← List.map_take, ← List.map_drop]

/-- A line with its number, and the carets below it. -/
def row (width number : Nat) (shown : List Char) (u : Underline) : String :=
  padded width number ++ " | " ++ String.ofList shown ++ "\n"
    ++ spaces width ++ " | " ++ spaces u.start ++ String.ofList (List.replicate u.count '^') ++ "\n"

theorem linesText_utf8 (span : Span) (width shared : Nat) {lines : List (List Char)}
    (h : ∀ l ∈ lines, shared ≤ margin l) (i : Nat) :
    linesText span width shared i (lines.map utf8) =
      String.join (lines.mapIdx fun k l => row width (span.start.line + (i + k) + 1) (l.drop shared)
        (underline span shared (utf8 l).length (i + k = 0) (k + 1 = lines.length))) := by
  induction lines generalizing i with
  | nil => rfl
  | cons l rest ih =>
    obtain ⟨first, others⟩ := List.forall_mem_cons.1 h
    have here (number : Nat) (u : Underline) :
        lineText width number shared (utf8 l) u = row width number (l.drop shared) u := by
      rw [lineText, drop_utf8 first, utf8, Utf8.decode_flatMap]
      rfl
    rw [List.map_cons, linesText, ih others, here, List.mapIdx_cons, String.join_cons]
    refine congrArg₂ (· ++ ·) (congrArg (row width _ _) ?_) (congrArg String.join ?_)
    · cases rest <;> simp
    · refine congrArg (rest.mapIdx ·) (funext fun k => funext fun l => ?_)
      simp [Nat.add_assoc, Nat.add_comm 1 k]

/-- How a span of a text is shown: the lines that it touches, all of them lines of the text, without
the blanks that they start with, and carets below each. Carets stand below the selected columns of
a line of as many columns as the line has bytes. -/
structure Shown (text : String) (span : Span) (shared : Nat) (us : Nat → Underline) : Prop where
  all : (spanLines text span).length = span.stop.line - span.start.line + 1
  blank : ∀ l ∈ spanLines text span, l.take shared = List.replicate shared ' '
  least : ∃ l ∈ spanLines text span, l[shared]? ≠ some ' '
  rows : sourceText (Utf8.encode text) span =
    String.join ((spanLines text span).mapIdx fun i l =>
      row (toString (span.stop.line + 1)).length (span.start.line + i + 1) (l.drop shared) (us i))
    ++ "\n"
  carets : ∀ i l, (spanLines text span)[i]? = some l →
    Underlines span (span.start.line + i) shared (utf8 l).length (us i)

theorem length_spanLines (h : span.Selects (Utf8.encode text)) :
    (spanLines text span).length = span.stop.line - span.start.line + 1 := by
  have count := length_splitLines (Utf8.encode text)
  have split : splitLines (Utf8.encode text) = (text.toList.splitOn '\n').map utf8 :=
    splitLines_utf8 text.toList
  rw [split, List.length_map] at count
  simp only [spanLines, List.length_map, List.length_drop, List.length_take, count]
  have := h.lines
  omega

theorem shown (h : span.Selects (Utf8.encode text)) : ∃ shared us, Shown text span shared us := by
  obtain ⟨forward, inside⟩ := h.lines
  have all := length_spanLines h
  have count := length_splitLines (Utf8.encode text)
  have some : (spanLines text span).map utf8 ≠ [] := by
    simp [← List.length_eq_zero_iff, all]
  obtain ⟨shared, hs⟩ : ∃ n, n = sharedIndentation ((spanLines text span).map utf8) := ⟨_, rfl⟩
  have below : ∀ l ∈ spanLines text span, shared ≤ margin l := fun l mem => by
    rw [hs, ← indentation_utf8]
    exact sharedIndentation_le _ (List.mem_map_of_mem mem)
  refine ⟨shared, fun i => underline span shared (utf8 ((spanLines text span).getD i [])).length
    (span.start.line + i = span.start.line) (span.start.line + i = span.stop.line), all,
    fun l mem => take_margin (below l mem), ?_, ?_, fun i l here => ?_⟩
  · obtain ⟨_, mem, least⟩ := exists_sharedIndentation some
    obtain ⟨l, touched, rfl⟩ := List.mem_map.1 mem
    refine ⟨l, touched, ?_⟩
    rw [hs, ← least, indentation_utf8]
    exact getElem?_margin l
  · rw [sourceText, if_neg (by omega)]
    dsimp only
    rw [shownLines_utf8, ← hs, linesText_utf8 _ _ _ below, Nat.min_eq_left (by omega)]
    refine congrArg (· ++ "\n") (congrArg String.join ?_)
    refine List.ext_getElem (by simp) fun i hi hi' => ?_
    rw [List.length_mapIdx] at hi
    have last : (i + 1 = (spanLines text span).length) =
        (span.start.line + i = span.stop.line) := propext (by omega)
    simp [last, hi]
  · obtain ⟨bound, rfl⟩ := List.getElem?_eq_some_iff.1 here
    have line := below _ (List.getElem_mem bound)
    rw [List.getD_eq_getElem?_getD, here, Option.getD_some]
    refine underline_underlines ?_ (by omega) (by omega)
    exact (line.trans (List.takeWhile_prefix _).length_le).trans (length_le_utf8 _)

/-- A span of a text is shown as the lines that it touches, with carets below. The carets stand below
the selected columns of a line if all its characters are ASCII, or if the span ends within it. -/
theorem span_shown {text : String} {span : Span} (h : span.Selects (Utf8.encode text)) :
    ∃ shared us, Shown text span shared us ∧ ∀ i l, (spanLines text span)[i]? = some l →
      (∀ c ∈ l, c.toNat < 128) ∨
        span.start.line + i = span.stop.line ∧ span.stop.col ≤ l.length →
      Underlines span (span.start.line + i) shared l.length (us i) := by
  obtain ⟨shared, us, shown⟩ := shown h
  refine ⟨shared, us, shown, fun i l here plain => ?_⟩
  have carets := shown.carets i l here
  rcases plain with ascii | ⟨last, ends⟩
  · rwa [length_utf8 ascii] at carets
  · refine carets.congr fun col => ?_
    have longer := length_le_utf8 l
    unfold Shows
    omega

example : sourceText (Utf8.encode "\tf(\r\n\t é)\n") ⟨⟨0, 4⟩, ⟨1, 7⟩⟩ =
    "1 | f(\n  | ^^\n2 |  é)\n  | ^^^\n\n" := by
  decide +kernel

theorem call_shown :
    let text := "\tf(\r\n\t é)\n"
    let span : Span := ⟨⟨0, 4⟩, ⟨1, 7⟩⟩
    span.Selects (Utf8.encode text) ∧
      ∃ shared us, Shown text span shared us ∧ ∀ i l, (spanLines text span)[i]? = some l →
        (∀ c ∈ l, c.toNat < 128) ∨
          span.start.line + i = span.stop.line ∧ span.stop.col ≤ l.length →
        Underlines span (span.start.line + i) shared l.length (us i) := by
  intro text span
  have selects : span.Selects (Utf8.encode text) :=
    ⟨1, 10, by decide, by decide +kernel, by decide +kernel⟩
  exact ⟨selects, span_shown selects⟩

/-- The fault of a call that goes on into the next line is shown with three carets below a line of
two characters. -/
theorem carets_past_line :
    let source := Utf8.encode "é(\n)\n"
    let span : Span := ⟨⟨0, 0⟩, ⟨1, 1⟩⟩
    (compile .wat .signed source).outcome.1 =
        .error (.diagnostic ⟨.checking, "unknown function: `é`", some span⟩) ∧
      sourceText source span = row 1 1 ['é', '('] ⟨0, 3⟩ ++ row 1 2 [')'] ⟨0, 1⟩ ++ "\n" ∧
      ¬Underlines span 0 0 2 ⟨0, 3⟩ := by
  refine ⟨by decide +kernel, by decide +kernel, fun underlines => ?_⟩
  have beyond := (underlines.below ⟨0, by simp [Shows]⟩ 2).1 (by simp)
  simp [Shows] at beyond

end Display
end WordScript
