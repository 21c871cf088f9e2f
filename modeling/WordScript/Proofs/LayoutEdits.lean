import WordScript.Proofs.Building

/-! Layout that a program does not depend on.

A line without text says nothing, wherever a line may start, and inside parentheses a line break is no
more than a blank. The run over the edited source is the run over the source up to the edit, then
steps over the edit, and from there on reads alike: places differ, kinds and texts do not. -/
namespace WordScript
namespace Scanner

open Utf8 (Scalar)

/-- A line of margin, perhaps a comment, carriage returns and a line break. -/
def BlankLine (line : Bytes) : Prop :=
  ∃ margin comment returns, line = margin ++ comment ++ returns ++ [10] ∧
    (∀ b ∈ margin, b = 32 ∨ b = 9 ∨ b = 12) ∧
    (comment = [] ∨ ∃ text, comment = 35 :: text ∧ 10 ∉ text) ∧ ∀ b ∈ returns, b = 13

/-- A step of the run over the source ends a line, blank or not, at the offset. -/
def EndsLine (source : Bytes) (offset : Nat) : Prop :=
  ∃ past s s', Visits source past s ∧ s.queue = [] ∧ s.fill = .ok s' ∧ s'.lineStart = true ∧
    s.reader.offset < offset ∧ s'.reader.offset = offset

/-- Inside parentheses the run over the source looks for a token, and only filler stands between that
place and the offset. -/
def SkipsTo (source : Bytes) (offset : Nat) : Prop :=
  ∃ past s n, Visits source past s ∧ s.queue = [] ∧ 0 < s.parens ∧
    Filler (s.reader.chars.take n) ∧ (s.reader.skip n).offset = offset

/-- A blank line is put where a line starts, or a blank in the place of a line break inside
parentheses. -/
inductive LayoutEdit : Bytes → Bytes → Prop
  | atStart {source line : Bytes} (blank : BlankLine line) : LayoutEdit source (line ++ source)
  | afterLine {before after line : Bytes}
      (ends : EndsLine (before ++ 10 :: after) (before.length + 1)) (blank : BlankLine line) :
      LayoutEdit (before ++ 10 :: after) (before ++ 10 :: (line ++ after))
  | insideParens {before after : Bytes} (skips : SkipsTo (before ++ 10 :: after) before.length) :
      LayoutEdit (before ++ 10 :: after) (before ++ 32 :: after)

section blank

variable {cs xs ys : List Char}

theorem run_margin (left : ∀ c ∈ xs, isMargin c = true) (text : isMargin c = false) (cs : List Char) :
    run isMargin (xs ++ c :: cs) = xs.length := by
  rw [(run_through (List.dropWhile_eq_nil_iff.2 left) _).1, run_none text, Nat.add_zero]

theorem margin_comment (left : ∀ c ∈ xs, isMargin c = true) (line : '\n' ∉ ys) (cs : List Char) :
    margin (xs ++ '#' :: (ys ++ '\n' :: cs)) = .blank (xs.length + 1 + ys.length + 1) := by
  have text : ys.dropWhile (· != '\n') = [] := by
    refine List.dropWhile_eq_nil_iff.2 fun c hc => bne_iff_ne.2 ?_
    rintro rfl
    exact line hc
  simp [margin, run_margin left, isMargin, run_through text, run_none, breakLength_newline]

theorem margin_returns (left : ∀ c ∈ xs, isMargin c = true) (returns : ∀ c ∈ ys, c = '\r')
    (cs : List Char) : margin (xs ++ (ys ++ '\n' :: cs)) = .blank (xs.length + ys.length + 1) := by
  have line : ys.dropWhile (· == '\r') = [] :=
    List.dropWhile_eq_nil_iff.2 fun c hc => beq_iff_eq.2 (returns c hc)
  have length : breakLength (ys ++ '\n' :: cs) = ys.length + 1 := by
    simp [breakLength, run_through line, run_none]
  obtain ⟨c, rest, next, ends⟩ : ∃ c rest, ys ++ '\n' :: cs = c :: rest ∧ (c = '\r' ∨ c = '\n') := by
    cases ys with
    | nil => exact ⟨_, _, rfl, .inr rfl⟩
    | cons c ys => exact ⟨_, _, rfl, .inl (returns c (by simp))⟩
  have text : isMargin c = false ∧ c ≠ '#' := by rcases ends with rfl | rfl <;> decide
  rw [next] at length ⊢
  simp [margin, run_margin left text.1, text.2, ends, length, Nat.add_assoc]

theorem scalars_ascii {p : Char → Prop} (each : ∀ b ∈ bytes, b < 0x80 ∧ p (Char.ofNat b.toNat))
    (after : Bytes) :
    ∃ front, Utf8.scalars (bytes ++ after) = front ++ Utf8.scalars after ∧
      ∀ c ∈ front.map (·.char), p c := by
  induction bytes with
  | nil => exact ⟨[], rfl, by simp⟩
  | cons b bytes ih =>
    obtain ⟨ascii, here⟩ := each b (by simp)
    obtain ⟨front, read, others⟩ := ih fun d hd => each d (by simp [hd])
    refine ⟨⟨Char.ofNat b.toNat, 1⟩ :: front, ?_, List.forall_mem_cons.2 ⟨here, others⟩⟩
    rw [List.cons_append, List.cons_append, ← read]
    exact Utf8.scalars_append ascii [] (bytes ++ after)

theorem margin_byte {b : UInt8} (white : b = 32 ∨ b = 9 ∨ b = 12) :
    b < 0x80 ∧ isMargin (Char.ofNat b.toNat) = true := by
  rcases white with rfl | rfl | rfl <;> decide

theorem return_byte {b : UInt8} (ret : b = 13) : b < 0x80 ∧ Char.ofNat b.toNat = '\r' := by
  rw [ret]
  decide

theorem BlankLine.margin (h : BlankLine line) (after : Bytes) :
    ∃ front, Utf8.scalars (line ++ after) = front ++ ⟨'\n', 1⟩ :: Utf8.scalars after ∧
      ∀ cs, Scanner.margin (front.map (·.char) ++ '\n' :: cs) = .blank (front.length + 1) := by
  obtain ⟨left, comment, returns, rfl, white, comments, breaks⟩ := h
  refine ⟨Utf8.scalars (left ++ comment ++ returns), ?_, fun cs => ?_⟩
  · rw [List.append_assoc]
    exact Utf8.scalars_append (by decide) _ after
  · obtain ⟨space, read, spaces⟩ :=
      scalars_ascii (p := (isMargin · = true)) (fun b hb => margin_byte (white b hb))
        (comment ++ returns)
    rw [List.append_assoc, read]
    rcases comments with rfl | ⟨text, rfl, line⟩
    · obtain ⟨ending, read', endings⟩ :=
        scalars_ascii (p := (· = '\r')) (fun b hb => return_byte (breaks b hb)) []
      have none : Utf8.scalars [] = [] := rfl
      rw [List.append_nil, none] at read'
      rw [List.nil_append, read']
      simpa [Nat.add_assoc] using margin_returns spaces endings cs
    · have none : 10 ∉ text ++ returns := by
        intro mem
        rcases List.mem_append.1 mem with mem | mem
        · exact line mem
        · exact absurd (breaks 10 mem) (by decide)
      have text_line : '\n' ∉ (Utf8.scalars (text ++ returns)).map (·.char) := by
        intro mem
        obtain ⟨x, hx, newline⟩ := List.mem_map.1 mem
        exact Utf8.scalars_ne_newline none x hx newline
      have sign : Utf8.scalars (35 :: (text ++ returns)) = ⟨'#', 1⟩ :: Utf8.scalars (text ++ returns) :=
        Utf8.scalars_append (by decide) [] _
      rw [List.cons_append, sign]
      simpa [Nat.add_assoc, Nat.add_comm 1] using margin_comment spaces text_line cs

end blank

section blankRuns

variable {s : Scanner} {front rest : List Scalar} {x : Scalar} {ts : List Token}
  {fault : Option SyntaxError}

theorem fill_blank (start : s.lineStart = true) (outside : s.parens = 0)
    (column : s.reader.pos.col = 0) (newline : x.char = '\n') (ahead : s.reader.rest = rest)
    (blank : margin (front.map (·.char) ++ '\n' :: rest.map (·.char)) = .blank (front.length + 1)) :
    ∃ s', (s.onto (front ++ x :: rest)).fill = .ok s' ∧ Alike s s' := by
  have line : margin (s.onto (front ++ x :: rest)).reader.chars = .blank (front.length + 1) := by
    rw [Scanner.onto, Reader.onto_chars, List.map_append, List.map_cons, newline, blank]
  have chars : ((s.reader.onto (front ++ x :: rest)).skip front.length).chars =
      '\n' :: rest.map (·.char) := by
    rw [Reader.skip_chars, Reader.onto_chars, List.map_append,
      List.drop_left' (List.length_map _), List.map_cons, newline]
  refine ⟨_, Step.fill (.blank ⟨start, outside⟩ line), ?_⟩
  refine ⟨⟨rfl, rfl, rfl, rfl, List.forall₂_same.2 fun _ _ => ⟨rfl, rfl⟩⟩, ?_, fun _ => ⟨outside, ?_⟩⟩
  · rw [← Reader.skip_skip, Reader.skip_chars, Reader.chars, ahead]
    exact (congrArg (List.drop 1) chars).symm
  · rw [← Reader.skip_skip, column]
    exact (Reader.skip_newline_col chars).symm

/-- A scanner at the start of a line hands out the same kinds and texts if a blank line is put before
it. -/
theorem Scans.past_blank (h : Scans s ts fault) (start : s.lineStart = true) (outside : s.parens = 0)
    (column : s.reader.pos.col = 0) (newline : x.char = '\n') (ahead : s.reader.rest = rest)
    (blank : margin (front.map (·.char) ++ '\n' :: rest.map (·.char)) = .blank (front.length + 1)) :
    ∃ ts' fault', Scans (s.onto (front ++ x :: rest)) ts' fault' ∧
      ScansAlike ts ts' fault fault' := by
  -- Once nothing is queued, the next step is the one over the blank line.
  have onward {s : Scanner} {ts : List Token} {fault : Option SyntaxError} (h : Scans s ts fault)
      (none : s.queue = [])
      (step : ∃ s', (s.onto (front ++ x :: rest)).fill = .ok s' ∧ Alike s s') :
      ∃ ts' fault', Scans (s.onto (front ++ x :: rest)) ts' fault' ∧
        ScansAlike ts ts' fault fault' := by
    obtain ⟨s', step, alike⟩ := step
    obtain ⟨ts', fault', scans, same⟩ := h.alike alike
    exact ⟨ts', fault', .fill none step scans, same⟩
  induction h with
  | last queued eof => exact ⟨_, none, .last queued eof, .cons ⟨rfl, rfl⟩ .nil, rfl⟩
  | @hand s t queue ts fault queued text others ih =>
    obtain ⟨ts', fault', scans, same⟩ := ih start outside column ahead
    exact ⟨t :: ts', fault', .hand queued text scans, .cons ⟨rfl, rfl⟩ same.tokens, same.fault⟩
  | fault none stops =>
    exact onward (.fault none stops) none (fill_blank start outside column newline ahead blank)
  | fill none step others =>
    exact onward (.fill none step others) none (fill_blank start outside column newline ahead blank)

end blankRuns

section nested

variable {cs xs : List Char}

theorem Gap.after_after (g : Gap) (m n : Nat) : (g.after n).after m = g.after (m + n) := by
  simp [Gap.after, Nat.add_assoc]

theorem gap_comment (line : '\n' ∉ xs) (cs : List Char) :
    gap true true (xs ++ '\n' :: cs) = (gap true false cs).after (xs.length + 1) := by
  induction xs with
  | nil => simp [gap.eq_def true true ('\n' :: cs)]
  | cons c xs ih =>
    obtain ⟨other, line⟩ := not_or.1 (mt List.mem_cons.2 line)
    rw [gap.eq_def]
    simp [Ne.symm other, ih line, Gap.after_after, Nat.add_comm 1]

theorem gap_filler (h : Filler xs) (cs : List Char) :
    gap true false (xs ++ cs) = (gap true false cs).after xs.length := by
  induction h with
  | nil => simp [Gap.after]
  | @white c xs blank _ ih =>
    rw [gap.eq_def]
    rcases blank with blank | newline
    · simp [blank, ih, Gap.after_after, Nat.add_comm 1]
    · simp [newline, ih, Gap.after_after, Nat.add_comm 1]
  | continued _ ih =>
    rw [gap.eq_def]
    simp [isBlank, ih, Gap.after_after, Nat.add_comm 2]
  | continuedReturn _ ih =>
    rw [gap.eq_def]
    simp [isBlank, ih, Gap.after_after, Nat.add_comm 3]
  | @comment text xs line _ ih =>
    rw [gap.eq_def]
    simp [isBlank, gap_comment line, ih, Gap.after_after]
    congr 1
    omega

variable {s : Scanner} {front rest : List Scalar} {x y : Scalar}

theorem lineGap_filler (nested : 0 < s.parens) (filler : Filler (front.map (·.char)))
    (white : x.char = '\n' ∨ x.char = ' ') (ahead : s.reader.rest = front ++ x :: rest) :
    s.lineGap = (gap true false (rest.map (·.char))).after (front.length + 1) := by
  have through : Filler (front.map (·.char) ++ [x.char]) := by
    refine filler.append (.white (white.symm.imp_left fun blank => ?_) .nil)
    rw [blank]
    rfl
  have chars : s.reader.chars = (front.map (·.char) ++ [x.char]) ++ rest.map (·.char) := by
    simp [Reader.chars, ahead]
  rw [lineGap, chars, decide_eq_true nested, gap_filler through]
  simp

theorem fill_filler (inside : s.lineStart = false) (nested : 0 < s.parens)
    (filler : Filler (front.map (·.char))) (newline : x.char = '\n') (blank : y.char = ' ')
    (ahead : s.reader.rest = front ++ x :: rest) :
    StepsAlike s.fill (s.onto (front ++ y :: rest)).fill := by
  have here := lineGap_filler nested filler (.inl newline) ahead
  have there : (s.onto (front ++ y :: rest)).lineGap = _ :=
    lineGap_filler nested filler (.inr blank) rfl
  have twins : Twins s (s.onto (front ++ y :: rest)) :=
    ⟨rfl, rfl, rfl, rfl, List.forall₂_same.2 fun _ _ => ⟨rfl, rfl⟩⟩
  have after (z : Scalar) (n : Nat) : ((front ++ z :: rest).map (·.char)).drop (front.length + 1 + n) =
      (rest.map (·.char)).drop n := by
    have length : ((front ++ [z]).map (·.char)).length = front.length + 1 := by simp
    rw [List.append_cons, List.map_append, ← length, List.drop_length_add_append]
  have inside' : (s.onto (front ++ y :: rest)).lineStart = false := inside
  rw [fill_midLine inside, fill_midLine inside']
  refine twins.scanLine inside (by rw [here, there]) ?_
  rw [afterGap, afterGap, Reader.skip_chars, Reader.skip_chars, here, there, Reader.chars, ahead]
  exact (after x _).trans (after y _).symm

end nested

section sources

variable {source source' : Bytes} {before after line : Bytes}

theorem Reader.Reached.col_eq {r : Reader} (h : r.Reached (before ++ 10 :: after))
    (offset : r.offset = before.length + 1) : r.pos.col = 0 := by
  have read : (before ++ 10 :: after).take (before.length + 1) = before ++ 10 :: [] := by
    rw [List.take_length_add_append]
    rfl
  rw [h.pos_eq, offset, read, Pos.ofBytes, Pos.ofChars, Utf8.scalars_append (by decide),
    List.map_append, List.foldl_append]
  rfl

theorem Step.rest_lt (h : Step s s') (lt : s.reader.offset < s'.reader.offset) :
    s'.reader.rest.length < s.reader.rest.length := by
  obtain ⟨n, reader⟩ := h.reader
  rw [reader, Reader.skip_offset] at lt
  rw [reader, Reader.skip_rest, List.length_drop]
  by_contra all
  have none : s.reader.rest.take n = [] := List.take_eq_nil_iff.2 (by rw [← List.length_eq_zero_iff]; omega)
  simp [none, Utf8.width] at lt

theorem scansAlike_atStart (blank : BlankLine line) (source : Bytes) :
    ScansAlike (scan source).tokens (scan (line ++ source)).tokens (scan source).fault
      (scan (line ++ source)).fault := by
  obtain ⟨front, read, margin⟩ := blank.margin source
  have start : (ofBytes source).onto (front ++ ⟨'\n', 1⟩ :: Utf8.scalars source) =
      ofBytes (line ++ source) := by
    rw [← read]
    rfl
  refine Visits.scansAlike .start .start fun ts fault scans => ?_
  rw [← start]
  exact scans.past_blank rfl rfl rfl rfl rfl (margin _)

theorem scansAlike_afterLine (ends : EndsLine (before ++ 10 :: after) (before.length + 1))
    (blank : BlankLine line) :
    ScansAlike (scan (before ++ 10 :: after)).tokens (scan (before ++ 10 :: (line ++ after))).tokens
      (scan (before ++ 10 :: after)).fault (scan (before ++ 10 :: (line ++ after))).fault := by
  obtain ⟨front, read, margin⟩ := blank.margin after
  obtain ⟨past, s, s', visits, none, step, start, lt, offset⟩ := ends
  have visits' := visits.fill none step
  have rest : s'.reader.rest = Utf8.scalars after := by
    rw [visits'.reached.rest_eq, offset, ← List.drop_drop, List.drop_left]
    rfl
  have left : (Utf8.scalars after).length < s.reader.rest.length :=
    rest ▸ (fill_cases step).rest_lt (offset ▸ lt)
  have edited := visits.onto_end (Utf8.scalars_append (by decide) before after)
    (Utf8.scalars_append (by decide) before (line ++ after)) rfl none step start left rest
  rw [read] at edited
  refine visits'.scansAlike edited fun ts fault scans => ?_
  exact scans.past_blank start (visits'.outside start) (visits'.reached.col_eq offset) rfl rest
    (margin _)

theorem scansAlike_insideParens (skips : SkipsTo (before ++ 10 :: after) before.length) :
    ScansAlike (scan (before ++ 10 :: after)).tokens (scan (before ++ 32 :: after)).tokens
      (scan (before ++ 10 :: after)).fault (scan (before ++ 32 :: after)).fault := by
  obtain ⟨past, s, n, visits, none, nested, filler, offset⟩ := skips
  have inside : s.lineStart = false := by
    rw [← Bool.not_eq_true]
    intro start
    exact absurd (visits.outside start) (by omega)
  have left : s.reader.rest.drop n = ⟨'\n', 1⟩ :: Utf8.scalars after := by
    rw [← Reader.skip_rest, (visits.reached.skip n).rest_eq, offset, List.drop_left]
    exact Utf8.scalars_append (by decide) [] after
  have ahead : s.reader.rest = s.reader.rest.take n ++ ⟨'\n', 1⟩ :: Utf8.scalars after := by
    rw [← left, List.take_append_drop]
  rw [Reader.chars, ← List.map_take] at filler
  have read (b : UInt8) (ascii : b < 0x80) :
      Utf8.scalars (before ++ b :: after) = Utf8.scalars before ++ ⟨Char.ofNat b.toNat, 1⟩ :: _ :=
    Utf8.scalars_append ascii before after
  have edited := visits.onto (read 10 (by decide)) (read 32 (by decide)) rfl (.inr rfl) ahead
  refine visits.scansAlike edited fun ts fault scans => ?_
  exact scans.alike_of_fill none none (fill_filler inside nested filler rfl rfl ahead)

theorem LayoutEdit.scansAlike (h : LayoutEdit source source') :
    ScansAlike (scan source).tokens (scan source').tokens (scan source).fault
      (scan source').fault := by
  cases h with
  | atStart blank => exact scansAlike_atStart blank _
  | afterLine ends blank => exact scansAlike_afterLine ends blank
  | insideParens skips => exact scansAlike_insideParens skips

end sources

section computed

variable {source : Bytes} {past : List Token} {s s' : Scanner} {offset : Nat}

/-- The next scanner of a run, if the run goes on. -/
def advance (s : Scanner) : Option Scanner :=
  match s.queue with
  | [] => s.fill.toOption
  | t :: queue => if t.kind = .eof then none else some (s.handOut t queue)

/-- The scanner after a number of steps of a run. -/
def visited (source : Bytes) : (steps : Nat) → Option Scanner
  | 0 => some (ofBytes source)
  | n + 1 => (visited source n).bind advance

theorem fill_of_toOption (h : s.fill.toOption = some s') : s.fill = .ok s' := by
  cases step : s.fill with
  | error e => simp [step, Except.toOption] at h
  | ok s₁ => simpa [step, Except.toOption] using h

theorem Visits.advance (h : Visits source past s) (step : s.advance = some s') :
    ∃ past', Visits source past' s' := by
  unfold Scanner.advance at step
  split at step
  · exact ⟨past, h.fill ‹_› (fill_of_toOption step)⟩
  · split at step
    · cases step
    · cases step
      exact ⟨_, h.hand ‹_› ‹_›⟩

theorem visits_of_visited (h : visited source n = some s) : ∃ past, Visits source past s := by
  induction n generalizing s with
  | zero =>
    cases h
    exact ⟨[], .start⟩
  | succ n ih =>
    obtain ⟨s₁, before, step⟩ := Option.bind_eq_some_iff.1 h
    obtain ⟨past, visits⟩ := ih before
    exact visits.advance step

theorem endsLine_of_visited (n : Nat)
    (h : (visited source n).any fun s => s.queue.isEmpty && s.fill.toOption.any fun s' =>
      s'.lineStart && s.reader.offset < offset && s'.reader.offset == offset) :
    EndsLine source offset := by
  obtain ⟨s, here, ends⟩ := (Option.any_eq_true ..).1 h
  obtain ⟨past, visits⟩ := visits_of_visited here
  rw [Bool.and_eq_true_iff, List.isEmpty_iff, Option.any_eq_true] at ends
  obtain ⟨none, s', step, ends⟩ := ends
  simp only [Bool.and_eq_true, decide_eq_true_eq, beq_iff_eq] at ends
  exact ⟨past, s, s', visits, none, fill_of_toOption step, ends.1.1, ends.1.2, ends.2⟩

theorem skipsTo_of_visited (n : Nat)
    (h : (visited source n).any fun s => s.queue.isEmpty && 0 < s.parens &&
      s.reader.offset == offset) : SkipsTo source offset := by
  obtain ⟨s, here, skips⟩ := (Option.any_eq_true ..).1 h
  obtain ⟨past, visits⟩ := visits_of_visited here
  simp only [Bool.and_eq_true, List.isEmpty_iff, decide_eq_true_eq, beq_iff_eq] at skips
  exact ⟨past, s, 0, visits, skips.1.1, skips.1.2, .nil, skips.2⟩

end computed

end Scanner

open Scanner

/-- A blank line where a line starts and a blank for a line break inside parentheses change no kind
and no text of a token, nor why the text cannot be read, and so leave the program as it was. -/
theorem layout_edit_keeps_program {source source' : Bytes} (h : LayoutEdit source source') :
    (scan source).tokens.map (fun t => (t.kind, t.value)) =
        (scan source').tokens.map (fun t => (t.kind, t.value)) ∧
      (scan source).fault.map (·.problem) = (scan source').fault.map (·.problem) ∧
      Program.ofSource? source = Program.ofSource? source' := by
  have same := h.scansAlike
  refine ⟨?_, same.fault, ofSource_alike same⟩
  rw [← List.forall₂_eq_eq_eq, List.forall₂_map_left_iff, List.forall₂_map_right_iff]
  exact same.tokens.imp fun _ _ alike => Prod.ext alike.kind alike.value

def wrappedCall : Bytes := Utf8.encode "if f(\n1):\n\tg()\n"

/-- The call can be put on one line, and a comment in front of the block. -/
theorem wrappedCall_edited :
    LayoutEdit wrappedCall (Utf8.encode "if f( 1):\n\tg()\n") ∧
    LayoutEdit wrappedCall (Utf8.encode "if f(\n1):\n  # c\r\n\tg()\n") ∧
    (Program.ofSource? wrappedCall).isSome ∧
    Program.ofSource? wrappedCall = Program.ofSource? (Utf8.encode "if f( 1):\n\tg()\n") ∧
    Program.ofSource? wrappedCall =
      Program.ofSource? (Utf8.encode "if f(\n1):\n  # c\r\n\tg()\n") := by
  have joined : LayoutEdit wrappedCall (Utf8.encode "if f( 1):\n\tg()\n") := by
    have text : wrappedCall = Utf8.encode "if f(" ++ 10 :: Utf8.encode "1):\n\tg()\n" := by
      decide +kernel
    rw [text]
    exact .insideParens (skipsTo_of_visited 6 (by decide +kernel))
  have noted : LayoutEdit wrappedCall (Utf8.encode "if f(\n1):\n  # c\r\n\tg()\n") := by
    have text : wrappedCall = Utf8.encode "if f(\n1):" ++ 10 :: Utf8.encode "\tg()\n" := by
      decide +kernel
    have blank : BlankLine [32, 32, 35, 32, 99, 13, 10] :=
      ⟨[32, 32], [35, 32, 99], [13], rfl, by simp, .inr ⟨_, rfl, by simp⟩, by simp⟩
    rw [text]
    exact .afterLine (endsLine_of_visited 12 (by decide +kernel)) blank
  have program : (Program.ofSource? wrappedCall).isSome = true := by decide +kernel
  obtain ⟨-, -, same⟩ := layout_edit_keeps_program joined
  obtain ⟨-, -, same'⟩ := layout_edit_keeps_program noted
  exact ⟨joined, noted, program, same, same'⟩

end WordScript
