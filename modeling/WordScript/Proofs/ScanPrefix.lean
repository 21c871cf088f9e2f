import WordScript.Proofs.Lookahead

/-! What a run reads before a line break.

A run up to a line break is the same whatever stands behind the line break, and where the line break
is not read, also if a blank stands in its place. -/
namespace WordScript
namespace Scanner

open Token (Kind)

namespace Reader

open Utf8 (Scalar)

/-- The reader at the same place before other text. -/
def onto (r : Reader) (rest : List Scalar) : Reader := { r with rest }

variable {r : Reader} {front xs : List Scalar} {n : Nat}

@[simp] theorem onto_chars (r : Reader) (rest : List Scalar) :
    (r.onto rest).chars = rest.map (·.char) := rfl

variable (text : r.rest = front ++ xs) (le : n ≤ front.length) (ys : List Scalar)
include text le ys

theorem onto_skip : (r.onto (front ++ ys)).skip n = (r.skip n).onto (front.drop n ++ ys) := by
  have rest : ((r.onto (front ++ ys)).skip n).rest = front.drop n ++ ys := by
    rw [skip_rest, onto, List.drop_append_of_le_length le]
  have offset : ((r.onto (front ++ ys)).skip n).offset = (r.skip n).offset := by
    simp only [skip_offset, onto, text, List.take_append_of_le_length le]
  have pos : ((r.onto (front ++ ys)).skip n).pos = (r.skip n).pos := by
    simp only [skip_pos, onto, text, List.take_append_of_le_length le]
  have parts (q : Reader) : q = ⟨q.rest, q.offset, q.pos⟩ := rfl
  rw [parts ((r.onto (front ++ ys)).skip n), rest, offset, pos]
  rfl

theorem onto_token (kind : Kind) : (r.onto (front ++ ys)).token kind n = r.token kind n := by
  simp only [token, spanTo, onto_skip text le]
  simp only [onto, text, List.take_append_of_le_length le]

theorem onto_layout (kind : Kind) : (r.onto (front ++ ys)).layout kind n = r.layout kind n := by
  simp only [layout, onto_token text le]

end Reader

/-- The scanner at the same place before other text. -/
def onto (s : Scanner) (rest : List Utf8.Scalar) : Scanner := { s with reader := s.reader.onto rest }

section transport

open Utf8 (Scalar)

variable {s s' : Scanner} {front xs ys : List Scalar} {x y : Scalar} {n k : Nat}
variable {back : List Scalar}

theorem onto_lineGap (newline : x.char = '\n') (text : s.reader.rest = front ++ x :: xs)
    (whole : s.lineGap.broken = false) (within : s.lineGap.Within front.length y.char) :
    (s.onto (front ++ y :: ys)).lineGap = s.lineGap := by
  have chars : s.reader.chars = front.map (·.char) ++ '\n' :: xs.map (·.char) := by
    simp [Reader.chars, text, newline]
  rw [lineGap, chars] at whole within
  rw [lineGap, lineGap, chars, onto, Reader.onto_chars, List.map_append]
  exact gap_inside whole (by simpa using within)

section

variable (text : s.reader.rest = front ++ xs)
include text

theorem onto_afterGap (same : (s.onto (front ++ ys)).lineGap = s.lineGap)
    (le : s.lineGap.length ≤ front.length) :
    (s.onto (front ++ ys)).afterGap = s.afterGap.onto (front.drop s.lineGap.length ++ ys) := by
  rw [afterGap, same]
  exact Reader.onto_skip text le ys

theorem afterGap_rest (le : s.lineGap.length ≤ front.length) :
    s.afterGap.rest = front.drop s.lineGap.length ++ xs := by
  rw [afterGap, Reader.skip_rest, text, List.drop_append_of_le_length le]

theorem LineStep.onto_newline (same : (s.onto (front ++ ys)).lineGap = s.lineGap)
    (whole : s.lineGap.broken = false) (next : s.afterGap.chars = '\n' :: rest)
    (le : s.lineGap.length + 1 ≤ front.length) :
    LineStep (s.onto (front ++ ys)) ({ s with
      reader := s.afterGap.skip 1
      lineStart := true
      queue := s.queue ++ if s.lineEmpty then [] else [s.afterGap.token .newline 1] }.onto
        (front.drop (s.lineGap.length + 1) ++ ys)) := by
  have after := afterGap_rest text (by omega)
  have onto_after := onto_afterGap text same (by omega)
  obtain ⟨z, others, split⟩ := List.exists_cons_of_ne_nil
    (List.ne_nil_of_length_pos (l := front.drop s.lineGap.length) (by rw [List.length_drop]; omega))
  have one : 1 ≤ (front.drop s.lineGap.length).length := by rw [split]; simp
  have here : z.char = '\n' := by
    rw [Reader.chars, after, split] at next
    exact (List.cons.inj next).1
  have step := @LineStep.newline (s.onto (front ++ ys)) ((others ++ ys).map (·.char))
    (same ▸ whole) (by rw [onto_after, split]; simp [here])
  rw [onto_after, Reader.onto_skip after one, Reader.onto_token after one, List.drop_drop] at step
  exact step

end

theorem LineStep.onto_token (newline : x.char = '\n') (stop : Stops y.char)
    (text : s.reader.rest = front ++ x :: xs)
    (same : (s.onto (front ++ y :: ys)).lineGap = s.lineGap) (whole : s.lineGap.broken = false)
    (next : s.afterGap.chars = c :: rest) (other : c ≠ '\n') (lexed : lexeme c rest = .token kind n)
    (le : s.lineGap.length + n ≤ front.length) :
    LineStep (s.onto (front ++ y :: ys)) ({ s with
      reader := s.afterGap.skip n
      parens := parensAfter s.parens kind
      queue := s.queue ++ [s.afterGap.token kind n] }.onto
        (front.drop (s.lineGap.length + n) ++ y :: ys)) := by
  have some := lexeme_pos lexed
  have after := afterGap_rest text (by omega)
  have onto_after := onto_afterGap text same (by omega)
  obtain ⟨z, others, split⟩ := List.exists_cons_of_ne_nil
    (List.ne_nil_of_length_pos (l := front.drop s.lineGap.length) (by rw [List.length_drop]; omega))
  have room : n ≤ (front.drop s.lineGap.length).length := by
    rw [List.length_drop]
    omega
  have here : z.char = c ∧ others.map (·.char) ++ '\n' :: xs.map (·.char) = rest := by
    rw [Reader.chars, after, split] at next
    simpa [newline] using next
  have lexed' := lexeme_inside (.inl rfl) stop (here.2 ▸ lexed) (by
    rw [split] at room
    simpa using room) (ys.map (·.char))
  have step := @LineStep.token (s.onto (front ++ y :: ys)) c ((others ++ y :: ys).map (·.char)) kind n
    (same ▸ whole) (by rw [onto_after, split]; simp [here.1]) other
    (by simpa using lexed')
  rw [onto_after, Reader.onto_skip after room, Reader.onto_token after room, List.drop_drop] at step
  exact step

/-- What is read off is read off from the front, as long as something is left behind it. -/
theorem drop_eq_append (h : (front ++ x :: xs).drop n = back ++ x :: xs) :
    n ≤ front.length ∧ back = front.drop n := by
  have size := congrArg List.length h
  simp only [List.length_drop, List.length_append, List.length_cons] at size
  have le : n ≤ front.length := by omega
  rw [List.drop_append_of_le_length le] at h
  exact ⟨le, (List.append_cancel_right h).symm⟩

/-- Reading on in a line up to a line break at most does not depend on what follows. -/
theorem LineStep.onto (h : LineStep s s') (newline : x.char = '\n') (stop : Stops y.char)
    (text : s.reader.rest = front ++ x :: xs) (left : s'.reader.rest = back ++ x :: xs) :
    LineStep (s.onto (front ++ y :: ys)) (s'.onto (back ++ y :: ys)) := by
  cases h with
  | ended whole none =>
    have none : s.afterGap.rest = [] := List.map_eq_nil_iff.1 none
    cases (List.append_eq_nil_iff.1 (left.symm.trans none)).2
  | newline whole next =>
    rw [Reader.skip_rest, afterGap, Reader.skip_rest, List.drop_drop, text] at left
    obtain ⟨le, rfl⟩ := drop_eq_append left
    exact .onto_newline text (onto_lineGap newline text whole (.inl le)) whole next le
  | @token c rest kind n whole next other lexed =>
    rw [Reader.skip_rest, afterGap, Reader.skip_rest, List.drop_drop, text] at left
    obtain ⟨le, rfl⟩ := drop_eq_append left
    have some := lexeme_pos lexed
    exact .onto_token newline stop text (onto_lineGap newline text whole (.inl (by omega))) whole
      next other lexed le

theorem MarginStep.onto (h : MarginStep s n s') (text : s.reader.rest = front ++ xs)
    (le : n ≤ front.length) :
    MarginStep (s.onto (front ++ ys)) n (s'.onto (front.drop n ++ ys)) := by
  have skip : (s.onto (front ++ ys)).reader.skip n = (s.reader.skip n).onto (front.drop n ++ ys) :=
    Reader.onto_skip text le ys
  have layout (kind : Kind) : (s.onto (front ++ ys)).reader.layout kind n = s.reader.layout kind n :=
    Reader.onto_layout text le ys kind
  have pos : ((s.onto (front ++ ys)).reader.skip n).pos = (s.reader.skip n).pos := by
    rw [skip]
    rfl
  cases h with
  | opens deeper =>
    have step := @MarginStep.opens (s.onto (front ++ ys)) n (pos ▸ deeper)
    rw [skip, layout] at step
    exact step
  | @closes open' outer level =>
    have step := @MarginStep.closes (s.onto (front ++ ys)) n open' (pos ▸ outer) (pos ▸ level)
    rw [skip, layout] at step
    exact step

/-- A step up to a line break at most does not depend on what follows. -/
theorem Step.onto (h : Step s s') (newline : x.char = '\n') (stop : Stops y.char)
    (text : s.reader.rest = front ++ x :: xs) (left : s'.reader.rest = back ++ x :: xs) :
    Step (s.onto (front ++ y :: ys)) (s'.onto (back ++ y :: ys)) := by
  have chars : s.reader.chars = front.map (·.char) ++ '\n' :: xs.map (·.char) := by
    simp [Reader.chars, text, newline]
  have ahead : (s.onto (front ++ y :: ys)).reader.chars =
      front.map (·.char) ++ y.char :: ys.map (·.char) := by simp [Scanner.onto]
  cases h with
  | @blank n start line =>
    rw [Reader.skip_rest, text] at left
    obtain ⟨le, rfl⟩ := drop_eq_append left
    have line' : margin (front.map (·.char) ++ y.char :: ys.map (·.char)) = .blank n :=
      margin_blank_inside (chars ▸ line) (.inl (by simpa using le))
    have step := @Step.blank (s.onto (front ++ y :: ys)) n start (ahead ▸ line')
    rw [Scanner.onto, Reader.onto_skip text le] at step
    exact step
  | ended _ line => exact absurd (chars ▸ line) margin_ne_ended
  | @text n s₁ _ start line measured onward =>
    obtain ⟨lt, line'⟩ := margin_text_inside (chars ▸ line) (y.char :: ys.map (·.char))
    rw [List.length_map] at lt
    have text₁ : s₁.reader.rest = front.drop n ++ x :: xs := by
      rw [measured.reader, Reader.skip_rest, text, List.drop_append_of_le_length (by omega)]
    exact .text start (ahead ▸ line') (measured.onto text (by omega))
      (onward.onto newline stop text₁ left)
  | line inside onward => exact .line inside (onward.onto newline stop text left)

theorem LineStep.onto_end (h : LineStep s s') (inside : s.lineStart = false)
    (start : s'.lineStart = true) (newline : x.char = '\n')
    (text : s.reader.rest = front ++ x :: xs) (left : s'.reader.rest = xs) :
    LineStep (s.onto (front ++ x :: ys)) (s'.onto ys) := by
  cases h with
  | ended => cases inside.symm.trans start
  | token => cases inside.symm.trans start
  | newline whole next =>
    have some : s.lineGap.length < s.reader.rest.length := by
      have size := congrArg List.length next
      rw [afterGap, Reader.chars_length, Reader.skip_rest, List.length_drop, List.length_cons] at size
      omega
    have length : s.lineGap.length = front.length := by
      have size := congrArg List.length left
      rw [Reader.skip_rest, afterGap, Reader.skip_rest, List.drop_drop, List.length_drop] at size
      rw [text, List.length_append, List.length_cons] at some size
      omega
    have same : (s.onto (front ++ x :: ys)).lineGap = s.lineGap :=
      onto_lineGap newline text whole (.inr ⟨length, newline⟩)
    have split (zs : List Scalar) : front ++ x :: zs = (front ++ [x]) ++ zs := by simp
    rw [split] at text same ⊢
    have step := LineStep.onto_newline text same whole next (by simp [length])
    rw [length, List.drop_of_length_le (by simp)] at step
    exact step

theorem Step.onto_end (h : Step s s') (outside : s.lineStart = true → s.parens = 0)
    (start : s'.lineStart = true) (newline : x.char = '\n')
    (text : s.reader.rest = front ++ x :: xs) (left : s'.reader.rest = xs) :
    Step (s.onto (front ++ x :: ys)) (s'.onto ys) := by
  have chars : s.reader.chars = front.map (·.char) ++ '\n' :: xs.map (·.char) := by
    simp [Reader.chars, text, newline]
  have ahead : (s.onto (front ++ x :: ys)).reader.chars =
      front.map (·.char) ++ x.char :: ys.map (·.char) := by simp [Scanner.onto]
  cases h with
  | @blank n start line =>
    have line' (zs : List Char) : margin (front.map (·.char) ++ x.char :: zs) = .blank n :=
      margin_blank_inside (chars ▸ line) (.inr newline)
    have le := margin_blank_le (line' [])
    rw [List.length_append, List.length_map, List.length_singleton] at le
    have length : n = front.length + 1 := by
      have size := congrArg List.length left
      rw [Reader.skip_rest, List.length_drop, text, List.length_append, List.length_cons] at size
      omega
    have split (zs : List Scalar) : front ++ x :: zs = (front ++ [x]) ++ zs := by simp
    have step := @Step.blank (s.onto (front ++ x :: ys)) n ‹_› (ahead ▸ line' _)
    rw [split] at text step ⊢
    rw [Scanner.onto, Reader.onto_skip text (by simp [length]), length,
      List.drop_of_length_le (by simp)] at step
    subst length
    exact step
  | ended _ line => exact absurd (chars ▸ line) margin_ne_ended
  | @text n s₁ _ _ line measured onward =>
    obtain ⟨lt, line'⟩ := margin_text_inside (chars ▸ line) (x.char :: ys.map (·.char))
    rw [List.length_map] at lt
    have text₁ : s₁.reader.rest = front.drop n ++ x :: xs := by
      rw [measured.reader, Reader.skip_rest, text, List.drop_append_of_le_length (by omega)]
    have inside : s₁.lineStart = false := by cases measured <;> rfl
    exact .text ‹_› (ahead ▸ line') (measured.onto text (by omega))
      (onward.onto_end inside start newline text₁ left)
  | line inside onward =>
    have later : s.lineStart = false := by
      rw [← Bool.not_eq_true]
      exact fun start => inside ⟨start, outside start⟩
    exact .line inside (onward.onto_end later start newline text left)

end transport

section runs

open Utf8 (Scalar)

variable {source source' : Bytes} {past : List Token} {s s' : Scanner}
  {front front₀ xs ys : List Scalar} {x y : Scalar}

theorem LineStep.outside (h : LineStep s s') (inside : s.lineStart = false)
    (start : s'.lineStart = true) : s'.parens = 0 := by
  cases h with
  | ended => cases inside.symm.trans start
  | newline whole next =>
    have outside := parens_of_newline whole next
    exact outside
  | token => cases inside.symm.trans start

theorem Step.outside (h : Step s s') (outside : s.lineStart = true → s.parens = 0)
    (start : s'.lineStart = true) : s'.parens = 0 := by
  cases h with
  | blank => exact outside start
  | ended _ _ onward => exact onward.outside rfl start
  | text _ _ measured onward => exact onward.outside (by cases measured <;> rfl) start
  | line inside onward =>
    refine onward.outside ?_ start
    rw [← Bool.not_eq_true]
    exact fun start => inside ⟨start, outside start⟩

theorem Visits.outside (h : Visits source past s) (start : s.lineStart = true) : s.parens = 0 := by
  induction h with
  | start => rfl
  | fill _ _ step ih => exact (fill_cases step).outside ih start
  | hand _ _ _ ih => exact ih start

variable (text : Utf8.scalars source = front₀ ++ x :: xs)
include text

theorem Visits.onto (text' : Utf8.scalars source' = front₀ ++ y :: ys) (newline : x.char = '\n')
    (stop : Stops y.char) (h : Visits source past s) (ahead : s.reader.rest = front ++ x :: xs) :
    Visits source' past (s.onto (front ++ y :: ys)) := by
  induction h generalizing front with
  | start =>
    obtain rfl := List.append_cancel_right (text.symm.trans ahead)
    have same : (ofBytes source).onto (front₀ ++ y :: ys) = ofBytes source' := by
      rw [← text']
      rfl
    exact same ▸ .start
  | @fill past s s' before none step ih =>
    obtain ⟨n, reader⟩ := (fill_cases step).reader
    have split : s.reader.rest = (s.reader.rest.take n ++ front) ++ x :: xs := by
      rw [List.append_assoc, ← ahead, reader, Reader.skip_rest, List.take_append_drop]
    exact .fill (ih split) none ((fill_cases step).onto newline stop split ahead).fill
  | hand before queued other ih => exact .hand (ih ahead) queued other

theorem Visits.onto_end (text' : Utf8.scalars source' = front₀ ++ x :: ys) (newline : x.char = '\n')
    (h : Visits source past s) (none : s.queue = []) (step : s.fill = .ok s')
    (start : s'.lineStart = true) (before : xs.length < s.reader.rest.length)
    (left : s'.reader.rest = xs) : Visits source' past (s'.onto ys) := by
  obtain ⟨m, reader⟩ := h.reached
  have rest : s.reader.rest = (front₀ ++ x :: xs).drop m := by
    rw [reader, Reader.skip_rest, ← text]
    rfl
  have le : m ≤ front₀.length := by
    rw [rest, List.length_drop, List.length_append, List.length_cons] at before
    omega
  rw [List.drop_append_of_le_length le] at rest
  exact .fill (h.onto text text' newline (.inl newline) rest) none
    ((fill_cases step).onto_end h.outside start newline rest left).fill

end runs

end Scanner
end WordScript
