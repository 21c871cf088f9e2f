import WordScript.Proofs.ReadingEnds

/-! Runs of the scanner, step by step.

A run fills the queue while it is empty and hands out what is queued. What a step can do is said
once, for each function that takes part in it; what holds along every run follows by induction on
the run. -/
namespace WordScript
namespace Scanner

@[simp] theorem Reader.token_kind (r : Reader) (kind : Token.Kind) (n : Nat) :
    (r.token kind n).kind = kind := rfl

@[simp] theorem Reader.layout_kind (r : Reader) (kind : Token.Kind) (n : Nat) :
    (r.layout kind n).kind = kind := rfl

/-- The scanner after its first queued token is handed out. -/
def handOut (s : Scanner) (t : Token) (queue : List Token) : Scanner :=
  { s with queue, lineEmpty := t.kind = .newline }

/-- The scanners of a run over a source, each with the tokens handed out before it. -/
inductive Visits (source : Bytes) : List Token → Scanner → Prop
  | start : Visits source [] (ofBytes source)
  | fill {past : List Token} {s s' : Scanner} (before : Visits source past s) (none : s.queue = [])
      (step : s.fill = .ok s') : Visits source past s'
  | hand {past queue : List Token} {s : Scanner} {t : Token} (before : Visits source past s)
      (queued : s.queue = t :: queue) (text : t.kind ≠ .eof) :
      Visits source (past ++ [t]) (s.handOut t queue)

/-- What is still handed out after a scanner, up to the end of the text or to a fault. -/
inductive Scans : Scanner → List Token → Option SyntaxError → Prop
  | last {s : Scanner} {t : Token} {queue : List Token} (queued : s.queue = t :: queue)
      (eof : t.kind = .eof) : Scans s [t] none
  | hand {s : Scanner} {t : Token} {queue ts : List Token} {fault : Option SyntaxError}
      (queued : s.queue = t :: queue) (text : t.kind ≠ .eof)
      (others : Scans (s.handOut t queue) ts fault) : Scans s (t :: ts) fault
  | fault {s : Scanner} {e : SyntaxError} (none : s.queue = []) (stops : s.fill = .error e) :
      Scans s [] (some e)
  | fill {s s' : Scanner} {ts : List Token} {fault : Option SyntaxError} (none : s.queue = [])
      (step : s.fill = .ok s') (others : Scans s' ts fault) : Scans s ts fault

section runs

variable {source : Bytes} {past ts : List Token} {s s' : Scanner} {fault : Option SyntaxError}
variable {r : Except SyntaxError Scanner}

theorem Fills.queue_ne_nil (h : Fills s r) (ok : r = .ok s') : s'.queue ≠ [] := by
  induction h with
  | queued some =>
    cases ok
    exact some
  | fault => cases ok
  | step _ _ _ ih => exact ih ok

theorem Fills.scans (h : Fills s r) (ok : r = .ok s') (others : Scans s' ts fault) :
    Scans s ts fault := by
  induction h with
  | queued =>
    cases ok
    exact others
  | fault => cases ok
  | step none steps _ ih => exact .fill none steps (ih ok)

theorem Fills.scans_fault (h : Fills s r) (stopped : r = .error e) : Scans s [] (some e) := by
  induction h with
  | queued => cases stopped
  | fault none stops =>
    cases stopped
    exact .fault none stops
  | step none steps _ ih => exact .fill none steps (ih stopped)

theorem next_ok (h : s.next = .ok (t, s')) :
    ∃ s₁ queue, Fills s (.ok s₁) ∧ s₁.queue = t :: queue ∧ s' = s₁.handOut t queue := by
  have fills := settle_fills (Nat.le_refl (s.reader.rest.length + 2))
  unfold next at h
  cases hs : s.settle (s.reader.rest.length + 2) with
  | error e => simp [hs, bind, Except.bind] at h
  | ok s₁ =>
    rw [hs] at fills
    simp only [hs, bind, Except.bind] at h
    split at h
    · rename_i queue queued
      cases h
      exact ⟨s₁, queue, fills, queued, rfl⟩
    · rename_i none
      exact absurd none (fills.queue_ne_nil rfl)

theorem next_error (h : s.next = .error e) : Fills s (.error e) := by
  have fills := settle_fills (Nat.le_refl (s.reader.rest.length + 2))
  unfold next at h
  cases hs : s.settle (s.reader.rest.length + 2) with
  | error e' =>
    simp only [hs, bind, Except.bind, Except.error.injEq] at h
    rw [← h, ← hs]
    exact fills
  | ok s₁ =>
    simp only [hs, bind, Except.bind] at h
    split at h <;> cases h

theorem Ends.scans (h : Ends s ts fault) : Scans s ts fault := by
  induction h with
  | last next eof =>
    obtain ⟨s₁, queue, fills, queued, -⟩ := next_ok next
    exact fills.scans rfl (.last queued eof)
  | more next text _ ih =>
    obtain ⟨s₁, queue, fills, queued, rfl⟩ := next_ok next
    exact fills.scans rfl (.hand queued text ih)
  | cut next => exact (next_error next).scans_fault rfl

theorem HandsOut.ends (h : HandsOut s ts) : Ends s ts none := by
  induction h with
  | last next eof => exact .last next eof
  | more next text _ ih => exact .more next text ih

theorem Ends.handsOut (h : Ends s ts fault) (sound : fault = none) : HandsOut s ts := by
  induction h with
  | last next eof => exact .last next eof
  | more next text _ ih => exact .more next text (ih sound)
  | cut => cases sound

theorem scan_scans (source : Bytes) :
    Scans (ofBytes source) (scan source).tokens (scan source).fault := (scan_ends source).scans

theorem Scans.unique (h : Scans s ts fault) (h' : Scans s ts' fault') :
    ts' = ts ∧ fault' = fault := by
  induction h generalizing ts' fault' with
  | last queued eof =>
    cases h' with
    | last queued' => simp_all
    | hand queued' text => simp_all
    | fault none => simp_all
    | fill none => simp_all
  | hand queued text _ ih =>
    cases h' with
    | last queued' eof => simp_all
    | hand queued' text' others =>
      obtain ⟨rfl, rfl⟩ := List.cons.inj (queued.symm.trans queued')
      obtain ⟨rfl, rfl⟩ := ih others
      exact ⟨rfl, rfl⟩
    | fault none => simp_all
    | fill none => simp_all
  | fault none stops =>
    cases h' with
    | last queued => simp_all
    | hand queued => simp_all
    | fault _ stops' => simp_all
    | fill _ step => simp_all
  | fill none step _ ih =>
    cases h' with
    | last queued => simp_all
    | hand queued => simp_all
    | fault _ stops => simp_all
    | fill _ step' others =>
      cases step.symm.trans step'
      exact ih others

theorem HandsOut.scan_fault (h : (ofBytes source).HandsOut ts) : (scan source).fault = none :=
  (h.ends.scans.unique (scan_scans source)).2

theorem Visits.scan_eq (h : Visits source past s) (others : Scans s ts fault) :
    (scan source).tokens = past ++ ts ∧ (scan source).fault = fault := by
  induction h generalizing ts with
  | start => exact others.unique (scan_scans source)
  | fill _ none step ih => exact ih (.fill none step others)
  | hand _ queued text ih =>
    obtain ⟨tokens, fault⟩ := ih (.hand queued text others)
    exact ⟨by simpa using tokens, fault⟩

theorem Scans.visits_eof (h : Scans s ts fault) (visits : Visits source past s)
    (sound : fault = none) :
    ∃ before s' t queue, Visits source before s' ∧ s'.queue = t :: queue ∧ t.kind = .eof ∧
      past ++ ts = before ++ [t] := by
  induction h generalizing past with
  | last queued eof => exact ⟨past, _, _, _, visits, queued, eof, rfl⟩
  | hand queued text _ ih =>
    obtain ⟨before, s', t', queue', visits', queued', eof, same⟩ :=
      ih (visits.hand queued text) sound
    exact ⟨before, s', t', queue', visits', queued', eof, by simpa using same⟩
  | fault => cases sound
  | fill none step _ ih => exact ih (visits.fill none step) sound

theorem scan_visits_eof (sound : (scan source).fault = none) :
    ∃ before s t queue, Visits source before s ∧ s.queue = t :: queue ∧ t.kind = .eof ∧
      (scan source).tokens = before ++ [t] :=
  (scan_scans source).visits_eof .start sound

end runs

/-- What stands before the next token of the line. -/
def lineGap (s : Scanner) : Gap := gap (0 < s.parens) false s.reader.chars

/-- Where the next token of the line is looked for. -/
def afterGap (s : Scanner) : Reader := s.reader.skip s.lineGap.length

/-- What reading on in a line can do: it ends the text or the line, or queues a token. -/
inductive LineStep (s : Scanner) : Scanner → Prop
  | ended (whole : s.lineGap.broken = false) (rest : s.afterGap.chars = []) :
      LineStep s { s with reader := s.afterGap }.finish
  | newline {rest : List Char} (whole : s.lineGap.broken = false)
      (next : s.afterGap.chars = '\n' :: rest) :
      LineStep s { s with
        reader := s.afterGap.skip 1
        lineStart := true
        queue := s.queue ++ if s.lineEmpty then [] else [s.afterGap.token .newline 1] }
  | token {c : Char} {rest : List Char} {kind : Token.Kind} {n : Nat}
      (whole : s.lineGap.broken = false) (next : s.afterGap.chars = c :: rest) (text : c ≠ '\n')
      (lexed : lexeme c rest = .token kind n) :
      LineStep s { s with
        reader := s.afterGap.skip n
        parens := parensAfter s.parens kind
        queue := s.queue ++ [s.afterGap.token kind n] }

/-- What the margin of a line can say: it opens a block, or closes blocks or none. -/
inductive MarginStep (s : Scanner) (n : Nat) : Scanner → Prop
  | opens (deeper : s.indents.headD 0 < (s.reader.skip n).pos.col) :
      MarginStep s n { s with
        reader := s.reader.skip n
        lineStart := false
        indents := (s.reader.skip n).pos.col :: s.indents
        queue := s.queue ++ [s.reader.layout .indent n] }
  | closes {open' : List Nat} (left : open' = s.indents.dropWhile ((s.reader.skip n).pos.col < ·))
      (level : open'.headD 0 = (s.reader.skip n).pos.col) :
      MarginStep s n { s with
        reader := s.reader.skip n
        lineStart := false
        indents := open'
        queue := s.queue ++
          List.replicate (s.indents.length - open'.length) (s.reader.layout .dedent n) }

/-- What a step can do: it reads a blank line, or goes on in a line after its margin. -/
inductive Step (s : Scanner) : Scanner → Prop
  | blank {n : Nat} (start : s.lineStart = true ∧ s.parens = 0)
      (line : margin s.reader.chars = .blank n) : Step s { s with reader := s.reader.skip n }
  | ended {n : Nat} {s' : Scanner} (start : s.lineStart = true ∧ s.parens = 0)
      (line : margin s.reader.chars = .ended n)
      (onward : LineStep { s with reader := s.reader.skip n, lineStart := false } s') : Step s s'
  | text {n : Nat} {s₁ s' : Scanner} (start : s.lineStart = true ∧ s.parens = 0)
      (line : margin s.reader.chars = .text n) (measured : MarginStep s n s₁)
      (onward : LineStep s₁ s') : Step s s'
  | line {s' : Scanner} (inside : ¬ (s.lineStart = true ∧ s.parens = 0)) (onward : LineStep s s') :
      Step s s'

section steps

variable {s s' : Scanner} {n : Nat}

theorem scanLine_cases (h : s.scanLine = .ok s') : LineStep s s' := by
  unfold scanLine at h
  simp only at h
  split at h
  · cases h
  · rename_i broken
    have whole : s.lineGap.broken = false := Bool.eq_false_iff.2 broken
    split at h
    · cases h
      exact .ended whole ‹_›
    · rename_i c rest next
      split at h
      · rename_i newline
        subst newline
        cases h
        exact .newline whole next
      · rename_i text
        split at h
        · rename_i kind n lexed
          cases h
          exact .token whole next text lexed
        · cases h

theorem indent_cases (h : s.indent n = .ok s') : MarginStep s n s' := by
  unfold indent at h
  simp only at h
  split at h
  · cases h
    exact .opens ‹_›
  · split at h
    · cases h
      exact .closes rfl ‹_›
    · cases h

theorem fill_cases (h : s.fill = .ok s') : Step s s' := by
  unfold fill at h
  split at h
  · rename_i start
    have start : s.lineStart = true ∧ s.parens = 0 := by simpa using start
    split at h
    · cases h
      exact .blank start ‹_›
    · exact .ended start ‹_› (scanLine_cases h)
    · rename_i n line
      cases hi : s.indent n with
      | error e => simp [hi, bind, Except.bind] at h
      | ok s₁ =>
        simp only [hi, ] at h
        exact .text start line (indent_cases hi) (scanLine_cases h)
  · rename_i inside
    exact .line (by simpa using inside) (scanLine_cases h)

theorem LineStep.scanLine (h : LineStep s s') : s.scanLine = .ok s' := by
  unfold Scanner.scanLine
  cases h with
  | ended whole rest =>
    simp only [lineGap, afterGap] at whole rest ⊢
    simp [whole, rest]
  | newline whole next =>
    simp only [lineGap, afterGap] at whole next ⊢
    simp only [whole, next, Bool.false_eq_true, if_false, if_true]
  | token whole next text lexed =>
    simp only [lineGap, afterGap] at whole next ⊢
    simp only [whole, next, text, lexed, Bool.false_eq_true, if_false]

theorem MarginStep.indent (h : MarginStep s n s') : s.indent n = .ok s' := by
  unfold Scanner.indent
  cases h with
  | opens deeper => simp only [deeper, if_true]
  | closes left level =>
    subst left
    have flat : ¬ s.indents.headD 0 < (s.reader.skip n).pos.col := by
      intro deeper
      cases indents : s.indents with
      | nil => simp [indents] at level deeper; omega
      | cons m rest =>
        rw [indents, List.headD_cons] at deeper
        have still : ¬ (s.reader.skip n).pos.col < m := by omega
        rw [indents, List.dropWhile_cons_of_neg (by simpa using still), List.headD_cons] at level
        omega
    simp only [flat, level, if_false, if_true]

theorem Step.fill (h : Step s s') : s.fill = .ok s' := by
  unfold Scanner.fill
  cases h with
  | blank start line => simp [start, line]
  | ended start line onward => simpa [start, line] using onward.scanLine
  | text start line measured onward =>
    simp [start, line, measured.indent, onward.scanLine, bind, Except.bind]
  | line inside onward =>
    simp [inside, onward.scanLine]

theorem LineStep.reader (h : LineStep s s') : ∃ n, s'.reader = s.reader.skip n := by
  cases h with
  | ended => exact ⟨_, rfl⟩
  | newline => exact ⟨_, Reader.skip_skip ..⟩
  | token => exact ⟨_, Reader.skip_skip ..⟩

theorem MarginStep.reader (h : MarginStep s n s') : s'.reader = s.reader.skip n := by
  cases h <;> rfl

theorem Step.reader (h : Step s s') : ∃ n, s'.reader = s.reader.skip n := by
  cases h with
  | blank => exact ⟨_, rfl⟩
  | ended _ _ onward =>
    obtain ⟨n, reader⟩ := onward.reader
    exact ⟨_, reader.trans (Reader.skip_skip ..)⟩
  | text _ _ measured onward =>
    obtain ⟨n, reader⟩ := onward.reader
    exact ⟨_, reader.trans (measured.reader ▸ Reader.skip_skip ..)⟩
  | line _ onward => exact onward.reader

theorem Visits.reached (h : Visits source past s) : s.reader.Reached source := by
  induction h with
  | start => exact .start
  | fill _ _ step ih =>
    obtain ⟨n, reader⟩ := (fill_cases step).reader
    exact reader ▸ ih.skip n
  | hand _ _ _ ih => exact ih

end steps

end Scanner
end WordScript
