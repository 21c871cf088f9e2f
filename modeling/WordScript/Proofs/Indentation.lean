import WordScript.Proofs.Leaves
import WordScript.Proofs.ScanAlike

/-! Open blocks.

The columns of the open blocks are kept as a stack. A line that starts deeper than the innermost block
opens one, a line that starts further out closes the blocks that are deeper, and the end of the text
closes all of them. Each block that is opened or closed gives a token, so that the tokens so far tell
how many blocks are open. -/
namespace WordScript
namespace Scanner

open Token (Kind)

def blockStarts (ts : List Token) : Nat := ts.countP (·.kind = .indent)

def blockEnds (ts : List Token) : Nat := ts.countP (·.kind = .dedent)

@[simp] theorem blockStarts_concat (ts : List Token) (t : Token) :
    blockStarts (ts ++ [t]) = blockStarts ts + if t.kind = .indent then 1 else 0 := by
  simp [blockStarts, ]

@[simp] theorem blockEnds_concat (ts : List Token) (t : Token) :
    blockEnds (ts ++ [t]) = blockEnds ts + if t.kind = .dedent then 1 else 0 := by
  simp [blockEnds, ]

/-- The columns of the blocks that are open after the tokens, innermost first. -/
structure Nested (ts : List Token) (indents : List Nat) : Prop where
  outer : indents.getLast? = some 0
  deeper : indents.Pairwise (· > ·)
  balance : blockStarts ts = blockEnds ts + (indents.length - 1)
  ahead : ∀ us, us <+: ts → blockEnds us ≤ blockStarts us

namespace Nested

variable {ts : List Token} {indents : List Nat} {t : Token}

theorem start : Nested [] [0] where
  outer := rfl
  deeper := List.pairwise_singleton ..
  balance := rfl
  ahead us front := by
    rw [List.prefix_nil.1 front]
    exact Nat.le_refl 0

section

variable (h : Nested ts indents)
include h

theorem exists_top : ∃ top rest, indents = top :: rest := by
  cases indents with
  | nil => cases h.outer
  | cons top rest => exact ⟨top, rest, rfl⟩

/-- As many blocks as were opened and not closed are open, so that no more can have been closed. -/
theorem concat (outer : indents'.getLast? = some 0) (deeper : indents'.Pairwise (· > ·))
    (balance : blockStarts (ts ++ [t]) = blockEnds (ts ++ [t]) + (indents'.length - 1)) :
    Nested (ts ++ [t]) indents' where
  outer := outer
  deeper := deeper
  balance := balance
  ahead us front := by
    rcases List.prefix_concat_iff.1 front with rfl | front
    · omega
    · exact h.ahead us front

theorem plain (indent : t.kind ≠ .indent) (dedent : t.kind ≠ .dedent) :
    Nested (ts ++ [t]) indents :=
  h.concat h.outer h.deeper (by simpa [indent, dedent] using h.balance)

theorem opens (kind : t.kind = .indent) (above : indents.headD 0 < col) :
    Nested (ts ++ [t]) (col :: indents) := by
  obtain ⟨top, rest, rfl⟩ := h.exists_top
  have outer : (col :: top :: rest).getLast? = some 0 := by simpa using h.outer
  refine h.concat outer (List.pairwise_cons.2 ⟨fun m hm => ?_, h.deeper⟩) ?_
  · -- The top of the stack is the largest of the columns.
    rcases List.mem_cons.1 hm with rfl | hm
    · exact above
    · exact Nat.lt_trans ((List.pairwise_cons.1 h.deeper).1 m hm) above
  · have balance := h.balance
    simp only [blockStarts_concat, blockEnds_concat, kind, List.length_cons] at balance ⊢
    simp
    omega

end

theorem closes_one (h : Nested ts (top :: m :: rest)) (kind : t.kind = .dedent) :
    Nested (ts ++ [t]) (m :: rest) := by
  refine h.concat (by simpa using h.outer) (List.pairwise_cons.1 h.deeper).2 ?_
  have balance := h.balance
  simp only [blockStarts_concat, blockEnds_concat, kind, List.length_cons] at balance ⊢
  simp
  omega

theorem closes {inner : List Nat} (h : Nested ts (inner ++ rest)) (some : rest ≠ [])
    (kind : t.kind = .dedent) : Nested (ts ++ List.replicate inner.length t) rest := by
  induction inner generalizing ts with
  | nil => simpa using h
  | cons top inner ih =>
    obtain ⟨m, others, split⟩ := List.exists_cons_of_ne_nil (List.append_ne_nil_of_right_ne_nil inner some)
    rw [List.length_cons, List.replicate_succ, ← List.singleton_append, ← List.append_assoc]
    refine ih ?_
    rw [List.cons_append, split] at h
    rw [split]
    exact h.closes_one kind

end Nested

section runs

variable {source : Bytes} {past : List Token} {s s' : Scanner} {n : Nat}

theorem Nested.line_end (h : Nested past s.indents) (kind : t.kind = .newline) :
    Nested (past ++ if s.lineEmpty then [] else [t]) s.indents := by
  cases s.lineEmpty with
  | true => simpa using h
  | false => exact h.plain (by simp [kind]) (by simp [kind])

theorem Nested.finish (h : Nested (past ++ s.queue) s.indents) :
    Nested (past ++ s.finish.queue) s.finish.indents := by
  have ended := h.line_end (t := s.reader.layout .newline 0) rfl
  obtain ⟨inner, split⟩ := List.getLast?_eq_some_iff.1 h.outer
  have outermost : s.finish.indents = [0] := by simp [Scanner.finish, split]
  have depth : s.indents.length - 1 = inner.length := by simp [split]
  rw [outermost]
  rw [split] at ended
  have all := (ended.closes (by simp) (t := s.reader.layout .dedent 0) rfl).plain
    (t := s.reader.layout .eof 0) (by rintro ⟨⟩) (by rintro ⟨⟩)
  simpa [Scanner.finish, depth] using all

theorem LineStep.nested (step : LineStep s s') (h : Nested (past ++ s.queue) s.indents) :
    Nested (past ++ s'.queue) s'.indents := by
  cases step with
  | ended => exact Nested.finish (s := { s with reader := s.afterGap }) h
  | newline =>
    rw [← List.append_assoc]
    exact h.line_end rfl
  | token _ _ _ lexed =>
    rw [← List.append_assoc]
    have text := lexeme_not_layout lexed
    refine h.plain ?_ ?_ <;> rintro rfl <;> cases text

theorem MarginStep.nested (step : MarginStep s n s') (h : Nested (past ++ s.queue) s.indents) :
    Nested (past ++ s'.queue) s'.indents := by
  cases step with
  | opens deeper =>
    rw [← List.append_assoc]
    exact h.opens rfl deeper
  | @closes left dropped level =>
    set col := (s.reader.skip n).pos.col
    have split : s.indents = s.indents.takeWhile (col < ·) ++ left := by
      rw [dropped, List.takeWhile_append_dropWhile]
    have some : left ≠ [] := by
      rintro rfl
      have last : (s.indents.dropWhile (col < ·)).getLast? = some 0 := getLast?_dropWhile h.outer
      rw [← dropped] at last
      cases last
    have count : s.indents.length - left.length = (s.indents.takeWhile (col < ·)).length := by
      have := congrArg List.length split
      rw [List.length_append] at this
      omega
    rw [split] at h
    simp only [count, ← List.append_assoc]
    exact h.closes some rfl

theorem Step.nested (step : Step s s') (h : Nested (past ++ s.queue) s.indents) :
    Nested (past ++ s'.queue) s'.indents := by
  cases step with
  | blank => exact h
  | ended _ _ onward => exact onward.nested h
  | text _ _ measured onward => exact onward.nested (measured.nested h)
  | line _ onward => exact onward.nested h

theorem Visits.nested (h : Visits source past s) : Nested (past ++ s.queue) s.indents := by
  induction h with
  | start => exact .start
  | fill _ _ step ih => exact (fill_cases step).nested ih
  | hand _ queued _ ih => simpa [handOut, queued] using ih

/-- The scanners that asking for tokens leads to, each with the tokens handed out before it. -/
inductive Asked (source : Bytes) : List Token → Scanner → Prop
  | start : Asked source [] (ofBytes source)
  | next {past : List Token} {s s' : Scanner} {t : Token} (before : Asked source past s)
      (next : s.next = .ok (t, s')) : Asked source (past ++ [t]) s'

theorem Fills.nested (fills : Fills s r) (ok : r = .ok s') (h : Nested (past ++ s.queue) s.indents) :
    Nested (past ++ s'.queue) s'.indents := by
  induction fills with
  | queued =>
    cases ok
    exact h
  | fault => cases ok
  | step _ steps _ ih => exact ih ok ((fill_cases steps).nested h)

theorem Asked.nested (h : Asked source past s) : Nested (past ++ s.queue) s.indents := by
  induction h with
  | start => exact .start
  | next _ next ih =>
    obtain ⟨s₁, queue, fills, queued, rfl⟩ := next_ok next
    simpa [handOut, queued] using fills.nested rfl ih

end runs

/-- The column that the text of a line starts at, after `n` characters of margin. -/
def lineCol (s : Scanner) (n : Nat) : Nat := (s.reader.skip n).pos.col

/-- A line that starts further out than the innermost block, but where no open block starts. -/
def Unmatched (s : Scanner) (n : Nat) : Prop :=
  s.lineCol n < s.indents.headD 0 ∧ s.lineCol n ∉ s.indents

instance (s : Scanner) (n : Nat) : Decidable (s.Unmatched n) := inferInstanceAs (Decidable (_ ∧ _))

/-- A logical line starts outside parentheses, and something stands on it after `n` characters of
margin. -/
structure LineStart (source : Bytes) (past : List Token) (s : Scanner) (n : Nat) : Prop where
  visits : Visits source past s
  none : s.queue = []
  start : s.lineStart = true
  outside : s.parens = 0
  text : margin s.reader.chars = .text n

section margins

variable {source : Bytes} {past : List Token} {s s' s₁ : Scanner} {n : Nat}

theorem headD_dropWhile_iff {indents : List Nat} (outer : indents.getLast? = some 0)
    (deeper : indents.Pairwise (· > ·)) :
    (indents.dropWhile (col < ·)).headD 0 = col ↔ col ∈ indents := by
  induction indents with
  | nil => cases outer
  | cons top rest ih =>
    obtain ⟨below, deeper⟩ := List.pairwise_cons.1 deeper
    by_cases inside : col < top
    · rw [List.dropWhile_cons_of_pos (by simpa using inside)]
      cases rest with
      | nil =>
        cases outer
        exact absurd inside (Nat.not_lt_zero col)
      | cons m rest =>
        rw [ih (by simpa using outer) deeper, List.mem_cons (a := col) (b := top)]
        exact ⟨.inr, fun h => h.resolve_left (by omega)⟩
    · rw [List.dropWhile_cons_of_neg (by simpa using inside), List.mem_cons]
      refine ⟨fun h => .inl h.symm, fun h => ?_⟩
      rcases h with rfl | h
      · rfl
      · exact absurd (below col h) inside

theorem MarginStep.top (step : MarginStep s n s₁) (h : Nested (past ++ s.queue) s.indents) :
    s₁.indents.head? = some (s.lineCol n) := by
  cases step with
  | opens => rfl
  | @closes left dropped level =>
    have last : left.getLast? = some 0 := dropped ▸ getLast?_dropWhile h.outer
    cases left with
    | nil => cases last
    | cons top rest => exact congrArg some level

theorem indent_of_unmatched (h : s.Unmatched n) (nested : Nested (past ++ s.queue) s.indents) :
    s.indent n = .error ⟨s.reader.spanTo (s.reader.skip n), .unmatchedDedent⟩ := by
  obtain ⟨below, other⟩ := h
  have flat : ¬ s.indents.headD 0 < (s.reader.skip n).pos.col := Nat.lt_asymm below
  have gone : (s.indents.dropWhile ((s.reader.skip n).pos.col < ·)).headD 0 ≠
      (s.reader.skip n).pos.col := fun level =>
    other ((headD_dropWhile_iff nested.outer nested.deeper).1 level)
  unfold indent
  simp only [flat, gone, if_false]

theorem indent_of_matched (h : ¬ s.Unmatched n) (nested : Nested (past ++ s.queue) s.indents) :
    ∃ s₁, s.indent n = .ok s₁ ∧ MarginStep s n s₁ := by
  by_cases deeper : s.indents.headD 0 < (s.reader.skip n).pos.col
  · exact ⟨_, (MarginStep.opens deeper).indent, .opens deeper⟩
  · -- A line that is no deeper than the innermost block starts where a block does.
    have mem : (s.reader.skip n).pos.col ∈ s.indents := by
      obtain ⟨top, rest, indents⟩ := nested.exists_top
      by_contra other
      refine h ⟨Nat.lt_of_le_of_ne (Nat.not_lt.1 deeper) fun same => other ?_, other⟩
      rw [← lineCol, same, indents]
      exact List.mem_cons_self
    have level := (headD_dropWhile_iff nested.outer nested.deeper).2 mem
    exact ⟨_, (MarginStep.closes rfl level).indent, .closes rfl level⟩

variable (h : LineStart source past s n)
include h

theorem LineStart.fill : s.fill = s.indent n >>= scanLine :=
  fill_text h.start h.outside h.text

theorem LineStart.nested : Nested (past ++ s.queue) s.indents :=
  h.visits.nested

theorem LineStart.refused (unmatched : s.Unmatched n) :
    s.fill = .error ⟨s.reader.spanTo (s.reader.skip n), .unmatchedDedent⟩ := by
  rw [h.fill, indent_of_unmatched unmatched h.nested]
  rfl

theorem LineStart.measured (matched : ¬ s.Unmatched n) :
    ∃ s₁, s.indent n = .ok s₁ ∧ s.fill = s₁.scanLine ∧ s₁.indents.head? = some (s.lineCol n) ∧
      Nested (past ++ s₁.queue) s₁.indents := by
  obtain ⟨s₁, indent, step⟩ := indent_of_matched matched h.nested
  refine ⟨s₁, indent, ?_, step.top h.nested, step.nested h.nested⟩
  rw [h.fill, indent]
  rfl

end margins

section ends

variable {source : Bytes} {past ts before after : List Token} {s s' : Scanner} {t : Token}
  {fault : Option SyntaxError}

theorem last_of_split (split : ts ++ [u] = before ++ t :: after) (other : t ∉ ts) :
    before = ts ∧ after = [] := by
  rcases List.eq_nil_or_concat after with rfl | ⟨others, last, rfl⟩
  · exact ⟨(List.append_inj' split rfl).1.symm, rfl⟩
  · have front : ts ++ [u] = (before ++ t :: others) ++ [last] := by simpa using split
    exact absurd (by simp [(List.append_inj' front rfl).1]) other

theorem LineStep.added (step : LineStep s s') :
    (∃ us, s'.queue = s.queue ++ us ∧ us.length ≤ 1 ∧ ∀ u ∈ us, u.kind ≠ .eof) ∨
      ∃ us u, s'.queue = s.queue ++ us ++ [u] ∧ (∀ u ∈ us, u.kind = .newline ∨ u.kind = .dedent) ∧
        u.kind = .eof ∧ s'.indents = s.indents.drop (s.indents.length - 1) := by
  cases step with
  | ended =>
    refine .inr ⟨_, _, by rw [Scanner.finish, List.append_assoc s.queue], fun u hu => ?_, rfl, rfl⟩
    rcases List.mem_append.1 hu with hu | hu
    · split at hu
      · cases hu
      · exact .inl (List.mem_singleton.1 hu ▸ rfl)
    · exact .inr (List.eq_of_mem_replicate hu ▸ rfl)
  | newline =>
    split <;> simp
  | token _ _ _ lexed =>
    refine .inl ⟨_, rfl, Nat.le_refl 1, fun u hu eof => ?_⟩
    rw [List.mem_singleton.1 hu, Reader.token_kind] at eof
    have text := lexeme_not_layout lexed
    rw [eof] at text
    cases text

theorem LineStep.closes_all (step : LineStep s s') (outer : s.indents.getLast? = some 0)
    (running : ∀ u ∈ s.queue, u.kind ≠ .eof) (split : s'.queue = before ++ t :: after)
    (eof : t.kind = .eof) : after = [] ∧ s'.indents = [0] := by
  rcases step.added with ⟨us, queue, -, others⟩ | ⟨us, u, queue, layout, -, indents⟩
  · have mem : t ∈ s.queue ++ us := by simp [← queue, split]
    rcases List.mem_append.1 mem with mem | mem
    · exact absurd eof (running t mem)
    · exact absurd eof (others t mem)
  · refine ⟨(last_of_split (queue.symm.trans split) fun mem => ?_).2, ?_⟩
    · rcases List.mem_append.1 mem with mem | mem
      · exact running t mem eof
      · rcases layout t mem with kind | kind <;> cases kind.symm.trans eof
    · obtain ⟨inner, split⟩ := List.getLast?_eq_some_iff.1 outer
      simp [indents, split]

theorem MarginStep.layout (step : MarginStep s n s') (none : s.queue = []) : Margins s'.queue := by
  cases step with
  | opens => simp [Margins, none, Token.Kind.isLayout]
  | closes => simp [Margins, none, Token.Kind.isLayout]

theorem Visits.closes_all (h : Visits source past s) (split : s.queue = before ++ t :: after)
    (eof : t.kind = .eof) : after = [] ∧ s.indents = [0] := by
  induction h generalizing before with
  | start => simp [ofBytes] at split
  | fill visits none step =>
    have nested := visits.nested
    cases fill_cases step with
    | blank => simp [none] at split
    | ended _ _ onward => exact onward.closes_all nested.outer (by simp [none]) split eof
    | text _ _ measured onward =>
      exact onward.closes_all (measured.nested nested).outer
        (fun u hu => (measured.layout none u hu).2) split eof
    | line _ onward => exact onward.closes_all nested.outer (by simp [none]) split eof
  | @hand _ queue s u _ queued _ ih =>
    have front : s.queue = (u :: before) ++ t :: after := by
      rw [queued]
      exact congrArg (u :: ·) split
    exact ih front

theorem Scans.visits_tokens (h : Scans s ts fault) (visits : Visits source past s) :
    ∃ before s', Visits source before s' ∧ past ++ ts <+: before ++ s'.queue := by
  induction h generalizing past with
  | last queued => exact ⟨past, _, visits, by simp [queued]⟩
  | hand queued text _ ih =>
    obtain ⟨before, s', visits', front⟩ := ih (visits.hand queued text)
    exact ⟨before, s', visits', by simpa using front⟩
  | fault => exact ⟨past, _, visits, by simp⟩
  | fill none step _ ih => exact ih (visits.fill none step)

theorem scan_ahead (front : ts <+: (scan source).tokens) : blockEnds ts ≤ blockStarts ts := by
  obtain ⟨before, s, visits, queued⟩ := (scan_scans source).visits_tokens .start
  exact visits.nested.ahead ts (front.trans (by simpa using queued))

theorem scan_balanced (sound : (scan source).fault = none) :
    blockEnds (scan source).tokens = blockStarts (scan source).tokens := by
  obtain ⟨before, s, t, queue, visits, queued, eof, tokens⟩ := scan_visits_eof sound
  have split : s.queue = [] ++ t :: queue := queued
  obtain ⟨rfl, indents⟩ := visits.closes_all split eof
  have balance := visits.nested.balance
  rw [queued, indents, ← tokens] at balance
  exact balance.symm

end ends

section faults

variable {source : Bytes} {past ts : List Token} {s : Scanner} {e : SyntaxError}
  {fault : Option SyntaxError}

theorem lexeme_matched (h : lexeme c rest = .fault problem n) : problem ≠ .unmatchedDedent := by
  unfold lexeme at h
  split at h
  · split at h <;> cases h
    nofun
  · split at h
    · unfold numberLexeme at h
      grind
    · split at h
      · cases h
      · unfold signLexeme at h
        grind

theorem scanLine_matched (h : s.scanLine = .error e) : e.problem ≠ .unmatchedDedent := by
  unfold scanLine at h
  simp only at h
  split at h
  · cases h
    nofun
  · split at h
    · cases h
    · split at h
      · cases h
      · split at h
        · cases h
        · rename_i lexed
          cases h
          exact lexeme_matched lexed

theorem Scans.visits_fault (h : Scans s ts fault) (visits : Visits source past s)
    (stopped : fault = some e) :
    ∃ before s', Visits source before s' ∧ s'.queue = [] ∧ s'.fill = .error e := by
  induction h generalizing past with
  | last => cases stopped
  | hand queued text _ ih => exact ih (visits.hand queued text) stopped
  | fault none stops =>
    cases stopped
    exact ⟨past, _, visits, none, stops⟩
  | fill none step _ ih => exact ih (visits.fill none step) stopped

theorem Visits.unmatched (h : Visits source past s) (none : s.queue = []) (stops : s.fill = .error e)
    (problem : e.problem = .unmatchedDedent) : ∃ n, LineStart source past s n ∧ s.Unmatched n := by
  cases start : s.lineStart with
  | false =>
    rw [fill_midLine start] at stops
    exact absurd problem (scanLine_matched stops)
  | true =>
    have outside := h.outside start
    cases line : margin s.reader.chars with
    | blank n => simp [Scanner.fill, start, outside, line] at stops
    | ended n =>
      rw [fill_ended start outside line] at stops
      exact absurd problem (scanLine_matched stops)
    | text n =>
      have begins : LineStart source past s n := ⟨h, none, start, outside, line⟩
      refine ⟨n, begins, ?_⟩
      by_contra matched
      obtain ⟨s₁, -, fill, -⟩ := begins.measured matched
      exact scanLine_matched (fill ▸ stops) problem

theorem scan_unmatched_iff (source : Bytes) :
    (∃ e, (scan source).fault = some e ∧ e.problem = .unmatchedDedent) ↔
      ∃ past s n, LineStart source past s n ∧ s.Unmatched n := by
  constructor
  · rintro ⟨e, stopped, problem⟩
    obtain ⟨past, s, visits, none, stops⟩ := (scan_scans source).visits_fault .start stopped
    obtain ⟨n, begins, unmatched⟩ := visits.unmatched none stops problem
    exact ⟨past, s, n, begins, unmatched⟩
  · rintro ⟨past, s, n, begins, unmatched⟩
    have stops := begins.refused unmatched
    exact ⟨_, (begins.visits.scan_eq (.fault begins.none stops)).2, rfl⟩

end faults

section leading

variable {source : Bytes} {past before after : List Token} {s s' : Scanner} {t : Token}

theorem LineStep.queue_split (step : LineStep s s') (margins : Margins s.queue)
    (split : s'.queue = before ++ t :: after) (text : t.kind.isLayout = false) :
    before = s.queue := by
  have other : t ∉ s.queue := fun mem => by cases text.symm.trans (margins t mem).1
  rcases step.added with ⟨_ | ⟨u, _ | ⟨v, us⟩⟩, queue, short, -⟩ | ⟨us, u, queue, layout, eof, -⟩
  · rw [List.append_nil] at queue
    exact absurd (by simp [← queue, split]) other
  · exact (last_of_split (queue.symm.trans split) other).1
  · simp at short
  · have mem : t ∈ s.queue ++ us ++ [u] := by simp [← queue, split]
    simp only [List.mem_append, other, List.mem_singleton, false_or] at mem
    rcases mem with mem | rfl
    · rcases layout t mem with kind | kind <;> cases kind ▸ text
    · cases eof ▸ text

theorem LineStep.text_last (step : LineStep s s') (inside : s'.lineStart = false) (past : List Token) :
    ∃ u ∈ (past ++ s'.queue).getLast?, u.kind.isLayout = false ∨ u.kind = .eof := by
  cases step with
  | ended => exact ⟨s.afterGap.layout .eof 0, by simp [Scanner.finish], .inr rfl⟩
  | newline => cases inside
  | @token _ _ kind n _ _ _ lexed =>
    exact ⟨s.afterGap.token kind n, by simp, .inl (lexeme_not_layout lexed)⟩

theorem Visits.not_ended (h : Visits source past s) : ∀ u ∈ past, u.kind ≠ .eof := by
  induction h with
  | start => nofun
  | fill _ _ _ ih => exact ih
  | hand _ _ text ih => simpa [or_imp, forall_and] using ⟨ih, text⟩

theorem Visits.text_last (h : Visits source past s) (inside : s.lineStart = false) :
    ∃ u ∈ (past ++ s.queue).getLast?, u.kind.isLayout = false ∨ u.kind = .eof := by
  induction h with
  | start => cases inside
  | fill _ _ step ih =>
    cases fill_cases step with
    | blank start =>
      cases inside.symm.trans start.1
    | ended _ _ onward => exact onward.text_last inside _
    | text _ _ _ onward => exact onward.text_last inside _
    | line _ onward => exact onward.text_last inside _
  | hand _ queued _ ih => simpa [handOut, queued] using ih inside

theorem LineStep.at_end (step : LineStep s s') (ended : s.reader.chars = []) :
    ∃ us, s'.queue = s.queue ++ us ∧ ∀ u ∈ us, u.kind.isLayout = true := by
  cases step with
  | ended => exact finish_layout { s with reader := s.afterGap }
  | newline _ next => simp [afterGap, ended] at next
  | token _ next => simp [afterGap, ended] at next

theorem margin_ended (h : margin cs = .ended n) : cs.drop n = [] := by
  unfold margin at h
  grind

theorem Visits.leading_step (h : Visits source past s) (none : s.queue = []) (step : Step s s')
    (split : s'.queue = before ++ t :: after) (text : t.kind.isLayout = false)
    (first : ∀ u ∈ (past ++ before).getLast?, u.kind.isLayout = true) :
    ∃ n s₁, LineStart source past s n ∧ s.indent n = .ok s₁ ∧ before = s₁.queue := by
  cases step with
  | blank => simp [none] at split
  | ended _ line onward =>
    obtain ⟨us, queue, layout⟩ := onward.at_end (by simpa using margin_ended line)
    obtain rfl : before ++ t :: after = us := by simpa [← split, none] using queue
    cases text.symm.trans (layout t (by simp))
  | @text n s₁ _ start line measured onward =>
    exact ⟨n, s₁, ⟨h, none, start.1, start.2, line⟩, measured.indent,
      onward.queue_split (measured.layout none) split text⟩
  | line inside onward =>
    exfalso
    obtain rfl : before = [] := none ▸ onward.queue_split (by simp [Margins, none]) split text
    have later : s.lineStart = false := by
      rw [← Bool.not_eq_true]
      exact fun start => inside ⟨start, h.outside start⟩
    obtain ⟨u, last, read⟩ := h.text_last later
    rw [none] at last
    rcases read with read | eof
    · cases read.symm.trans (first u last)
    · rw [List.append_nil] at last
      exact h.not_ended u (List.mem_of_getLast? last) eof

/-- The first token of a line was read after the margin of the line was measured. -/
theorem Visits.leading (h : Visits source past s) (split : past ++ s.queue = before ++ t :: after)
    (text : t.kind.isLayout = false) (first : ∀ u ∈ before.getLast?, u.kind.isLayout = true) :
    ∃ past' s' n s₁, LineStart source past' s' n ∧ s'.indent n = .ok s₁ ∧
      before = past' ++ s₁.queue := by
  induction h generalizing after with
  | start => simp [ofBytes] at split
  | hand _ queued _ ih => exact ih (by simpa [handOut, queued] using split)
  | @fill past s s' visits none step ih =>
    have place : (∃ added, before = past ++ added ∧ s'.queue = added ++ t :: after) ∨
        ∃ rest, past = before ++ t :: rest := by
      rcases List.append_eq_append_iff.1 split with here | ⟨_ | ⟨u, rest⟩, earlier, queue⟩
      · exact .inl here
      · exact .inl ⟨[], by simpa using earlier.symm, by simpa using queue.symm⟩
      · obtain ⟨rfl, -⟩ := List.cons.inj queue
        exact .inr ⟨rest, earlier⟩
    rcases place with ⟨added, rfl, queue⟩ | ⟨rest, earlier⟩
    · obtain ⟨n, s₁, line, measured, rfl⟩ :=
        visits.leading_step none (fill_cases step) queue text first
      exact ⟨past, s, n, s₁, line, measured, rfl⟩
    · exact ih (by simpa [none] using earlier)

end leading
end Scanner

/-- The stack of open blocks starts with the margin of the text and grows strictly, and as many blocks are
open as were opened and not closed, however many tokens were asked for. So blocks are closed only
after they were opened, and the end of the text closes all of them. A line with something on it leaves
its own column on top of the stack, unless no open block starts there and the innermost one is deeper:
that is an error, and the only one of its kind. The first token of every line stands after its margin. -/
theorem indentation_kept (source : Bytes) :
    (∀ past s, Scanner.Asked source past s →
      s.indents.reverse.head? = some 0 ∧ s.indents.reverse.Pairwise (· < ·) ∧
      (Scanner.blockStarts (past ++ s.queue) : Int) - Scanner.blockEnds (past ++ s.queue) =
        s.indents.length - 1) ∧
    (∀ before, before <+: (Scanner.scan source).tokens →
      Scanner.blockEnds before ≤ Scanner.blockStarts before) ∧
    ((Scanner.scan source).fault = none →
      Scanner.blockEnds (Scanner.scan source).tokens =
        Scanner.blockStarts (Scanner.scan source).tokens) ∧
    (∀ past s n, Scanner.LineStart source past s n →
      if s.lineCol n < s.indents.headD 0 ∧ s.lineCol n ∉ s.indents then
        s.fill = .error ⟨s.reader.spanTo (s.reader.skip n), .unmatchedDedent⟩
      else
        ∃ s₁, s.indent n = .ok s₁ ∧ s.fill = s₁.scanLine ∧
          s₁.indents.head? = some (s.lineCol n)) ∧
    (∀ before t after, (Scanner.scan source).tokens = before ++ t :: after →
      t.kind.isLayout = false → (∀ u ∈ before.getLast?, u.kind.isLayout = true) →
      ∃ past s n s₁, Scanner.LineStart source past s n ∧ s.indent n = .ok s₁ ∧
        before = past ++ s₁.queue) ∧
    ((∃ e, (Scanner.scan source).fault = some e ∧ e.problem = .unmatchedDedent) ↔
      ∃ past s n, Scanner.LineStart source past s n ∧
        s.lineCol n < s.indents.headD 0 ∧ s.lineCol n ∉ s.indents) := by
  refine ⟨fun past s asked => ?_, fun before front => ?_, fun sound => ?_, fun past s n line => ?_,
    fun before t after split text first => ?_, Scanner.scan_unmatched_iff source⟩
  · have nested := asked.nested
    obtain ⟨top, rest, indents⟩ := nested.exists_top
    have balance := nested.balance
    refine ⟨by rw [List.head?_reverse, nested.outer], List.pairwise_reverse.2 nested.deeper, ?_⟩
    simp only [indents, List.length_cons] at balance ⊢
    omega
  · exact Scanner.scan_ahead front
  · exact Scanner.scan_balanced sound
  · split
    · exact line.refused ‹_›
    · obtain ⟨s₁, indent, fill, top, -⟩ := line.measured ‹_›
      exact ⟨s₁, indent, fill, top⟩
  · obtain ⟨past, s, visits, rest, queued⟩ := (Scanner.scan_scans source).visits_tokens .start
    rw [List.nil_append, split, List.append_assoc] at queued
    exact visits.leading queued.symm text first

/-- A first line that opens a block, and a second one that closes it. -/
def outdented : Bytes := Utf8.encode "  a\nb\n"

/-- A first line that opens a block, and a second one further out where no block starts. -/
def slanted : Bytes := Utf8.encode "  a\n b\n"

theorem slanted_indentation :
    (∃ t s, Scanner.Asked slanted [t] s ∧ t.kind = .indent ∧ s.indents.reverse = [0, 2] ∧
      s.indents.reverse.Pairwise (· < ·) ∧
      (Scanner.blockStarts ([t] ++ s.queue) : Int) - Scanner.blockEnds ([t] ++ s.queue) =
        s.indents.length - 1) ∧
    (∃ s₁, (Scanner.ofBytes slanted).indent 2 = .ok s₁ ∧ s₁.indents.head? = some 2) ∧
    (∃ past s n, Scanner.LineStart slanted past s n ∧ s.lineCol n < s.indents.headD 0 ∧
      s.lineCol n ∉ s.indents) ∧
    (Scanner.scan outdented).fault = none ∧
    Scanner.blockEnds (Scanner.scan outdented).tokens =
      Scanner.blockStarts (Scanner.scan outdented).tokens := by
  obtain ⟨asked, -, -, line, -, unmatched⟩ := indentation_kept slanted
  have sound : (Scanner.scan outdented).fault = none := by decide +kernel
  refine ⟨?_, ?_, unmatched.1 ?_, sound, (indentation_kept outdented).2.2.1 sound⟩
  · have parts : ((Scanner.ofBytes slanted).next.toOption.map fun r => (r.1.kind, r.2.indents)) =
        some (.indent, [2, 0]) := by decide +kernel
    cases next : (Scanner.ofBytes slanted).next with
    | error e =>
      rw [next] at parts
      cases parts
    | ok r =>
      simp only [next, Except.toOption, Option.map_some, Option.some.injEq, Prod.mk.injEq] at parts
      have once : Scanner.Asked slanted [r.1] r.2 := .next .start next
      exact ⟨r.1, r.2, once, parts.1, by rw [parts.2]; rfl, (asked _ _ once).2⟩
  · have starts : Scanner.LineStart slanted [] (Scanner.ofBytes slanted) 2 :=
      ⟨.start, rfl, rfl, rfl, by decide +kernel⟩
    have matched : ¬ (Scanner.ofBytes slanted).Unmatched 2 := by decide +kernel
    obtain ⟨s₁, indent, -, top⟩ := (if_neg matched).mp (line _ _ _ starts)
    exact ⟨s₁, indent, top⟩
  · have fault : (Scanner.scan slanted).fault.map (·.problem) = some .unmatchedDedent := by
      decide +kernel
    exact Option.map_eq_some_iff.1 fault

end WordScript
