import WordScript.Proofs.ScanPrefix

/-! Runs that read alike.

Two scanners with the same text ahead of them, the same open blocks and the same open parentheses
hand out tokens of the same kinds and texts, wherever they stand. Only at the start of a line the
column counts, since it is what a block is measured by. -/
namespace WordScript

/-- Tokens of one kind and one text, wherever they stand. -/
structure Token.Alike (t t' : Token) : Prop where
  kind : t.kind = t'.kind
  value : t.value = t'.value

namespace Scanner

open Token (Kind)

variable {y : Except SyntaxError Scanner}

namespace Reader

variable {r r' : Reader} {n : Nat}

theorem token_alike (h : r.chars = r'.chars) (kind : Kind) (n : Nat) :
    Token.Alike (r.token kind n) (r'.token kind n) where
  kind := rfl
  value := by
    simp only [chars] at h
    simp [token, h]

theorem layout_alike (r r' : Reader) (kind : Kind) (m n : Nat) :
    Token.Alike (r.layout kind m) (r'.layout kind n) := ⟨rfl, rfl⟩

theorem foldl_after_col (cs : List Char) (h : p.col = q.col) :
    (cs.foldl Pos.after p).col = (cs.foldl Pos.after q).col := by
  induction cs generalizing p q with
  | nil => exact h
  | cons c cs ih =>
    refine ih ?_
    simp only [Pos.after]
    split
    · rfl
    · split <;> simp [h]

theorem skip_col (h : r.chars = r'.chars) (col : r.pos.col = r'.pos.col) (n : Nat) :
    (r.skip n).pos.col = (r'.skip n).pos.col := by
  simp only [chars] at h
  rw [skip_pos, skip_pos, List.map_take, List.map_take, h]
  exact foldl_after_col _ col

theorem skip_newline_col {rest : List Char} (h : r.chars = '\n' :: rest) :
    (r.skip 1).pos.col = 0 := by
  rw [chars] at h
  rw [skip_pos, List.map_take, h]
  rfl

end Reader

/-- Scanners that agree in all but the text ahead and their places in it. -/
structure Twins (s s' : Scanner) : Prop where
  indents : s.indents = s'.indents
  parens : s.parens = s'.parens
  lineStart : s.lineStart = s'.lineStart
  lineEmpty : s.lineEmpty = s'.lineEmpty
  queue : List.Forall₂ Token.Alike s.queue s'.queue

/-- Scanners that agree in all but their places in the text. -/
structure Alike (s s' : Scanner) : Prop extends Twins s s' where
  chars : s.reader.chars = s'.reader.chars
  outside : s.lineStart = true → s.parens = 0 ∧ s.reader.pos.col = s'.reader.pos.col

/-- Steps to scanners that read alike, or to errors for the same cause. -/
inductive StepsAlike : Except SyntaxError Scanner → Except SyntaxError Scanner → Prop
  | ok {s s' : Scanner} (alike : Alike s s') : StepsAlike (.ok s) (.ok s')
  | error {e e' : SyntaxError} (problem : e.problem = e'.problem) : StepsAlike (.error e) (.error e')

theorem StepsAlike.of_ok (h : StepsAlike (.ok s) y) : ∃ s', y = .ok s' ∧ Alike s s' := by
  cases h with
  | ok alike => exact ⟨_, rfl, alike⟩

theorem StepsAlike.of_error (h : StepsAlike (.error e) y) :
    ∃ e', y = .error e' ∧ e.problem = e'.problem := by
  cases h with
  | error problem => exact ⟨_, rfl, problem⟩

section steps

variable {s s' : Scanner} {n : Nat}

theorem scanLine_broken (h : s.lineGap.broken = true) :
    s.scanLine = .error ⟨s.afterGap.spanTo s.afterGap, .brokenContinuation⟩ := by
  unfold scanLine
  simp only [lineGap, afterGap] at h ⊢
  simp [h]

theorem scanLine_fault (whole : s.lineGap.broken = false) (next : s.afterGap.chars = c :: rest)
    (text : c ≠ '\n') (lexed : lexeme c rest = .fault problem n) :
    s.scanLine = .error ⟨s.afterGap.spanTo (s.afterGap.skip n), problem⟩ := by
  unfold scanLine
  simp only [lineGap, afterGap] at whole next ⊢
  simp [whole, next, text, lexed]

theorem Alike.finish (h : Alike s s') : Alike s.finish s'.finish where
  indents := by simp only [Scanner.finish, h.indents]
  parens := h.parens
  lineStart := h.lineStart
  lineEmpty := h.lineEmpty
  queue := by
    have ending : List.Forall₂ Token.Alike (if s.lineEmpty then [] else [s.reader.layout .newline 0])
        (if s'.lineEmpty then [] else [s'.reader.layout .newline 0]) := by
      rw [h.lineEmpty]
      split
      · exact .nil
      · exact .cons (Reader.layout_alike ..) .nil
    have closing : List.Forall₂ Token.Alike
        (List.replicate (s.indents.length - 1) (s.reader.layout .dedent 0))
        (List.replicate (s'.indents.length - 1) (s'.reader.layout .dedent 0)) := by
      rw [h.indents]
      exact forall₂_replicate (Reader.layout_alike ..) _
    exact List.rel_append (List.rel_append (List.rel_append h.queue ending) closing)
      (.cons (Reader.layout_alike ..) .nil)
  chars := h.chars
  outside := h.outside

theorem Twins.scanLine (h : Twins s s') (inside : s.lineStart = false)
    (broken : s.lineGap.broken = s'.lineGap.broken)
    (chars : s.afterGap.chars = s'.afterGap.chars) : StepsAlike s.scanLine s'.scanLine := by
  cases whole : s.lineGap.broken with
  | true =>
    rw [scanLine_broken whole, scanLine_broken (broken ▸ whole)]
    exact .error rfl
  | false =>
    have whole' : s'.lineGap.broken = false := broken ▸ whole
    cases next : s.afterGap.chars with
    | nil =>
      have next' := chars ▸ next
      rw [(LineStep.ended whole next).scanLine, (LineStep.ended whole' next').scanLine]
      refine .ok (Alike.finish ⟨⟨h.indents, h.parens, h.lineStart, h.lineEmpty, h.queue⟩, chars, ?_⟩)
      exact fun start => nomatch inside.symm.trans start
    | cons c rest =>
      have next' := chars ▸ next
      by_cases newline : c = '\n'
      · subst newline
        rw [(LineStep.newline whole next).scanLine, (LineStep.newline whole' next').scanLine]
        refine .ok ⟨⟨h.indents, h.parens, rfl, h.lineEmpty, List.rel_append h.queue ?_⟩, ?_, ?_⟩
        · rw [h.lineEmpty]
          split
          · exact .nil
          · exact .cons (Reader.token_alike chars _ _) .nil
        · simp [chars]
        · intro _
          have outside := parens_of_newline whole next
          exact ⟨outside, by
            simp only [Reader.skip_newline_col next, Reader.skip_newline_col next']⟩
      · cases lexed : lexeme c rest with
        | token kind n =>
          rw [(LineStep.token whole next newline lexed).scanLine,
            (LineStep.token whole' next' newline lexed).scanLine]
          refine .ok ⟨⟨h.indents, by simp only [h.parens], h.lineStart, h.lineEmpty,
            List.rel_append h.queue (.cons (Reader.token_alike chars _ _) .nil)⟩, ?_, ?_⟩
          · simp only [Reader.skip_chars, chars]
          · exact fun start => nomatch inside.symm.trans start
        | fault problem n =>
          rw [scanLine_fault whole next newline lexed, scanLine_fault whole' next' newline lexed]
          exact .error rfl

theorem Alike.scanLine (h : Alike s s') (inside : s.lineStart = false) :
    StepsAlike s.scanLine s'.scanLine := by
  have same : s.lineGap = s'.lineGap := by rw [lineGap, lineGap, h.chars, h.parens]
  refine h.toTwins.scanLine inside (by rw [same]) ?_
  rw [afterGap, afterGap, Reader.skip_chars, Reader.skip_chars, h.chars, same]

theorem Alike.move (h : Alike s s') (start : s.lineStart = true) (n : Nat) (same : b = b') :
    Alike { s with reader := s.reader.skip n, lineStart := b }
      { s' with reader := s'.reader.skip n, lineStart := b' } where
  indents := h.indents
  parens := h.parens
  lineStart := same
  lineEmpty := h.lineEmpty
  queue := h.queue
  chars := by simp [h.chars]
  outside _ := ⟨(h.outside start).1, Reader.skip_col h.chars (h.outside start).2 n⟩

theorem Alike.indent (h : Alike s s') (start : s.lineStart = true) (n : Nat) :
    (∃ s₁ s₁', s.indent n = .ok s₁ ∧ s'.indent n = .ok s₁' ∧ Alike s₁ s₁' ∧ s₁.lineStart = false) ∨
      ∃ e e', s.indent n = .error e ∧ s'.indent n = .error e' ∧ e.problem = e'.problem := by
  have col : (s.reader.skip n).pos.col = (s'.reader.skip n).pos.col :=
    Reader.skip_col h.chars (h.outside start).2 n
  have moved := h.move start n (rfl : false = false)
  unfold Scanner.indent
  simp only [← col, ← h.indents]
  split
  · refine .inl ⟨_, _, rfl, rfl, ⟨⟨rfl, h.parens, rfl, h.lineEmpty, ?_⟩, moved.chars, nofun⟩, rfl⟩
    exact List.rel_append h.queue (.cons (Reader.layout_alike ..) .nil)
  · split
    · refine .inl ⟨_, _, rfl, rfl, ⟨⟨rfl, h.parens, rfl, h.lineEmpty, ?_⟩, moved.chars, nofun⟩, rfl⟩
      exact List.rel_append h.queue (forall₂_replicate (Reader.layout_alike ..) _)
    · exact .inr ⟨_, _, rfl, rfl, rfl⟩

theorem fill_ended (start : s.lineStart = true) (outside : s.parens = 0)
    (line : margin s.reader.chars = .ended n) :
    s.fill = { s with reader := s.reader.skip n, lineStart := false }.scanLine := by
  simp [Scanner.fill, start, outside, line]

theorem fill_text (start : s.lineStart = true) (outside : s.parens = 0)
    (line : margin s.reader.chars = .text n) : s.fill = s.indent n >>= scanLine := by
  simp [Scanner.fill, start, outside, line]

theorem Alike.fill (h : Alike s s') : StepsAlike s.fill s'.fill := by
  cases start : s.lineStart with
  | false =>
    rw [fill_midLine start, fill_midLine (h.lineStart ▸ start)]
    exact h.scanLine start
  | true =>
    have outside := (h.outside start).1
    have start' : s'.lineStart = true := h.lineStart ▸ start
    have outside' : s'.parens = 0 := h.parens ▸ outside
    cases line : margin s.reader.chars with
    | blank n =>
      rw [(Step.blank ⟨start, outside⟩ line).fill, (Step.blank ⟨start', outside'⟩ (h.chars ▸ line)).fill]
      exact .ok (h.move start n h.lineStart)
    | ended n =>
      rw [fill_ended start outside line, fill_ended start' outside' (h.chars ▸ line)]
      exact (h.move start n (rfl : false = false)).scanLine rfl
    | text n =>
      rw [fill_text start outside line, fill_text start' outside' (h.chars ▸ line)]
      rcases h.indent start n with ⟨s₁, s₁', measured, measured', alike, inside⟩ |
        ⟨e, e', measured, measured', same⟩
      · rw [measured, measured']
        exact alike.scanLine inside
      · rw [measured, measured']
        exact .error same

end steps

section scans

variable {s s' : Scanner} {ts : List Token} {fault : Option SyntaxError}

/-- Tokens of the same kinds and texts, up to the end of the text or to errors for the same cause. -/
structure ScansAlike (ts ts' : List Token) (fault fault' : Option SyntaxError) : Prop where
  tokens : List.Forall₂ Token.Alike ts ts'
  fault : fault.map (·.problem) = fault'.map (·.problem)

theorem ScansAlike.refl (ts : List Token) (fault : Option SyntaxError) :
    ScansAlike ts ts fault fault where
  tokens := List.forall₂_same.2 fun _ _ => ⟨rfl, rfl⟩
  fault := rfl

theorem ScansAlike.symm (h : ScansAlike ts ts' fault fault') : ScansAlike ts' ts fault' fault where
  tokens := h.tokens.flip.imp fun _ _ same => ⟨same.kind.symm, same.value.symm⟩
  fault := h.fault.symm

theorem Alike.handOut (h : Alike s s') {queue : List Token} (head : Token.Alike t t')
    (tail : List.Forall₂ Token.Alike queue queue') :
    Alike (s.handOut t queue) (s'.handOut t' queue') where
  indents := h.indents
  parens := h.parens
  lineStart := h.lineStart
  lineEmpty := by simp only [Scanner.handOut, head.kind]
  queue := tail
  chars := h.chars
  outside := h.outside

theorem Scans.alike (h : Scans s ts fault) (alike : Alike s s') :
    ∃ ts' fault', Scans s' ts' fault' ∧ ScansAlike ts ts' fault fault' := by
  have queue' {s s' : Scanner} (alike : Alike s s') (none : s.queue = []) : s'.queue = [] :=
    List.forall₂_nil_left_iff.1 (none ▸ alike.queue)
  induction h generalizing s' with
  | last queued eof =>
    obtain ⟨t', queue', head, -, queued'⟩ := List.forall₂_cons_left_iff.1 (queued ▸ alike.queue)
    exact ⟨[t'], none, .last queued' (head.kind ▸ eof), .cons head .nil, rfl⟩
  | hand queued text _ ih =>
    obtain ⟨t', queue', head, tail, queued'⟩ := List.forall₂_cons_left_iff.1 (queued ▸ alike.queue)
    obtain ⟨ts', fault', scans, same⟩ := ih (alike.handOut head tail)
    exact ⟨t' :: ts', fault', .hand queued' (head.kind ▸ text) scans, .cons head same.tokens,
      same.fault⟩
  | fault none stops =>
    obtain ⟨e', stops', problem⟩ := (stops ▸ alike.fill).of_error
    exact ⟨[], some e', .fault (queue' alike none) stops', .nil, congrArg some problem⟩
  | fill none step _ ih =>
    obtain ⟨s₁', step', alike₁⟩ := (step ▸ alike.fill).of_ok
    obtain ⟨ts', fault', scans, same⟩ := ih alike₁
    exact ⟨ts', fault', .fill (queue' alike none) step' scans, same⟩

theorem Scans.alike_of_fill (h : Scans s ts fault) (none : s.queue = []) (none' : s'.queue = [])
    (steps : StepsAlike s.fill s'.fill) :
    ∃ ts' fault', Scans s' ts' fault' ∧ ScansAlike ts ts' fault fault' := by
  cases h with
  | last queued => cases none.symm.trans queued
  | hand queued => cases none.symm.trans queued
  | fault _ stops =>
    obtain ⟨e', stops', problem⟩ := (stops ▸ steps).of_error
    exact ⟨[], some e', .fault none' stops', .nil, congrArg some problem⟩
  | fill _ step others =>
    obtain ⟨s₁', step', alike⟩ := (step ▸ steps).of_ok
    obtain ⟨ts', fault', scans, same⟩ := others.alike alike
    exact ⟨ts', fault', .fill none' step' scans, same⟩

end scans

section sources

variable {source source' : Bytes} {past : List Token} {s s' : Scanner}

theorem Visits.rest (h : Visits source past s) :
    ∃ ts fault, Scans s ts fault ∧ (scan source).tokens = past ++ ts ∧
      (scan source).fault = fault := by
  induction h with
  | start => exact ⟨_, _, scan_scans source, rfl, rfl⟩
  | fill _ none step ih =>
    obtain ⟨ts, fault, scans, same⟩ := ih
    cases scans with
    | last queued => cases none.symm.trans queued
    | hand queued => cases none.symm.trans queued
    | fault _ stops => cases step.symm.trans stops
    | fill _ step' others =>
      cases step.symm.trans step'
      exact ⟨ts, fault, others, same⟩
  | hand _ queued text ih =>
    obtain ⟨ts, fault, scans, same⟩ := ih
    cases scans with
    | last queued' eof =>
      cases queued.symm.trans queued'
      exact absurd eof text
    | @hand _ _ _ ts _ queued' _ others =>
      cases queued.symm.trans queued'
      exact ⟨ts, fault, others, by simpa using same⟩
    | fault none => cases none.symm.trans queued
    | fill none => cases none.symm.trans queued

/-- Sources whose runs lead to scanners that hand out the same kinds and texts have tokens of the same
kinds and texts. -/
theorem Visits.scansAlike (h : Visits source past s) (h' : Visits source' past s')
    (onward : ∀ ts fault, Scans s ts fault →
      ∃ ts' fault', Scans s' ts' fault' ∧ ScansAlike ts ts' fault fault') :
    ScansAlike (scan source).tokens (scan source').tokens (scan source).fault
      (scan source').fault := by
  obtain ⟨ts, fault, scans, tokens, rfl⟩ := h.rest
  obtain ⟨ts', fault', scans', same⟩ := onward ts _ scans
  obtain ⟨tokens', rfl⟩ := h'.scan_eq scans'
  have before : List.Forall₂ Token.Alike past past := List.forall₂_same.2 fun _ _ => ⟨rfl, rfl⟩
  rw [tokens, tokens']
  exact ⟨List.rel_append before same.tokens, same.fault⟩

end sources

end Scanner
end WordScript
