import WordScript.Proofs.Leaves

/-! Where layout tokens stand.

A logical line ends after a token, blocks are opened and closed at the start of a logical line, and a
line without tokens should leave no trace. A run keeps to this as long as every line that opens or
closes a block has a token on it. A line of white space that is no margin, such as a vertical tab, is
measured all the same, and its blocks are opened and closed without a token. -/
namespace WordScript
namespace Scanner

open Token (Kind)

/-- Whether a token of a kind may stand right after a token of the kind `before`, or at the front. -/
def MayFollow (before : Option Kind) : Kind → Prop
  | .newline => ∃ k, before = some k ∧ k ≠ .newline ∧ k ≠ .indent ∧ k ≠ .dedent
  | .indent => before = none ∨ before = some .newline
  | .dedent => before = some .newline ∨ before = some .dedent
  | _ => True

/-- Tokens that may all follow those before them. -/
def WellPlaced (ts : List Token) : Prop :=
  ∀ before t after, ts = before ++ t :: after → MayFollow (before.getLast?.map (·.kind)) t.kind

def Fresh (ts : List Token) : Prop := ∀ t ∈ ts.getLast?, t.kind = .newline

section places

variable {ts us : List Token} {t : Token}

theorem WellPlaced.nil : WellPlaced [] := by
  intro before t after split
  cases before <;> cases split

theorem WellPlaced.concat (h : WellPlaced ts) (follows : MayFollow (ts.getLast?.map (·.kind)) t.kind) :
    WellPlaced (ts ++ [t]) := by
  intro before u after split
  rcases List.eq_nil_or_concat after with rfl | ⟨after, v, rfl⟩
  · obtain ⟨rfl, last⟩ := List.append_inj' split rfl
    cases last
    exact follows
  · have split : ts ++ [t] = (before ++ u :: after) ++ [v] := by simpa using split
    exact h before u after (List.append_inj' split rfl).1

theorem WellPlaced.of_append (h : WellPlaced (ts ++ us)) : WellPlaced ts := by
  rintro before t after rfl
  exact h before t (after ++ us) (by simp)

theorem WellPlaced.kinds (h : WellPlaced ts) (split : ts.map (·.kind) = before ++ k :: after) :
    MayFollow before.getLast? k := by
  obtain ⟨before, others, rfl, rfl, onward⟩ := List.map_eq_append_iff.1 split
  obtain ⟨t, after, rfl, rfl, -⟩ := List.map_eq_cons_iff.1 onward
  simpa using h before t after rfl

theorem fresh_nil : Fresh [] := by simp [Fresh]

theorem fresh_concat : Fresh (ts ++ [t]) ↔ t.kind = .newline := by simp [Fresh]

theorem Fresh.may_indent (h : Fresh ts) : MayFollow (ts.getLast?.map (·.kind)) .indent := by
  cases last : ts.getLast? with
  | none => exact .inl rfl
  | some t => exact .inr (congrArg some (h t last))

theorem WellPlaced.dedents (h : WellPlaced ts) (kind : t.kind = .dedent)
    (last : ts.getLast?.map (·.kind) = some .newline) (n : Nat) :
    WellPlaced (ts ++ List.replicate n t) := by
  have placed (n : Nat) : WellPlaced (ts ++ List.replicate n t) ∧
      ((ts ++ List.replicate n t).getLast?.map (·.kind) = some .newline ∨
        (ts ++ List.replicate n t).getLast?.map (·.kind) = some .dedent) := by
    induction n with
    | zero => exact ⟨by simpa using h, .inl (by simpa using last)⟩
    | succ n ih =>
      rw [List.replicate_succ', ← List.append_assoc]
      exact ⟨ih.1.concat (kind ▸ ih.2), .inr (by simp [kind])⟩
  exact (placed n).1

end places

/-- What a run keeps to before the end of the text is queued. -/
structure Running (past : List Token) (s : Scanner) : Prop where
  start : s.lineStart = true → s.parens = 0 ∧ Fresh (past ++ s.queue)
  empty : s.lineEmpty = true ↔ Fresh past
  last : ∀ t ∈ (past ++ s.queue).getLast?, t.kind ≠ .indent ∧ t.kind ≠ .dedent
  blocks : past ++ s.queue = [] → s.indents = [0]

/-- What a run keeps to: the tokens so far are well placed. -/
structure Laid (past : List Token) (s : Scanner) : Prop where
  placed : WellPlaced (past ++ s.queue)
  running : (∀ t ∈ s.queue, t.kind ≠ .eof) → Running past s

section runs

variable {past : List Token} {s s' : Scanner}

section

variable (h : Running past s) (none : s.queue = [])
include h none

theorem Running.may_end (some : s.lineEmpty = false) :
    MayFollow (past.getLast?.map (·.kind)) .newline := by
  have stale : ¬ Fresh past := fun fresh => by
    rw [h.empty.2 fresh] at some
    cases some
  cases last : past.getLast? with
  | none => exact absurd (by simp [Fresh, last]) stale
  | some t =>
    obtain ⟨indent, dedent⟩ := h.last t (by simpa [none] using last)
    refine ⟨t.kind, rfl, fun newline => stale ?_, indent, dedent⟩
    simpa [Fresh, last] using newline

theorem Running.ending (placed : WellPlaced past) (kind : t.kind = .newline) :
    WellPlaced (past ++ if s.lineEmpty then [] else [t]) ∧
      Fresh (past ++ if s.lineEmpty then [] else [t]) := by
  cases empty : s.lineEmpty with
  | true => simpa using ⟨placed, h.empty.1 empty⟩
  | false => exact ⟨placed.concat (kind ▸ h.may_end none empty), fresh_concat.2 kind⟩

theorem Running.finish (placed : WellPlaced past) : WellPlaced (past ++ s.finish.queue) := by
  obtain ⟨ended, fresh⟩ := h.ending none placed (t := s.reader.layout .newline 0) rfl
  set line := past ++ if s.lineEmpty then [] else [s.reader.layout .newline 0] with hl
  have closed : WellPlaced (line ++
      List.replicate (s.indents.length - 1) (s.reader.layout .dedent 0)) := by
    cases last : line.getLast? with
    | none =>
      -- Nothing was read, so that no block is open.
      have nothing : past = [] := by
        rw [List.getLast?_eq_none_iff] at last
        exact (List.append_eq_nil_iff.1 last).1
      have outer := h.blocks (by simp [nothing, none])
      simpa [outer] using ended
    | some t => exact ended.dedents rfl (by simpa [last] using fresh t last) _
  have eof := closed.concat (t := s.reader.layout .eof 0) trivial
  simpa [Scanner.finish, none, hl] using eof

end

theorem laid_of_token (placed : WellPlaced (past ++ s.queue)) (inside : s'.lineStart = false)
    (empty : s'.lineEmpty = true ↔ Fresh past) (text : t.kind.isLayout = false)
    (queue : s'.queue = s.queue ++ [t]) : Laid past s' := by
  have split : past ++ s'.queue = past ++ s.queue ++ [t] := by rw [queue, List.append_assoc]
  refine ⟨split ▸ placed.concat ?_, fun _ => ⟨fun start => ?_, empty, ?_, by simp [split]⟩⟩
  · revert text
    cases t.kind <;> simp [MayFollow, Kind.isLayout]
  · cases inside.symm.trans start
  · intro u hu
    rw [split, List.getLast?_concat] at hu
    cases hu
    constructor <;> intro layout <;> rw [layout] at text <;> cases text

variable (h : Running past s) (none : s.queue = []) (placed : WellPlaced past)
include h none placed

theorem Running.line (inside : s.lineStart = false) (step : LineStep s s') : Laid past s' := by
  cases step with
  | ended =>
    refine ⟨Running.finish (s := { s with reader := s.afterGap }) ⟨h.start, h.empty, h.last, h.blocks⟩
      none placed, fun running => ?_⟩
    exact absurd rfl (running (s.afterGap.layout .eof 0) (by simp [Scanner.finish]))
  | newline whole next =>
    obtain ⟨ended, fresh⟩ := h.ending none placed (t := s.afterGap.token .newline 1) rfl
    have parens := parens_of_newline whole next
    refine ⟨by simpa [none] using ended, fun _ => ⟨fun _ => ?_, h.empty, ?_, ?_⟩⟩
    · exact ⟨parens, by simpa [none] using fresh⟩
    · intro t ht
      have kind := fresh t (by simpa [none] using ht)
      simp [kind]
    · intro nothing
      exact h.blocks (by simp_all)
  | token _ _ _ lexed =>
    exact laid_of_token (s := s) (by simpa [none] using placed) inside h.empty
      (lexeme_not_layout lexed) rfl

theorem Running.margin (fresh : Fresh past) (step : MarginStep s n s') :
    WellPlaced (past ++ s'.queue) ∧ s'.lineStart = false ∧ s'.lineEmpty = s.lineEmpty ∧
      (s'.queue = [] → s'.indents = s.indents) := by
  cases step with
  | opens =>
    refine ⟨?_, rfl, rfl, by simp⟩
    rw [none]
    exact placed.concat fresh.may_indent
  | @closes open' left =>
    have suffix : open' <:+ s.indents := left ▸ List.dropWhile_suffix _
    refine ⟨?_, rfl, rfl, fun nothing => ?_⟩
    · rw [none]
      cases last : past.getLast? with
      | none =>
        have nothing : past = [] := List.getLast?_eq_none_iff.1 last
        have outer := h.blocks (by simp [nothing, none])
        simpa [left, outer] using placed
      | some t => exact placed.dedents rfl (by simpa [last] using fresh t last) _
    · simp only [none, List.nil_append, List.replicate_eq_nil_iff] at nothing
      exact suffix.eq_of_length (Nat.le_antisymm suffix.length_le (Nat.sub_eq_zero_iff_le.1 nothing))

end runs

/-- Every line that opens or closes a block has a token on it. -/
def BlocksHoldTokens (source : Bytes) : Prop :=
  ∀ past s n s₁, Visits source past s → s.queue = [] → s.lineStart = true →
    margin s.reader.chars = .text n → MarginStep s n s₁ → s₁.queue ≠ [] →
    ∃ c rest, s₁.afterGap.chars = c :: rest ∧ c ≠ '\n'

section visits

variable {source : Bytes} {past : List Token} {s s' : Scanner}

theorem Laid.fill (held : BlocksHoldTokens source) (visits : Visits source past s)
    (h : Laid past s) (none : s.queue = []) (filled : s.fill = .ok s') : Laid past s' := by
  have running := h.running (by simp [none])
  have placed : WellPlaced past := by simpa [none] using h.placed
  cases fill_cases filled with
  | blank => exact ⟨h.placed, fun _ => ⟨running.start, running.empty, running.last, running.blocks⟩⟩
  | @ended n _ start _ onward =>
    have running₁ : Running past { s with reader := s.reader.skip n, lineStart := false } :=
      ⟨nofun, running.empty, running.last, running.blocks⟩
    exact running₁.line none placed rfl onward
  | @text n s₁ _ start line measured onward =>
    obtain ⟨-, fresh⟩ := running.start start.1
    rw [none, List.append_nil] at fresh
    obtain ⟨placed₁, inside, empty, blocks⟩ := running.margin none placed fresh measured
    by_cases queue : s₁.queue = []
    · refine Running.line ⟨fun start => ?_, empty ▸ running.empty, ?_, fun nothing => ?_⟩ queue placed
        inside onward
      · cases inside.symm.trans start
      · simpa [queue, none] using running.last
      · rw [blocks queue]
        exact running.blocks (by simpa [queue, none] using nothing)
    · obtain ⟨c, rest, some, text⟩ := held past s n s₁ visits none start.1 line measured queue
      cases onward with
      | ended _ ended => cases some.symm.trans ended
      | newline _ next => exact absurd (List.cons.inj (some.symm.trans next)).1 text
      | token _ _ _ lexed =>
        exact laid_of_token placed₁ inside (empty ▸ running.empty) (lexeme_not_layout lexed) rfl
  | line inside onward =>
    have later : s.lineStart = false := by
      rw [← Bool.not_eq_true]
      exact fun start => inside ⟨start, (running.start start).1⟩
    exact running.line none placed later onward

theorem Visits.laid (held : BlocksHoldTokens source) (h : Visits source past s) : Laid past s := by
  induction h with
  | start =>
    exact ⟨.nil, fun _ => ⟨fun _ => ⟨rfl, fresh_nil⟩, by simp [ofBytes, fresh_nil], by simp [ofBytes],
      fun _ => rfl⟩⟩
  | fill before none step ih => exact ih.fill held before none step
  | @hand past queue s t _ queued text ih =>
    have split : past ++ [t] ++ queue = past ++ s.queue := by simp [queued]
    refine ⟨by simpa [handOut, split] using ih.placed, fun running => ?_⟩
    have before := ih.running (by simpa [queued, text, handOut] using running)
    refine ⟨fun start => ?_, ?_, ?_, fun nothing => ?_⟩
    · simpa [handOut, split] using before.start start
    · simp [handOut, fresh_concat]
    · simpa [handOut, split] using before.last
    · simp at nothing

end visits

theorem margin_text_head (h : margin cs = .text n) :
    ∃ c rest, cs.drop n = c :: rest ∧ isMargin c = false ∧ c ≠ '#' ∧ c ≠ '\r' ∧ c ≠ '\n' := by
  unfold margin at h
  simp only at h
  split at h
  · cases h
  · rename_i c rest next
    split at h
    · cases h
    · split at h
      · cases h
      · rename_i hash newline
        cases h
        have outside := List.head?_dropWhile_not isMargin cs
        rw [← drop_run, next] at outside
        exact ⟨c, rest, next, by simpa using outside, hash, not_or.1 newline⟩

/-- A line with something on it that is neither a vertical tab nor a backslash has a token on it. -/
theorem blocksHoldTokens_of_plain
    (plain : ∀ x ∈ Utf8.scalars source, x.char ≠ '\x0b' ∧ x.char ≠ '\\') :
    BlocksHoldTokens source := by
  intro past s n s₁ visits _ _ line measured _
  obtain ⟨c, rest, next, outside, hash, ret, newline⟩ := margin_text_head line
  obtain ⟨x, inside, rfl⟩ : ∃ x ∈ Utf8.scalars source, x.char = c := by
    obtain ⟨k, reader⟩ := visits.reached
    have mem : c ∈ s.reader.chars := List.mem_of_mem_drop (next ▸ List.mem_cons_self)
    rw [reader, Reader.skip_chars] at mem
    exact List.mem_map.1 (List.mem_of_mem_drop mem)
  obtain ⟨tab, slash⟩ := plain x inside
  have blank : isBlank x.char = false := by
    simp only [isMargin, Bool.or_eq_false_iff] at outside
    simp [isBlank, outside, tab, ret]
  have none : s₁.lineGap.length = 0 := by
    rw [lineGap, measured.reader, Reader.skip_chars, next]
    unfold gap
    simp [newline, blank, hash, slash]
  refine ⟨x.char, rest, ?_, newline⟩
  rw [afterGap, none, measured.reader, Reader.skip_skip, Reader.skip_chars]
  exact next

end Scanner

/-- Where every line that opens or closes a block has a token on it, layout is well placed: lines end
after tokens, and blocks are opened and closed where lines start. -/
theorem layout_well_placed (source : Bytes) (sound : (Scanner.scan source).fault = none)
    (held : Scanner.BlocksHoldTokens source) :
    Scanner.WellPlaced (Scanner.scan source).tokens := by
  obtain ⟨past, s, t, queue, visits, queued, -, tokens⟩ := Scanner.scan_visits_eof sound
  have placed := (visits.laid held).placed
  rw [queued, ← List.singleton_append, ← List.append_assoc, ← tokens] at placed
  exact placed.of_append

/-- Blocks with a blank line and a line with only a comment. -/
def spacedBlocks : Bytes := Utf8.encode "if a:\n  b\n \n    # c\n  if d:\n    e\nf\n"

theorem spacedBlocks_well_placed : (Scanner.scan spacedBlocks).fault = none ∧
    Scanner.BlocksHoldTokens spacedBlocks ∧
    Scanner.WellPlaced (Scanner.scan spacedBlocks).tokens := by
  have sound : (Scanner.scan spacedBlocks).fault = none := by decide +kernel
  have held : Scanner.BlocksHoldTokens spacedBlocks :=
    Scanner.blocksHoldTokens_of_plain (by decide +kernel)
  exact ⟨sound, held, layout_well_placed spacedBlocks sound held⟩

/-- A line with only a vertical tab, indented between two statements. -/
def tabbedLine : Bytes := Utf8.encode "x\n  \x0b\ny\n"

/-- The line opens a block and the next one closes it, so that the two statements are no program. -/
theorem tabbedLine_opens_block :
    (Scanner.scan tabbedLine).fault = none ∧
    (Scanner.scan tabbedLine).tokens.map (·.kind) =
      [.name, .newline, .indent, .dedent, .name, .newline, .eof] ∧
    ¬ Scanner.WellPlaced (Scanner.scan tabbedLine).tokens ∧
    (Tree.parse tabbedLine).toBool = false ∧ (Tree.parse (Utf8.encode "x\n\ny\n")).toBool = true := by
  have sound : (Scanner.scan tabbedLine).fault = none := by decide +kernel
  have kinds : (Scanner.scan tabbedLine).tokens.map (·.kind) =
      [.name, .newline, .indent, .dedent, .name, .newline, .eof] := by decide +kernel
  have parse : (Tree.parse tabbedLine).toBool = false ∧
      (Tree.parse (Utf8.encode "x\n\ny\n")).toBool = true := by decide +kernel
  refine ⟨sound, kinds, fun placed => ?_, parse⟩
  have follows := placed.kinds (kinds : _ = [.name, .newline, .indent] ++ .dedent :: _)
  simp [Scanner.MayFollow] at follows

end WordScript
