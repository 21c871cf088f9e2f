import WordScript.Proofs.Filler
import WordScript.Proofs.SourceLines
import WordScript.Proofs.TreeShape

/-! The leaves of a tree and the text around them.

A run reads the source piece by piece: each token that is not layout is cut off where the filler
before it ends. So the tokens of a source, and with them the leaves of its tree, leave out nothing but
filler. -/
namespace WordScript
namespace Scanner

open Grammar (texts)

/-- Tokens with filler before each of them, cut off from the front of a source. The reader stands
right behind the last one. -/
inductive Cuts (source : Bytes) : List Token → Reader → Prop
  | start : Cuts source [] (.ofBytes source)
  | token {ts : List Token} {r : Reader} {kind : Token.Kind} {m n : Nat} (before : Cuts source ts r)
      (filler : Filler (r.chars.take m)) :
      Cuts source (ts ++ [(r.skip m).token kind n]) ((r.skip m).skip n)

def FilledFrom (source : Bytes) (start stop : Nat) : Prop :=
  ∃ bytes, slice? source start stop = some bytes ∧ Filler (Utf8.decode bytes).toList

/-- A token whose value is read from its own bytes. -/
def ReadFrom (source : Bytes) (t : Token) : Prop :=
  ∃ bytes, slice? source t.start t.stop = some bytes ∧ t.value = Utf8.decode bytes

def lastStop (ts : List Token) : Nat := (ts.getLast?.map (·.stop)).getD 0

section cuts

variable {source : Bytes} {ts : List Token} {r : Reader}

theorem Reader.Reached.decode_slice (h : r.Reached source) (n : Nat) :
    ∃ bytes, slice? source r.offset (r.skip n).offset = some bytes ∧
      (Utf8.decode bytes).toList = r.chars.take n := by
  obtain ⟨bytes, cut, read⟩ := h.slice n
  refine ⟨bytes, cut, ?_⟩
  rw [Utf8.decode, String.toList_ofList, read, Reader.chars, List.map_take]

theorem Reader.Reached.token_reads (h : r.Reached source) (kind : Token.Kind) (n : Nat) :
    ReadFrom source (r.token kind n) := by
  obtain ⟨bytes, cut, read⟩ := h.slice n
  refine ⟨bytes, cut, ?_⟩
  rw [Utf8.decode, read]
  rfl

variable (h : Cuts source ts r)
include h

theorem Cuts.reached : r.Reached source := by
  induction h with
  | start => exact .start
  | token _ _ ih => exact (ih.skip _).skip _

theorem Cuts.offset_eq : r.offset = lastStop ts := by
  cases h with
  | start => rfl
  | token => simp [lastStop, Reader.token]

theorem Cuts.reads : ∀ t ∈ ts, ReadFrom source t := by
  induction h with
  | start => simp
  | token before _ ih =>
    intro t ht
    rcases List.mem_append.1 ht with ht | ht
    · exact ih t ht
    · rw [List.mem_singleton.1 ht]
      exact (before.reached.skip _).token_reads _ _

theorem Cuts.between : ts.IsChain fun t u => FilledFrom source t.stop u.start := by
  induction h with
  | start => exact .nil
  | @token ts r kind m n before filler ih =>
    refine List.isChain_append.2 ⟨ih, .singleton _, ?_⟩
    intro t ht u hu
    obtain ⟨bytes, cut, read⟩ := before.reached.decode_slice m
    have stop : r.offset = t.stop := by
      rw [before.offset_eq, lastStop, Option.mem_def.1 ht]
      rfl
    cases hu
    exact ⟨bytes, stop ▸ cut, read ▸ filler⟩

theorem Cuts.before : ∀ t ∈ ts.head?, FilledFrom source 0 t.start := by
  induction h with
  | start => simp
  | @token ts r kind m n before filler ih =>
    cases ts with
    | nil =>
      intro t ht
      obtain ⟨bytes, cut, read⟩ := before.reached.decode_slice m
      rw [before.offset_eq] at cut
      cases ht
      exact ⟨bytes, cut, read ▸ filler⟩
    | cons u ts => simpa using ih

end cuts

/-- A reader behind tokens that are cut off from a source, with only filler in between. At the end of
the text the filler may end in a comment. -/
def Behind (source : Bytes) (ts : List Token) (r : Reader) : Prop :=
  ∃ r₀ n, Cuts source ts r₀ ∧ r = r₀.skip n ∧
    (Filler (r₀.chars.take n) ∨ Trailing (r₀.chars.take n) ∧ r.rest = [])

section behind

variable {source : Bytes} {ts : List Token} {r : Reader}

theorem Reader.skip_of_ended (h : r.rest = []) (n : Nat) : r.skip n = r := by
  cases n <;> simp [Reader.skip, h]

theorem Behind.skip (h : Behind source ts r)
    (skipped : Filler (r.chars.take m) ∨ Trailing (r.chars.take m) ∧ (r.skip m).rest = []) :
    Behind source ts (r.skip m) := by
  obtain ⟨r₀, n, cuts, rfl, filler | ⟨trailing, ended⟩⟩ := h
  · refine ⟨r₀, n + m, cuts, Reader.skip_skip n m r₀, ?_⟩
    rw [Reader.skip_chars] at skipped
    rw [List.take_add]
    exact skipped.imp filler.append fun ⟨trailing, ended⟩ => ⟨filler.append_trailing trailing, ended⟩
  · rw [Reader.skip_of_ended ended]
    exact ⟨r₀, n, cuts, rfl, .inr ⟨trailing, ended⟩⟩

theorem Behind.token (h : Behind source ts r) (text : r.rest ≠ []) (kind : Token.Kind) (m : Nat) :
    Behind source (ts ++ [r.token kind m]) (r.skip m) := by
  obtain ⟨r₀, n, cuts, rfl, filler | ⟨-, ended⟩⟩ := h
  · exact ⟨_, 0, cuts.token filler, rfl, .inl (by simpa using Filler.nil)⟩
  · exact absurd ended text

end behind

/-- What a run keeps to: the tokens so far are cut off from the source, and the end is queued only at
the end of the text, among layout. -/
structure Gathered (source : Bytes) (past : List Token) (s : Scanner) : Prop where
  behind : Behind source (texts (past ++ s.queue)) s.reader
  ended : ∀ t ∈ s.queue, t.kind = .eof → s.reader.rest = [] ∧ texts s.queue = []

theorem signLexeme_not_layout (h : signLexeme c rest = .token kind n) : kind.isLayout = false := by
  unfold signLexeme at h
  split at h
  · rename_i found
    cases h
    cases rest with
    | nil => cases found
    | cons d rest =>
      have pair : Token.Kind.ofPair? c d = some kind := found
      unfold Token.Kind.ofPair? at pair
      split at pair <;> cases pair <;> rfl
  · split at h
    · rename_i single
      cases h
      unfold Token.Kind.ofChar? at single
      split at single <;> cases single <;> rfl
    · cases h

theorem lexeme_not_layout (h : lexeme c rest = .token kind n) : kind.isLayout = false := by
  unfold lexeme at h
  split at h
  · split at h <;> cases h
    rfl
  · split at h
    · unfold numberLexeme at h
      grind [Token.Kind.isLayout]
    · split at h
      · cases h
        exact ofWord_not_layout _
      · exact signLexeme_not_layout h

theorem texts_append (ts us : List Token) : texts (ts ++ us) = texts ts ++ texts us :=
  List.filter_append ..

theorem texts_layout (h : ∀ t ∈ ts, t.kind.isLayout = true) : texts ts = [] :=
  List.filter_eq_nil_iff.2 fun t ht => by simp [h t ht]

section gathered

variable {source : Bytes} {past : List Token} {s s' : Scanner}

theorem gathered_of_layout (queue : s'.queue = s.queue ++ ts)
    (layout : ∀ t ∈ ts, t.kind.isLayout = true)
    (behind : Behind source (texts (past ++ s.queue)) s'.reader)
    (ended : ∀ t ∈ s'.queue, t.kind = .eof → s'.reader.rest = [] ∧ texts s'.queue = []) :
    Gathered source past s' where
  behind := by
    rw [queue, ← List.append_assoc, texts_append, texts_layout layout, List.append_nil]
    exact behind
  ended := ended

theorem finish_layout (s : Scanner) :
    ∃ ts, s.finish.queue = s.queue ++ ts ∧ ∀ t ∈ ts, t.kind.isLayout = true := by
  refine ⟨_, by rw [finish, List.append_assoc, List.append_assoc], fun t ht => ?_⟩
  rcases List.mem_append.1 ht with ht | ht
  · split at ht
    · cases ht
    · rw [List.mem_singleton.1 ht]
      rfl
  · rcases List.mem_append.1 ht with ht | ht
    · rw [List.eq_of_mem_replicate ht]
      rfl
    · rw [List.mem_singleton.1 ht]
      rfl

def Margins (ts : List Token) : Prop := ∀ t ∈ ts, t.kind.isLayout = true ∧ t.kind ≠ .eof

theorem Gathered.line (h : Gathered source past s) (margins : Margins s.queue)
    (step : LineStep s s') : Gathered source past s' := by
  have skipped (whole : s.lineGap.broken = false) :
      Skipped (s.reader.chars.take s.lineGap.length) s.afterGap.chars := by
    rw [afterGap, Reader.skip_chars]
    exact gap_skipped (GapText.outside .nil) whole
  cases step with
  | ended whole none =>
    have rest : s.afterGap.rest = [] := List.map_eq_nil_iff.1 none
    obtain ⟨ts, queue, layout⟩ := finish_layout { s with reader := s.afterGap }
    refine gathered_of_layout queue layout (h.behind.skip (.inr ⟨?_, rest⟩)) fun _ _ _ => ⟨rest, ?_⟩
    · exact (skipped whole).elim Filler.trailing (·.1)
    · rw [queue, texts_append, texts_layout layout, texts_layout fun t ht => (margins t ht).1]
      rfl
  | newline whole next =>
    have filler : Filler (s.reader.chars.take (s.lineGap.length + 1)) := by
      rw [List.take_add, ← Reader.skip_chars]
      change Filler (_ ++ List.take 1 s.afterGap.chars)
      rw [next]
      exact Trailing.newline ((skipped whole).elim Filler.trailing (·.1))
    have reader : s.afterGap.skip 1 = s.reader.skip (s.lineGap.length + 1) := Reader.skip_skip ..
    refine gathered_of_layout (s := s) rfl ?_ (reader ▸ h.behind.skip (.inl filler)) ?_
    · intro t ht
      split at ht
      · cases ht
      · rw [List.mem_singleton.1 ht]
        rfl
    · intro t ht eof
      rcases List.mem_append.1 ht with ht | ht
      · exact absurd eof (margins t ht).2
      · split at ht
        · cases ht
        · rw [List.mem_singleton.1 ht] at eof
          cases eof
  | @token c rest kind n whole next text lexed =>
    have filler : Filler (s.reader.chars.take s.lineGap.length) := by
      refine (skipped whole).resolve_right fun ended => ?_
      simp [next, text] at ended
    have some : s.afterGap.rest ≠ [] := by
      intro none
      simp [Reader.chars, none] at next
    refine ⟨?_, ?_⟩
    · have plain : texts [s.afterGap.token kind n] = [s.afterGap.token kind n] := by
        simp [texts, lexeme_not_layout lexed]
      rw [← List.append_assoc, texts_append, plain]
      exact (h.behind.skip (.inl filler)).token some kind n
    · intro t ht eof
      rcases List.mem_append.1 ht with ht | ht
      · exact absurd eof (margins t ht).2
      · rw [List.mem_singleton.1 ht] at eof
        have other := lexeme_not_layout lexed
        rw [show kind = .eof from eof] at other
        cases other

theorem Gathered.margin (h : Gathered source past s) (none : s.queue = [])
    (filler : Filler (s.reader.chars.take n)) (step : MarginStep s n s') :
    Gathered source past s' ∧ Margins s'.queue := by
  obtain ⟨ts, queue, margins, reader⟩ : ∃ ts, s'.queue = s.queue ++ ts ∧ Margins ts ∧
      s'.reader = s.reader.skip n := by
    cases step with
    | opens => exact ⟨_, rfl, by simp [Margins, Token.Kind.isLayout], rfl⟩
    | closes => exact ⟨_, rfl, by simp [Margins, Token.Kind.isLayout], rfl⟩
  have all : Margins s'.queue := by simpa [queue, none] using margins
  refine ⟨gathered_of_layout queue (fun t ht => (margins t ht).1) ?_ fun t ht eof => ?_, all⟩
  · exact reader ▸ h.behind.skip (.inl filler)
  · exact absurd eof (all t ht).2

theorem Gathered.step (h : Gathered source past s) (none : s.queue = []) (step : Step s s') :
    Gathered source past s' := by
  have margins : Margins s.queue := by simp [Margins, none]
  cases step with
  | blank _ line =>
    refine ⟨h.behind.skip ?_, by simp [none]⟩
    refine (blank_skipped line).imp_right fun ⟨trailing, ended⟩ => ⟨trailing, ?_⟩
    rw [← Reader.skip_chars] at ended
    exact List.map_eq_nil_iff.1 ended
  | ended _ line onward =>
    have gathered : Gathered source past { s with reader := s.reader.skip _, lineStart := false } :=
      ⟨h.behind.skip (.inl (ended_filler line)), by simp [none]⟩
    exact gathered.line margins onward
  | text _ line measured onward =>
    obtain ⟨gathered, margins⟩ := h.margin none (text_filler line) measured
    exact gathered.line margins onward
  | line _ onward => exact h.line margins onward

theorem Visits.gathered (h : Visits source past s) : Gathered source past s := by
  induction h with
  | start =>
    refine ⟨⟨_, 0, .start, rfl, .inl (by simpa using Filler.nil)⟩, ?_⟩
    simp [ofBytes]
  | fill _ none step ih => exact ih.step none (fill_cases step)
  | hand _ queued _ ih =>
    refine ⟨by simpa [queued, handOut] using ih.behind, fun t ht eof => ?_⟩
    obtain ⟨rest, layout⟩ := ih.ended t (queued ▸ List.mem_cons_of_mem _ ht) eof
    refine ⟨rest, ?_⟩
    rw [queued, ← List.singleton_append, texts_append, List.append_eq_nil_iff] at layout
    exact layout.2

end gathered

/-- The text of a source around some of its tokens: filler, which may end in a comment at the end of
the text. -/
structure Surrounds (source : Bytes) (ts : List Token) : Prop where
  before : ∀ t ∈ ts.head?, FilledFrom source 0 t.start
  between : ts.IsChain fun t u => FilledFrom source t.stop u.start
  after : ∃ bytes, slice? source (lastStop ts) source.length = some bytes ∧
    Trailing (Utf8.decode bytes).toList

/-- The tokens that are not layout take up the source but for filler. -/
theorem scan_surrounds (sound : (scan source).fault = none) :
    (∀ t ∈ texts (scan source).tokens, ReadFrom source t) ∧
      Surrounds source (texts (scan source).tokens) := by
  obtain ⟨past, s, t, queue, visits, queued, eof, tokens⟩ := scan_visits_eof sound
  obtain ⟨rest, layout⟩ := visits.gathered.ended t (by simp [queued]) eof
  obtain ⟨r, n, cuts, reader, skipped⟩ := visits.gathered.behind
  have same : texts (past ++ s.queue) = texts (scan source).tokens := by
    have last : texts [t] = [] := texts_layout (by simp [eof, Token.Kind.isLayout])
    rw [tokens, texts_append, texts_append, layout, last]
  rw [same] at cuts
  refine ⟨cuts.reads, cuts.before, cuts.between, ?_⟩
  obtain ⟨bytes, cut, read⟩ := cuts.reached.decode_slice n
  have there : s.reader.Reached source := reader ▸ cuts.reached.skip n
  rw [← reader, there.offset_eq rest, cuts.offset_eq] at cut
  exact ⟨bytes, cut, read ▸ skipped.elim Filler.trailing (·.1)⟩

end Scanner

/-- The leaves of a tree are the tokens of its source that are not layout. Each has its value from its
own bytes, and around them stands nothing but filler. -/
theorem leaves_take_up_source (source : Bytes) (tree : Tree) (h : Tree.parse source = .ok tree) :
    (Scanner.ofBytes source).HandsOut (Scanner.scan source).tokens ∧
    tree.root.leaves = (Scanner.scan source).tokens.filter (!·.kind.isLayout) ∧
    (∀ t ∈ tree.root.leaves, ∃ bytes, slice? source t.start t.stop = some bytes ∧
      t.value = Utf8.decode bytes ∧
      ∀ text, bytes = Utf8.encode text → Utf8.encode t.value = bytes) ∧
    Scanner.Surrounds source tree.root.leaves := by
  obtain ⟨-, leaves, -⟩ := Tree.shape_of_parse h
  obtain ⟨d, handsOut, -⟩ := derives_of_parse h
  obtain ⟨reads, surrounds⟩ := Scanner.scan_surrounds handsOut.scan_fault
  rw [← leaves] at reads surrounds
  refine ⟨Scanner.scan_tokens handsOut ▸ handsOut, leaves, fun t ht => ?_, surrounds⟩
  obtain ⟨bytes, cut, value⟩ := reads t ht
  refine ⟨bytes, cut, value, fun text encoded => ?_⟩
  have back : Utf8.decode (Utf8.encode text) = text := by
    rw [Utf8.encode, Utf8.decode_flatMap, String.ofList_toList]
  rw [value, encoded, back]

/-- A statement over three lines, with comments and a continued line. -/
def commented : Bytes := Utf8.encode "x = (1 + # one\n  2) \\\n  - y\n\n# end"

theorem commented_taken_up : ∃ tree, Tree.parse commented = .ok tree ∧
    (Scanner.ofBytes commented).HandsOut (Scanner.scan commented).tokens ∧
    tree.root.leaves = (Scanner.scan commented).tokens.filter (!·.kind.isLayout) ∧
    (∀ t ∈ tree.root.leaves, ∃ bytes, slice? commented t.start t.stop = some bytes ∧
      t.value = Utf8.decode bytes ∧
      ∀ text, bytes = Utf8.encode text → Utf8.encode t.value = bytes) ∧
    Scanner.Surrounds commented tree.root.leaves := by
  have parses : (Tree.parse commented).toBool = true := by decide +kernel
  obtain ⟨tree, read⟩ := parsed_of_toBool parses
  exact ⟨tree, read, leaves_take_up_source commented tree read⟩

end WordScript
