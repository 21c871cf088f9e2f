import Mathlib.Algebra.GroupWithZero.Nat
import WordScript.Proofs.Scanning
import WordScript.Tree

/-! Where the tokens of a source stand.

A reader has read a number of characters from the front of its source, and its offset and its place
are those of the bytes they were read from. What a scanner cuts off between two readers stands where
its offsets say, and what is not layout stands behind all that was cut off before it. -/
namespace WordScript

/-- The place reached by reading a byte string. -/
def Pos.ofBytes (bytes : Bytes) : Pos := .ofChars ((Utf8.scalars bytes).map (·.char))

/-- The span of the bytes `[start, stop)` of a source. -/
def Span.ofRange (source : Bytes) (start stop : Nat) : Span :=
  ⟨.ofBytes (source.take start), .ofBytes (source.take stop)⟩

def Span.Selects (source : Bytes) (s : Span) : Prop :=
  ∃ start stop, start ≤ stop ∧ stop ≤ source.length ∧ s = .ofRange source start stop

namespace Utf8

/-- The number of bytes that scalars were read from. -/
def width (ss : List Scalar) : Nat := (ss.map (·.width)).sum

theorem first_width_le (a : UInt8) (rest : Bytes) : (first a rest).width ≤ rest.length + 1 := by
  unfold first
  repeat' split
  all_goals simp

theorem first_take (h : (first a rest).width ≤ n + 1) : first a (rest.take n) = first a rest := by
  rcases rest with _ | ⟨b, _ | ⟨c, _ | ⟨d, rest⟩⟩⟩ <;>
    rcases n with _ | _ | _ | n <;> unfold first at h ⊢ <;> grind

theorem scalars_take (bytes : Bytes) (k : Nat) :
    scalars (bytes.take (width ((scalars bytes).take k))) = (scalars bytes).take k := by
  induction k generalizing bytes with
  | zero => rfl
  | succ k ih =>
    cases bytes with
    | nil => rfl
    | cons a rest =>
      set w := (first a rest).width with hw
      have pos : 0 < w := first_width_pos a rest
      set others := scalars (rest.drop (w - 1)) with ho
      have here : scalars (a :: rest) = first a rest :: others := scalars_cons a rest
      have split : width ((scalars (a :: rest)).take (k + 1)) =
          (w - 1 + width (others.take k)) + 1 := by
        simp only [here, List.take_succ_cons, width, List.map_cons, List.sum_cons]
        omega
      have same : first a (rest.take (w - 1 + width (others.take k))) = first a rest :=
        first_take (by omega)
      have others_read := ih (rest.drop (w - 1))
      rw [split, List.take_succ_cons, scalars_cons, same, here, List.take_succ_cons, List.drop_take, Nat.add_sub_cancel_left, others_read]

theorem scalars_drop (bytes : Bytes) (k : Nat) :
    scalars (bytes.drop (width ((scalars bytes).take k))) = (scalars bytes).drop k := by
  induction k generalizing bytes with
  | zero => rfl
  | succ k ih =>
    cases bytes with
    | nil => rfl
    | cons a rest =>
      have pos := first_width_pos a rest
      have others := ih (rest.drop ((first a rest).width - 1))
      have bytes : width ((scalars (a :: rest)).take (k + 1)) = ((first a rest).width - 1 +
          width ((scalars (rest.drop ((first a rest).width - 1))).take k)) + 1 := by
        simp only [scalars_cons, List.take_succ_cons, width, List.map_cons, List.sum_cons]
        omega
      rw [bytes, List.drop_succ_cons, ← List.drop_drop, others, scalars_cons, List.drop_succ_cons]

theorem eq_nil_of_scalars (h : scalars bytes = []) : bytes = [] := by
  cases bytes with
  | nil => rfl
  | cons a rest =>
    cases h

theorem width_take_le (bytes : Bytes) (k : Nat) :
    width ((scalars bytes).take k) ≤ bytes.length := by
  induction k generalizing bytes with
  | zero => simp [width]
  | succ k ih =>
    cases bytes with
    | nil => simp [scalars, scalarsAfter, width]
    | cons a rest =>
      have fits := first_width_le a rest
      have others := ih (rest.drop ((first a rest).width - 1))
      rw [List.length_drop] at others
      rw [scalars_cons, List.take_succ_cons, List.length_cons]
      simp only [width, List.map_cons, List.sum_cons] at others ⊢
      omega

end Utf8

namespace Scanner
namespace Reader

theorem skip_offset (n : Nat) (r : Reader) :
    (r.skip n).offset = r.offset + Utf8.width (r.rest.take n) := by
  induction n generalizing r with
  | zero => simp [skip, Utf8.width]
  | succ n ih =>
    cases h : r.rest with
    | nil => simp [skip, h, Utf8.width]
    | cons s rest => simp [skip, h, ih, Utf8.width, Nat.add_assoc]

theorem skip_pos (n : Nat) (r : Reader) :
    (r.skip n).pos = ((r.rest.take n).map (·.char)).foldl Pos.after r.pos := by
  induction n generalizing r with
  | zero => simp [skip]
  | succ n ih =>
    cases h : r.rest with
    | nil => simp [skip, h]
    | cons s rest => simp [skip, h, ih]

theorem skip_skip (m n : Nat) (r : Reader) : (r.skip m).skip n = r.skip (m + n) := by
  induction m generalizing r with
  | zero => simp [skip]
  | succ m ih =>
    cases h : r.rest with
    | nil =>
      have still : ∀ k, r.skip k = r := by
        intro k
        cases k <;> simp [skip, h]
      simp [still]
    | cons s rest => simp [skip, h, ih, Nat.add_right_comm m 1 n]

theorem offset_le_skip (n : Nat) (r : Reader) : r.offset ≤ (r.skip n).offset := by
  rw [skip_offset]
  omega

/-- A reader that has read characters from the front of a source. -/
def Reached (source : Bytes) (r : Reader) : Prop := ∃ k, r = (ofBytes source).skip k

variable {source : Bytes} {r : Reader}

theorem Reached.start : Reached source (ofBytes source) := ⟨0, rfl⟩

variable (h : Reached source r)
include h

theorem Reached.skip (n : Nat) : Reached source (r.skip n) := by
  obtain ⟨k, rfl⟩ := h
  exact ⟨k + n, skip_skip k n _⟩

theorem Reached.offset_le : r.offset ≤ source.length := by
  obtain ⟨k, rfl⟩ := h
  simpa [skip_offset, ofBytes] using Utf8.width_take_le source k

theorem Reached.pos_eq : r.pos = .ofBytes (source.take r.offset) := by
  obtain ⟨k, rfl⟩ := h
  have read := Utf8.scalars_take source k
  simp [skip_pos, skip_offset, ofBytes, Pos.ofBytes, Pos.ofChars, read]

theorem Reached.rest_eq : r.rest = Utf8.scalars (source.drop r.offset) := by
  obtain ⟨k, rfl⟩ := h
  simp [skip_rest, skip_offset, ofBytes, Utf8.scalars_drop]

theorem Reached.offset_eq (ended : r.rest = []) : r.offset = source.length := by
  have none := Utf8.eq_nil_of_scalars (h.rest_eq.symm.trans ended)
  rw [List.drop_eq_nil_iff] at none
  exact Nat.le_antisymm h.offset_le none

theorem Reached.slice (n : Nat) :
    ∃ bytes, slice? source r.offset (r.skip n).offset = some bytes ∧
      Utf8.scalars bytes = r.rest.take n := by
  have behind : r.offset ≤ (r.skip n).offset := offset_le_skip n r
  have inside : (r.skip n).offset ≤ source.length := (h.skip n).offset_le
  refine ⟨_, if_pos ⟨behind, inside⟩, ?_⟩
  rw [skip_offset, Nat.add_sub_cancel_left, h.rest_eq, Utf8.scalars_take]

theorem Reached.spanTo (n : Nat) :
    r.spanTo (r.skip n) = .ofRange source r.offset (r.skip n).offset := by
  simp only [Reader.spanTo, Span.ofRange, h.pos_eq, (h.skip n).pos_eq]

theorem Reached.selects (n : Nat) : (r.spanTo (r.skip n)).Selects source :=
  ⟨_, _, offset_le_skip n r, (h.skip n).offset_le, h.spanTo n⟩

end Reader
end Scanner

namespace Token

/-- The one text of the kinds whose leaves are named by their text. -/
def Kind.spelling? : Kind → Option String
  | .keyword word => some word.text
  | .assign => some "="
  | .lparen => some "("
  | .rparen => some ")"
  | .comma => some ","
  | .colon => some ":"
  | .arrow => some "->"
  | _ => none

/-- A token that stands where its offsets say and has the text of its kind. -/
structure Placed (source : Bytes) (t : Token) : Prop where
  order : t.start ≤ t.stop
  bound : t.stop ≤ source.length
  span : t.span = .ofRange source t.start t.stop
  text : ∀ x, t.kind.spelling? = some x → t.value = x

/-- The second token stands behind the first one, unless it is layout. -/
def Precedes (t u : Token) : Prop := u.kind.isLayout = false → t.stop ≤ u.start

theorem Placed.selects {t : Token} (h : t.Placed source) :
    t.span.Selects source := ⟨_, _, h.order, h.bound, h.span⟩

end Token

namespace Scanner

open Token (Precedes)

variable {x : String}

theorem signLexeme_spells (h : signLexeme c rest = .token kind n) (hx : kind.spelling? = some x) :
    String.ofList ((c :: rest).take n) = x := by
  unfold signLexeme at h
  split at h
  · rename_i found
    cases h
    cases rest with
    | nil => cases found
    | cons d rest =>
      have pair : Token.Kind.ofPair? c d = some kind := found
      unfold Token.Kind.ofPair? at pair
      split at pair <;> cases pair <;> cases hx
      rfl
  · split at h
    · rename_i single
      cases h
      unfold Token.Kind.ofChar? at single
      split at single <;> cases single <;> cases hx <;> rfl
    · cases h

theorem ofWord_spells (hx : (Token.Kind.ofWord word).spelling? = some x) : word = x := by
  unfold Token.Kind.ofWord at hx
  split at hx
  · rename_i k found
    have same := List.find?_some found
    cases hx
    exact (beq_iff_eq.1 same).symm
  · split at hx
    · cases hx
    · split at hx <;> cases hx

theorem lexeme_spells (h : lexeme c rest = .token kind n) (hx : kind.spelling? = some x) :
    String.ofList ((c :: rest).take n) = x := by
  unfold lexeme at h
  split at h
  · split at h
    · cases h
      cases hx
    · cases h
  · split at h
    · unfold numberLexeme at h
      grind [Token.Kind.spelling?]
    · split at h
      · cases h
        exact ofWord_spells hx
      · exact signLexeme_spells h hx

namespace Reader

variable {source : Bytes} {r : Reader}

theorem Reached.token_placed (h : Reached source r)
    (text : ∀ x, kind.spelling? = some x → String.ofList (r.chars.take n) = x) :
    (r.token kind n).Placed source where
  order := offset_le_skip n r
  bound := (h.skip n).offset_le
  span := h.spanTo n
  text x hx := by
    rw [← text x hx, chars, ← List.map_take]
    rfl

theorem Reached.layout_placed (h : Reached source r) (n : Nat) (none : kind.spelling? = none) :
    (r.layout kind n).Placed source where
  order := offset_le_skip n r
  bound := (h.skip n).offset_le
  span := h.spanTo n
  text x hx := by
    have hx : kind.spelling? = some x := hx
    rw [none] at hx
    cases hx

end Reader

/-- What a scanner keeps to, after it has handed out the tokens `past`. -/
structure Kept (source : Bytes) (past : List Token) (s : Scanner) : Prop where
  reader : s.reader.Reached source
  placed : ∀ t ∈ past ++ s.queue, t.Placed source
  behind : ∀ t ∈ past ++ s.queue, t.stop ≤ s.reader.offset
  ordered : (past ++ s.queue).Pairwise Precedes
  blocks : s.indents.getLast? = some 0

/-- Tokens that are cut off between two readers. -/
structure Between (source : Bytes) (r r' : Reader) (ts : List Token) : Prop where
  placed : ∀ t ∈ ts, t.Placed source
  starts : ∀ t ∈ ts, r.offset ≤ t.start
  stops : ∀ t ∈ ts, t.stop ≤ r'.offset
  ordered : ts.Pairwise Precedes

section kept

variable {source : Bytes} {past ts us : List Token} {s s' : Scanner} {r r' r'' : Reader}

theorem Between.nil : Between source r r' [] where
  placed := by simp
  starts := by simp
  stops := by simp
  ordered := .nil

theorem Between.append (h : Between source r r' ts) (h' : Between source r' r'' us)
    (le : r.offset ≤ r'.offset) (le' : r'.offset ≤ r''.offset) :
    Between source r r'' (ts ++ us) where
  placed t ht := (List.mem_append.1 ht).elim (h.placed t) (h'.placed t)
  starts t ht := (List.mem_append.1 ht).elim (h.starts t) fun hu => Nat.le_trans le (h'.starts t hu)
  stops t ht := (List.mem_append.1 ht).elim (fun ht => Nat.le_trans (h.stops t ht) le') (h'.stops t)
  ordered := List.pairwise_append.2 ⟨h.ordered, h'.ordered,
    fun t ht u hu _ => Nat.le_trans (h.stops t ht) (h'.starts u hu)⟩

theorem Between.token (h : r.Reached source)
    (text : ∀ x, kind.spelling? = some x → String.ofList (r.chars.take n) = x) :
    Between source r (r.skip n) [r.token kind n] where
  placed t ht := by
    rw [List.mem_singleton.1 ht]
    exact h.token_placed text
  starts t ht := by
    rw [List.mem_singleton.1 ht]
    exact Nat.le_refl _
  stops t ht := by
    rw [List.mem_singleton.1 ht]
    exact Nat.le_refl _
  ordered := List.pairwise_singleton _ _

theorem Between.layout (h : r.Reached source)
    (all : ∀ t ∈ ts, ∃ kind : Token.Kind, kind.isLayout = true ∧ t = r.layout kind n) :
    Between source r (r.skip n) ts where
  placed t ht := by
    obtain ⟨kind, hk, rfl⟩ := all t ht
    exact h.layout_placed n (by cases kind <;> first | rfl | cases hk)
  starts t ht := by
    obtain ⟨kind, -, rfl⟩ := all t ht
    exact Nat.le_refl _
  stops t ht := by
    obtain ⟨kind, -, rfl⟩ := all t ht
    exact Nat.le_refl _
  ordered := by
    refine List.Pairwise.imp_of_mem (R := fun _ _ => True) ?_
      (List.pairwise_of_forall fun _ _ => trivial)
    intro t u _ hu _ text
    obtain ⟨kind, hk, rfl⟩ := all u hu
    exact absurd (hk.symm.trans text) nofun

theorem Kept.push (h : Kept source past s) (reader : s'.reader.Reached source)
    (onward : s.reader.offset ≤ s'.reader.offset)
    (between : Between source s.reader s'.reader ts) (queue : s'.queue = s.queue ++ ts)
    (blocks : s'.indents.getLast? = some 0) : Kept source past s' where
  reader := reader
  placed t ht := by
    rw [queue, ← List.append_assoc] at ht
    exact (List.mem_append.1 ht).elim (h.placed t) (between.placed t)
  behind t ht := by
    rw [queue, ← List.append_assoc] at ht
    exact (List.mem_append.1 ht).elim (fun ht => Nat.le_trans (h.behind t ht) onward)
      (between.stops t)
  ordered := by
    rw [queue, ← List.append_assoc]
    exact List.pairwise_append.2 ⟨h.ordered, between.ordered,
      fun t ht u hu _ => Nat.le_trans (h.behind t ht) (between.starts u hu)⟩
  blocks := blocks

/-- A step either keeps to it or stops at a place of the source. -/
def KeepsOn (source : Bytes) (past : List Token) : Except SyntaxError Scanner → Prop
  | .ok s => Kept source past s
  | .error e => e.span.Selects source

theorem KeepsOn.bind {x : Except SyntaxError Scanner} (h : KeepsOn source past x)
    (hf : ∀ s, Kept source past s → KeepsOn source past (f s)) : KeepsOn source past (x >>= f) := by
  cases x with
  | ok s => exact hf s h
  | error e => exact h

theorem Kept.start : Kept source [] (ofBytes source) where
  reader := .start
  placed := by simp [ofBytes]
  behind := by simp [ofBytes]
  ordered := by simp [ofBytes]
  blocks := rfl

theorem Kept.move (h : Kept source past s) (n : Nat) (lineStart : Bool) :
    Kept source past { s with reader := s.reader.skip n, lineStart } :=
  h.push (h.reader.skip n) (s.reader.offset_le_skip n) .nil (by simp) h.blocks

theorem Kept.finish (h : Kept source past s) : Kept source past s.finish := by
  set ending := if s.lineEmpty then [] else [s.reader.layout .newline 0] with he
  set closing := List.replicate (s.indents.length - 1) (s.reader.layout .dedent 0) with hc
  have layout : Between source s.reader (s.reader.skip 0)
      (ending ++ closing ++ [s.reader.layout .eof 0]) := by
    refine .layout h.reader fun t ht => ?_
    rcases List.mem_append.1 ht with ht | ht
    · rcases List.mem_append.1 ht with ht | ht
      · rw [he] at ht
        split at ht
        · cases ht
        · exact ⟨.newline, rfl, List.mem_singleton.1 ht⟩
      · exact ⟨.dedent, rfl, List.eq_of_mem_replicate ht⟩
    · exact ⟨.eof, rfl, List.mem_singleton.1 ht⟩
  refine h.push h.reader (Nat.le_refl _) layout (by simp [Scanner.finish, he, hc]) ?_
  have open_ : s.indents ≠ [] := by
    intro none
    have := h.blocks
    rw [none] at this
    cases this
  have pos := List.length_pos_iff.2 open_
  show (s.indents.drop (s.indents.length - 1)).getLast? = some 0
  rw [List.getLast?_drop, if_neg (by omega)]
  exact h.blocks

theorem Kept.scanLine (h : Kept source past s) : KeepsOn source past s.scanLine := by
  unfold Scanner.scanLine
  set g := gap (0 < s.parens) false s.reader.chars
  set r := s.reader.skip g.length with hr
  have there : r.Reached source := h.reader.skip _
  have onward : s.reader.offset ≤ r.offset := s.reader.offset_le_skip _
  simp only
  split
  · exact there.selects 0
  split
  · exact Kept.finish (h.move g.length s.lineStart)
  · rename_i c rest hchars
    split
    · have ending : Between source s.reader (r.skip 1)
          (if s.lineEmpty then [] else [r.token .newline 1]) := by
        split
        · exact .nil
        · exact Between.append .nil (.token there nofun) onward (r.offset_le_skip 1)
      exact h.push (there.skip 1) (Nat.le_trans onward (r.offset_le_skip 1)) ending rfl h.blocks
    · split
      · rename_i kind n hn
        refine h.push (there.skip n) (Nat.le_trans onward (r.offset_le_skip n)) ?_ rfl h.blocks
        refine Between.append .nil (.token there fun x hx => ?_) onward (r.offset_le_skip n)
        rw [hchars]
        exact lexeme_spells hn hx
      · exact there.selects _

theorem getLast?_dropWhile {indents : List Nat} (h : indents.getLast? = some 0) :
    (indents.dropWhile (level < ·)).getLast? = some 0 := by
  induction indents with
  | nil => cases h
  | cons n rest ih =>
    rw [List.dropWhile_cons]
    split
    · rename_i deeper
      cases rest with
      | nil =>
        cases h
        simp at deeper
      | cons m rest => exact ih (by simpa using h)
    · exact h

section

variable (h : Kept source past s)
include h

theorem Kept.indent (n : Nat) : KeepsOn source past (s.indent n) := by
  have onward := s.reader.offset_le_skip n
  have layout : ∀ k (kind : Token.Kind), kind.isLayout = true →
      Between source s.reader (s.reader.skip n) (List.replicate k (s.reader.layout kind n)) :=
    fun k kind hk => .layout h.reader fun t ht => ⟨kind, hk, List.eq_of_mem_replicate ht⟩
  unfold Scanner.indent
  simp only
  split
  · refine h.push (h.reader.skip n) onward (layout 1 .indent rfl) rfl ?_
    have := h.blocks
    cases hs : s.indents with
    | nil => simp [hs] at this
    | cons m rest => simpa [hs] using this
  · split
    · exact h.push (h.reader.skip n) onward (layout _ .dedent rfl) rfl (getLast?_dropWhile h.blocks)
    · exact h.reader.selects n

theorem Kept.fill : KeepsOn source past s.fill := by
  unfold Scanner.fill
  split
  · split
    · exact h.move _ _
    · exact (h.move _ _).scanLine
    · exact KeepsOn.bind (h.indent _) fun _ h' => h'.scanLine
  · exact h.scanLine

theorem Kept.settle (fuel : Nat) : KeepsOn source past (s.settle fuel) := by
  induction fuel generalizing s with
  | zero => exact h.finish
  | succ fuel ih =>
    unfold Scanner.settle
    split
    · exact h
    · exact KeepsOn.bind h.fill fun _ h' => ih h'

theorem Kept.next :
    (∃ t s', s.next = .ok (t, s') ∧ Kept source (past ++ [t]) s') ∨
      ∃ e, s.next = .error e ∧ e.span.Selects source := by
  have settled := h.settle (s.reader.rest.length + 2)
  unfold Scanner.next
  cases hs : s.settle (s.reader.rest.length + 2) with
  | error e =>
    rw [hs] at settled
    exact .inr ⟨e, rfl, settled⟩
  | ok s₁ =>
    rw [hs] at settled
    left
    cases hq : s₁.queue with
    | nil =>
      refine ⟨s₁.reader.layout .eof 0, s₁, by simp [bind, Except.bind, hq], ?_⟩
      have ended : Between source s₁.reader (s₁.reader.skip 0) [s₁.reader.layout .eof 0] :=
        .layout settled.reader fun t ht => ⟨.eof, rfl, List.mem_singleton.1 ht⟩
      have pushed : Kept source past { s₁ with queue := [s₁.reader.layout .eof 0] } :=
        settled.push settled.reader (Nat.le_refl _) ended (by simp [hq]) settled.blocks
      exact ⟨pushed.reader, by simpa [hq] using pushed.placed, by simpa [hq] using pushed.behind,
        by simpa [hq] using pushed.ordered, pushed.blocks⟩
    | cons t queue =>
      refine ⟨t, { s₁ with queue, lineEmpty := t.kind = .newline }, by
        simp [bind, Except.bind, hq], ?_⟩
      exact ⟨settled.reader, by simpa [hq] using settled.placed, by simpa [hq] using settled.behind,
        by simpa [hq] using settled.ordered, settled.blocks⟩

theorem Kept.scanUpTo (fuel : Nat) :
    (∀ t ∈ (scanUpTo fuel s).tokens, t.Placed source) ∧
    (past ++ (Scanner.scanUpTo fuel s).tokens).Pairwise Precedes ∧
    ∀ e, (Scanner.scanUpTo fuel s).fault = some e → e.span.Selects source := by
  induction fuel generalizing past s with
  | zero =>
    simpa [Scanner.scanUpTo] using (List.pairwise_append.1 h.ordered).1
  | succ fuel ih =>
    unfold Scanner.scanUpTo
    rcases h.next with ⟨t, s', hn, kept⟩ | ⟨e, hn, he⟩
    · have here : t.Placed source := kept.placed t (by simp)
      rw [hn]
      simp only
      split
      · refine ⟨by simpa using here, ?_, by simp⟩
        exact (List.pairwise_append.1 kept.ordered).1
      · obtain ⟨placed, ordered, fault⟩ := ih kept
        refine ⟨?_, by simpa using ordered, fault⟩
        intro u hu
        rcases List.mem_cons.1 hu with rfl | hu
        · exact here
        · exact placed u hu
    · rw [hn]
      refine ⟨by simp, ?_, fun e' h' => ?_⟩
      · simpa using (List.pairwise_append.1 h.ordered).1
      · cases h'
        exact he

end

theorem scan_placed (h : t ∈ (scan source).tokens) : t.Placed source :=
  (Kept.start.scanUpTo _).1 t h

theorem scan_ordered (source : Bytes) : (scan source).tokens.Pairwise Precedes :=
  (Kept.start.scanUpTo _).2.1

theorem scan_fault_selects (h : (scan source).fault = some e) :
    e.span.Selects source := (Kept.start.scanUpTo _).2.2 e h

end kept

end Scanner
end WordScript
