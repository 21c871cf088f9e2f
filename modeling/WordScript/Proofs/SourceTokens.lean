import WordScript.Proofs.Scanning
import WordScript.Proofs.SourceText

/-! The tokens of lines.

A text is given as lines of words. The scanner hands out the words of each line with the end of the
line behind them, and between the lines the layout that their depths call for. Every token refers
to its own text in the source. -/
namespace WordScript

namespace Utf8

variable {n b : Nat}

def scalar (c : Char) : Scalar := ⟨c, (String.utf8EncodeChar c).length⟩

theorem toNat_byte (h : n < 256) : (UInt8.ofNat n).toNat = n := by
  rw [UInt8.toNat_ofNat', Nat.mod_eq_of_lt h]

theorem byte_between (h : n < 256) :
    (decide (lo ≤ UInt8.ofNat n) && decide (UInt8.ofNat n ≤ hi)) =
      decide (lo.toNat ≤ n ∧ n ≤ hi.toNat) := by
  simp only [UInt8.le_iff_toNat_le, toNat_byte h, Bool.decide_and]

theorem byte_below (h : n < 256) : UInt8.ofNat n < hi ↔ n < hi.toNat := by
  rw [UInt8.lt_iff_toNat_lt, toNat_byte h]

theorem byte_eq {b : UInt8} (h : n < 256) : UInt8.ofNat n = b ↔ n = b.toNat := by
  rw [← UInt8.toNat_inj, toNat_byte h]

theorem isTail_byte (h : n < 64) : isTail (UInt8.ofNat (n + 128)) = true := by
  rw [isTail, byte_between (by omega)]
  simp
  omega

theorem isSecond_byte (ha : a < 256) (hb : b < 64) (least : a = 0xE0 → 32 ≤ b)
    (surrogate : a = 0xED → b < 32) (least' : a = 0xF0 → 16 ≤ b) (last : a = 0xF4 → b < 16) :
    isSecond (UInt8.ofNat a) (UInt8.ofNat (b + 128)) = true := by
  have small : b + 128 < 256 := by omega
  simp only [isSecond, byte_eq ha, byte_between small, isTail_byte hb]
  split_ifs with h1 h2 h3 h4
  · have := least h1
    simp
    omega
  · have := surrogate h2
    simp
    omega
  · have := least' h3
    simp
    omega
  · have := last h4
    simp
    omega
  · rfl

theorem lowBits_byte (h : n < Nat.pow 2 k) (hb : Nat.pow 2 k ∣ b) (small : n + b < 256) :
    lowBits k (UInt8.ofNat (n + b)) = n := by
  rw [lowBits, toNat_byte small, Nat.add_mod, Nat.mod_eq_zero_of_dvd hb, Nat.add_zero, Nat.mod_mod,
    Nat.mod_eq_of_lt h]

theorem lowBits_tail (h : n < 64) : lowBits 6 (UInt8.ofNat (n + 128)) = n :=
  lowBits_byte h (by decide) (by omega)

theorem first_encodeChar (c : Char) (rest : Bytes) :
    ∃ a tail, String.utf8EncodeChar c = a :: tail ∧ first a (tail ++ rest) = scalar c := by
  have back : Char.ofNat c.val.toNat = c := Char.ofNat_toNat c
  have valid : c.val.toNat < 55296 ∨ 57343 < c.val.toNat ∧ c.val.toNat < 1114112 := c.valid
  rw [scalar, String.utf8EncodeChar.eq_1]
  generalize c.val.toNat = v at *
  split_ifs with one two three
  · refine ⟨_, _, rfl, ?_⟩
    have lead : v < 256 := by omega
    have small : v < (0x80 : UInt8).toNat := by simp; omega
    rw [first.eq_def, if_pos ((byte_below lead).2 small), toNat_byte lead, back]
    rfl
  · refine ⟨_, _, rfl, ?_⟩
    have lead : v / 64 % 32 + 192 < 256 := by omega
    have whole : v / 64 % 32 * 64 + v % 64 = v := by omega
    rw [first.eq_def]
    simp only [byte_below lead, byte_between lead]
    rw [if_neg (by simp), if_pos (by simp; omega)]
    simp only [List.cons_append]
    rw [if_pos (isTail_byte (by omega)), lowBits_byte (by show _ < 32; omega) (by decide) lead,
      lowBits_tail (by omega), whole, back]
    rfl
  · refine ⟨_, _, rfl, ?_⟩
    have lead : v / 4096 % 16 + 224 < 256 := by omega
    have whole : (v / 4096 % 16 * 64 + v / 64 % 64) * 64 + v % 64 = v := by omega
    rw [first.eq_def]
    simp only [byte_below lead, byte_between lead]
    rw [if_neg (by simp), if_neg (by simp), if_pos (by simp; omega)]
    simp only [List.cons_append]
    rw [isSecond_byte lead (by omega) (by omega) (by omega) (by omega) (by omega),
      isTail_byte (by omega), if_pos (Bool.and_self true),
      lowBits_byte (by show _ < 16; omega) (by decide) lead, lowBits_tail (by omega),
      lowBits_tail (by omega), whole, back]
    rfl
  · refine ⟨_, _, rfl, ?_⟩
    have lead : v / 262144 % 8 + 240 < 256 := by omega
    have whole : ((v / 262144 % 8 * 64 + v / 4096 % 64) * 64 + v / 64 % 64) * 64 + v % 64 = v := by
      omega
    rw [first.eq_def]
    simp only [byte_below lead, byte_between lead]
    rw [if_neg (by simp), if_neg (by simp), if_neg (by simp),
      if_pos (by simp; omega)]
    simp only [List.cons_append]
    rw [isSecond_byte lead (by omega) (by omega) (by omega) (by omega) (by omega),
      isTail_byte (by omega), isTail_byte (by omega), Bool.and_self, if_pos (Bool.and_self true),
      lowBits_byte (by show _ < 8; omega) (by decide) lead, lowBits_tail (by omega),
      lowBits_tail (by omega), lowBits_tail (by omega), whole, back]
    rfl

theorem scalars_encodeChar (c : Char) (rest : Bytes) :
    scalars (String.utf8EncodeChar c ++ rest) = scalar c :: scalars rest := by
  obtain ⟨a, tail, bytes, read⟩ := first_encodeChar c rest
  have width : (scalar c).width = tail.length + 1 := by simp [scalar, bytes]
  rw [bytes, List.cons_append, scalars_cons, read, width, Nat.add_sub_cancel, List.drop_left]

theorem scalars_flatMap (cs : List Char) :
    scalars (cs.flatMap String.utf8EncodeChar) = cs.map scalar := by
  induction cs with
  | nil => rfl
  | cons c rest ih => rw [List.flatMap_cons, scalars_encodeChar, ih, List.map_cons]

theorem decode_flatMap (cs : List Char) :
    decode (cs.flatMap String.utf8EncodeChar) = String.ofList cs := by
  simp [decode, scalars_flatMap, scalar, Function.comp_def]

end Utf8

namespace Scanner

open Token (Kind)

def bytesOf (cs : List Char) : Bytes := cs.flatMap String.utf8EncodeChar

/-- The characters `cs` stand ahead, up to the end of the source. -/
structure Ahead (source : Bytes) (r : Reader) (cs : List Char) : Prop where
  rest : r.rest = cs.map Utf8.scalar
  place : ∃ before, source = before ++ bytesOf cs ∧ r.offset = before.length

/-- A token of a kind. If it is no layout it has a text, and refers to this text in the source. -/
def Shows (source : Bytes) (t : Token) (w : Kind × String) : Prop :=
  t.kind = w.1 ∧
    (w.1.isLayout = false → t.value = w.2 ∧ (Node.leaf t).text? source = some w.2)

section ahead

variable {source : Bytes} {r : Reader} {cs xs ys : List Char}

theorem Ahead.chars (h : Ahead source r cs) : r.chars = cs := by
  simp [Reader.chars, h.rest, Utf8.scalar, Function.comp_def]

theorem Ahead.skip (h : Ahead source r (xs ++ ys)) :
    Ahead source (r.skip xs.length) ys ∧
      (r.skip xs.length).offset = r.offset + (bytesOf xs).length := by
  induction xs generalizing r with
  | nil => exact ⟨h, rfl⟩
  | cons x xs ih =>
    obtain ⟨before, split, offset⟩ := h.place
    have rest : r.rest = Utf8.scalar x :: (xs ++ ys).map Utf8.scalar := h.rest
    have next : Ahead source ⟨(xs ++ ys).map Utf8.scalar, r.offset + (Utf8.scalar x).width,
        r.pos.after x⟩ (xs ++ ys) := by
      refine ⟨rfl, before ++ String.utf8EncodeChar x, ?_, ?_⟩
      · simp [split, bytesOf]
      · simp [offset, Utf8.scalar]
    have step : r.skip (x :: xs).length = Reader.skip xs.length
        ⟨(xs ++ ys).map Utf8.scalar, r.offset + (Utf8.scalar x).width, r.pos.after x⟩ := by
      simp [Reader.skip, rest, Utf8.scalar]
    rw [step]
    refine ⟨(ih next).1, (ih next).2.trans ?_⟩
    simp [bytesOf, Utf8.scalar, Nat.add_assoc]

theorem Ahead.skip_blanks (h : Ahead source r (List.replicate n ' ' ++ cs)) :
    Ahead source (r.skip n) cs := by
  simpa using h.skip.1

theorem skip_blanks_col (h : r.rest = (List.replicate n ' ' ++ cs).map Utf8.scalar) :
    (r.skip n).pos.col = r.pos.col + n := by
  induction n generalizing r with
  | zero => rfl
  | succ n ih =>
    rw [List.replicate_succ, List.cons_append, List.map_cons] at h
    have after : (r.pos.after ' ').col = r.pos.col + 1 := rfl
    simp only [Reader.skip, h]
    rw [ih rfl]
    simp only [Utf8.scalar, after]
    omega

theorem Ahead.token (h : Ahead source r (xs ++ ys)) (kind : Kind) :
    Shows source (r.token kind xs.length) (kind, String.ofList xs) := by
  obtain ⟨before, split, offset⟩ := h.place
  refine ⟨rfl, fun _ => ⟨?_, ?_⟩⟩
  · simp [Reader.token, h.rest, Utf8.scalar, Function.comp_def]
  · have stop : (r.token kind xs.length).stop = before.length + (bytesOf xs).length := by
      rw [← offset]
      exact h.skip.2
    have cut : slice? source before.length (before.length + (bytesOf xs).length) =
        some (bytesOf xs) := by
      rw [slice?, if_pos (by simp [split, bytesOf])]
      simp [split, bytesOf]
    have start : (r.token kind xs.length).start = before.length := offset
    simp only [Node.text?, Node.start?, Node.stop?, start, stop, cut, bind, Option.bind]
    rw [bytesOf, Utf8.decode_flatMap]
    rfl

end ahead

def Starts (c : Char) : Prop := c ≠ '\n' ∧ isBlank c = false ∧ c ≠ '#' ∧ c ≠ '\\'

/-- Before `rest`, the characters of `x` are one token. -/
def LexesAs (kind : Kind) (x : String) (rest : List Char) : Prop :=
  kind.isLayout = false ∧ ∃ c cs, x.toList = c :: cs ∧ Starts c ∧
    lexeme c (cs ++ rest) = .token kind (cs.length + 1)

theorem gap_blanks (h : Starts c ∨ c = '\n' ∧ nested = false) :
    gap nested false (List.replicate n ' ' ++ c :: rest) = ⟨n, false⟩ := by
  induction n with
  | zero =>
    rw [List.replicate_zero, List.nil_append, gap.eq_def]
    rcases h with ⟨line, blank, comment, continued⟩ | ⟨rfl, rfl⟩
    · simp [line, blank, comment, continued]
    · rfl
  | succ n ih =>
    rw [List.replicate_succ, List.cons_append, gap.eq_def]
    simp only [ih]
    rw [if_neg (by decide), if_neg (by decide), if_pos (by decide), Gap.after, Nat.add_comm]

section steps

variable {source : Bytes} {s s' : Scanner} {n : Nat} {kind : Kind} {x : String}
  {rest : List Char}

theorem scanLine_word (ahead : Ahead source s.reader (List.replicate n ' ' ++ (x.toList ++ rest)))
    (word : LexesAs kind x rest) :
    ∃ r t, s.scanLine = .ok { s with
        reader := r, parens := parensAfter s.parens kind, queue := s.queue ++ [t] } ∧
      Ahead source r rest ∧ Shows source t (kind, x) := by
  obtain ⟨-, c, cs, hx, starts, lex⟩ := word
  have here := ahead.skip_blanks
  have chars : (s.reader.skip n).chars = c :: (cs ++ rest) := by rw [here.chars, hx]; rfl
  have length : x.toList.length = cs.length + 1 := by simp [hx]
  have line : c ≠ '\n' := starts.1
  have gap : gap (0 < s.parens) false s.reader.chars = ⟨n, false⟩ := by
    rw [ahead.chars, hx]
    exact gap_blanks (.inl starts)
  refine ⟨(s.reader.skip n).skip (cs.length + 1), (s.reader.skip n).token kind (cs.length + 1),
    ?_, ?_, ?_⟩
  · simp only [scanLine, gap, Bool.false_eq_true, if_false, chars, line, lex]
  · rw [← length]
    exact here.skip.1
  · rw [← length]
    simpa using here.token kind

theorem scanLine_newline (ahead : Ahead source s.reader (List.replicate n ' ' ++ '\n' :: rest))
    (outside : s.parens = 0) (some : s.lineEmpty = false) :
    ∃ r t, s.scanLine = .ok { s with reader := r, lineStart := true, queue := s.queue ++ [t] } ∧
      Ahead source r rest ∧ r.pos.col = 0 ∧ t.kind = .newline := by
  have here := ahead.skip_blanks
  have chars : (s.reader.skip n).chars = '\n' :: rest := here.chars
  have gap : gap (0 < s.parens) false s.reader.chars = ⟨n, false⟩ := by
    rw [ahead.chars]
    exact gap_blanks (.inr ⟨rfl, by simp [outside]⟩)
  refine ⟨(s.reader.skip n).skip 1, (s.reader.skip n).token .newline 1, ?_, ?_, ?_, rfl⟩
  · simp only [scanLine, gap, Bool.false_eq_true, if_false, chars, if_true, some]
  · exact (@Ahead.skip source _ ['\n'] rest here).1
  · have first : (s.reader.skip n).rest = Utf8.scalar '\n' :: rest.map Utf8.scalar := here.rest
    simp only [Reader.skip, first]
    rfl

end steps

/-- The tokens that are handed out show these words. -/
def Hands (source : Bytes) (s : Scanner) (ws : List (Kind × String)) : Prop :=
  ∃ ts, s.HandsOut ts ∧ List.Forall₂ (Shows source) ts ws

section hands

variable {source : Bytes} {s s' : Scanner} {t : Token} {q : List Token} {w : Kind × String}
  {vs ws : List (Kind × String)}

theorem next_queued (queue : s.queue = t :: q) :
    s.next = .ok (t, { s with queue := q, lineEmpty := t.kind = .newline }) := by
  have ready : s.settle (s.reader.rest.length + 2) = .ok s := by
    rw [settle]
    split
    · rfl
    · rename_i none
      rw [queue] at none
      cases none
  rw [next, ready]
  simp only [bind, Except.bind]
  split
  · rename_i t' q' same
    rw [queue] at same
    cases same
    rfl
  · rename_i none
    rw [queue] at none
    cases none

theorem next_of_fill (empty : s.queue = []) (fill : s.fill = .ok s') (queue : s'.queue = t :: q) :
    s.next = s'.next := by
  have ready : s'.settle (s.reader.rest.length + 1) = .ok s' := by
    rw [settle]
    split
    · rfl
    · rename_i none
      rw [queue] at none
      cases none
  have settled : s.settle (s.reader.rest.length + 2) = .ok s' := by
    rw [settle]
    split
    · rename_i some
      rw [empty] at some
      cases some
    · rw [fill]
      exact ready
  rw [next_queued queue, next, settled]
  simp only [bind, Except.bind]
  split
  · rename_i t' q' same
    rw [queue] at same
    cases same
    rfl
  · rename_i none
    rw [queue] at none
    cases none

theorem Hands.of_fill (h : Hands source s' ws) (empty : s.queue = []) (fill : s.fill = .ok s')
    (queue : s'.queue = t :: q) : Hands source s ws := by
  obtain ⟨ts, handsOut, shows⟩ := h
  refine ⟨ts, ?_, shows⟩
  have same := next_of_fill empty fill queue
  cases handsOut with
  | last next eof => exact .last (same.trans next) eof
  | more next text others => exact .more (same.trans next) text others

theorem Hands.queued (h : Hands source { s with queue := q, lineEmpty := t.kind = .newline } ws)
    (queue : s.queue = t :: q) (shows : Shows source t w) (text : w.1 ≠ .eof) :
    Hands source s (w :: ws) := by
  obtain ⟨ts, handsOut, others⟩ := h
  have kind : t.kind ≠ .eof := by
    rw [shows.1]
    exact text
  exact ⟨t :: ts, .more (next_queued queue) kind handsOut, .cons shows others⟩

theorem Hands.queue (h : Hands source { s with queue := [], lineEmpty := false } ws)
    (queue : s.queue = q) (some : q ≠ []) (shows : List.Forall₂ (Shows source) q vs)
    (inside : ∀ v ∈ vs, v.1 ≠ .eof ∧ v.1 ≠ .newline) : Hands source s (vs ++ ws) := by
  induction shows generalizing s with
  | nil => exact absurd rfl some
  | @cons t v q vs first others ih =>
    have here := inside v List.mem_cons_self
    have line : decide (t.kind = .newline) = false := by
      rw [first.1]
      exact decide_eq_false here.2
    refine Hands.queued ?_ queue first here.1
    rw [line]
    cases others with
    | nil => exact h
    | cons second others =>
      refine ih ?_ rfl (List.cons_ne_nil _ _) fun v hv => inside v (List.mem_cons_of_mem _ hv)
      exact h

theorem Hands.ends (queue : s.queue = q ++ [t]) (shows : List.Forall₂ (Shows source) q vs)
    (inside : ∀ v ∈ vs, v.1 ≠ .eof) (eof : Shows source t (.eof, "")) :
    Hands source s (vs ++ [(.eof, "")]) := by
  induction shows generalizing s with
  | nil => exact ⟨[t], .last (next_queued queue) eof.1, .cons eof .nil⟩
  | cons first others ih =>
    refine Hands.queued ?_ queue first (inside _ List.mem_cons_self)
    exact ih rfl fun v hv => inside v (List.mem_cons_of_mem _ hv)

end hands

def margins : Nat → List Nat
  | 0 => [0]
  | d + 1 => 4 * (d + 1) :: margins d

@[simp] theorem margins_length (d : Nat) : (margins d).length = d + 1 := by
  induction d with
  | zero => rfl
  | succ d ih => simp [margins, ih]

@[simp] theorem margins_head (d : Nat) : (margins d).headD 0 = 4 * d := by cases d <;> rfl

theorem margins_dropWhile (h : e ≤ d) :
    (margins d).dropWhile (fun x => decide (4 * e < x)) = margins e := by
  induction d with
  | zero =>
    obtain rfl : e = 0 := by omega
    simp [margins]
  | succ d ih =>
    by_cases same : e = d + 1
    · subst same
      simp [margins]
    · have lt : 4 * e < 4 * (d + 1) := by omega
      rw [margins, List.dropWhile_cons_of_pos (by simpa using lt), ih (by omega)]

/-- Inside a line, with so many parentheses open. -/
structure MidLine (source : Bytes) (s : Scanner) (cs : List Char) (parens depth : Nat) : Prop where
  ahead : Ahead source s.reader cs
  lineStart : s.lineStart = false
  lineEmpty : s.lineEmpty = false
  queue : s.queue = []
  parens : s.parens = parens
  indents : s.indents = margins depth

/-- Before a line, after one of the given depth. -/
structure AtLine (source : Bytes) (s : Scanner) (cs : List Char) (depth : Nat) : Prop where
  ahead : Ahead source s.reader cs
  col : s.reader.pos.col = 0
  lineStart : s.lineStart = true
  lineEmpty : s.lineEmpty = true
  queue : s.queue = []
  parens : s.parens = 0
  indents : s.indents = margins depth

/-- Each word of a line is one token, before the rest of the line. -/
def Lexes : List Piece → List Char → Prop
  | [], _ => True
  | .blank :: ps, rest => Lexes ps rest
  | .word kind x :: ps, rest => LexesAs kind x (Piece.chars ps ++ rest) ∧ Lexes ps rest

def words : List Piece → List (Kind × String)
  | [] => []
  | .blank :: ps => words ps
  | .word kind x :: ps => (kind, x) :: words ps

/-- How many parentheses are open after a line. -/
def opened (parens : Nat) (ws : List (Kind × String)) : Nat :=
  ws.foldl (fun n w => parensAfter n w.1) parens

section lines

variable {source : Bytes} {s : Scanner} {n parens depth : Nat} {rest : List Char}
  {ws : List (Kind × String)}

theorem fill_midLine (h : s.lineStart = false) : s.fill = s.scanLine := by
  rw [fill, if_neg (by simp [h])]

theorem hands_word
    (mid : MidLine source s (List.replicate n ' ' ++ (x.toList ++ rest)) parens depth)
    (word : LexesAs kind x rest)
    (after : ∀ s', MidLine source s' rest (parensAfter parens kind) depth → Hands source s' ws) :
    Hands source s ((kind, x) :: ws) := by
  obtain ⟨r, t, scan, ahead, shows⟩ := scanLine_word mid.ahead word
  have fill : s.fill = .ok { s with
      reader := r, parens := parensAfter s.parens kind, queue := s.queue ++ [t] } :=
    (fill_midLine mid.lineStart).trans scan
  have inside : kind ≠ .eof ∧ kind ≠ .newline := by
    have text := word.1
    constructor <;> rintro rfl <;> cases text
  have queue : s.queue ++ [t] = [t] := by rw [mid.queue]; rfl
  have others := after { s with
    reader := r, parens := parensAfter s.parens kind, queue := [], lineEmpty := false }
    ⟨ahead, mid.lineStart, rfl, rfl, by simp [mid.parens], mid.indents⟩
  refine Hands.of_fill (t := t) (q := []) ?_ mid.queue fill queue
  exact Hands.queue others queue (by simp) (.cons shows .nil) (by simpa using inside)

theorem hands_newline (mid : MidLine source s (List.replicate n ' ' ++ '\n' :: rest) 0 depth)
    (after : ∀ s', AtLine source s' rest depth → Hands source s' ws) :
    Hands source s ((.newline, "") :: ws) := by
  obtain ⟨r, t, scan, ahead, col, kind⟩ := scanLine_newline mid.ahead mid.parens mid.lineEmpty
  have fill : s.fill = .ok { s with reader := r, lineStart := true, queue := s.queue ++ [t] } :=
    (fill_midLine mid.lineStart).trans scan
  have queue : s.queue ++ [t] = [t] := by rw [mid.queue]; rfl
  have line : decide (t.kind = .newline) = true := decide_eq_true kind
  have shows : Shows source t (.newline, "") := ⟨kind, nofun⟩
  refine Hands.of_fill (t := t) (q := []) ?_ mid.queue fill queue
  refine Hands.queued (q := []) ?_ queue shows (by simp)
  exact after _ ⟨ahead, col, rfl, line, rfl, mid.parens, mid.indents⟩

theorem hands_pieces
    (mid : MidLine source s (List.replicate n ' ' ++ (Piece.chars ps ++ '\n' :: rest)) parens depth)
    (lexes : Lexes ps ('\n' :: rest)) (balanced : opened parens (words ps) = 0)
    (after : ∀ s', AtLine source s' rest depth → Hands source s' ws) :
    Hands source s (words ps ++ (.newline, "") :: ws) := by
  induction ps generalizing s n parens with
  | nil =>
    obtain rfl : parens = 0 := balanced
    exact hands_newline mid after
  | cons p ps ih =>
    cases p with
    | blank =>
      have more : MidLine source s (List.replicate (n + 1) ' ' ++
          (Piece.chars ps ++ '\n' :: rest)) parens depth := by
        simpa [List.replicate_succ', Piece.chars, Piece.text] using mid
      exact ih more lexes balanced
    | word kind x =>
      have here : MidLine source s (List.replicate n ' ' ++ (x.toList ++
          (Piece.chars ps ++ '\n' :: rest))) parens depth := by
        simpa [Piece.chars, Piece.text] using mid
      refine hands_word here lexes.1 fun s' mid' => ?_
      have next : MidLine source s' (List.replicate 0 ' ' ++ (Piece.chars ps ++ '\n' :: rest))
          (parensAfter parens kind) depth := mid'
      exact ih next lexes.2 balanced

/-- The layout between a line of depth `d` and one of depth `e`. -/
def layout (d e : Nat) : List (Kind × String) :=
  if d < e then [(.indent, "")] else List.replicate (d - e) (.dedent, "")

theorem forall₂_replicate {α β : Type} {R : α → β → Prop} {a : α} {b : β} (h : R a b) (n : Nat) :
    List.Forall₂ R (List.replicate n a) (List.replicate n b) := by
  induction n with
  | zero => exact .nil
  | succ n ih => exact .cons h ih

theorem indent_queues (start : AtLine source s (List.replicate (4 * e) ' ' ++ cs) depth)
    (deeper : e ≤ depth + 1) :
    ∃ q, s.indent (4 * e) = .ok { s with
        reader := s.reader.skip (4 * e), lineStart := false, indents := margins e, queue := q } ∧
      List.Forall₂ (Shows source) q (layout depth e) := by
  have col : (s.reader.skip (4 * e)).pos.col = 4 * e := by
    rw [skip_blanks_col start.ahead.rest, start.col, Nat.zero_add]
  have indent : Shows source (s.reader.layout .indent (4 * e)) (.indent, "") := ⟨rfl, nofun⟩
  have dedent : Shows source (s.reader.layout .dedent (4 * e)) (.dedent, "") := ⟨rfl, nofun⟩
  by_cases opens : depth < e
  · obtain rfl : e = depth + 1 := by omega
    refine ⟨[s.reader.layout .indent (4 * (depth + 1))], ?_, ?_⟩
    · have less : 4 * depth < 4 * (depth + 1) := by omega
      simp only [Scanner.indent, col, start.indents, margins_head, less, if_true, start.queue,
        List.nil_append, margins]
    · rw [layout, if_pos opens]
      exact .cons indent .nil
  · refine ⟨List.replicate (depth - e) (s.reader.layout .dedent (4 * e)), ?_, ?_⟩
    · have less : ¬ 4 * depth < 4 * e := by omega
      have rest := margins_dropWhile (Nat.le_of_not_lt opens)
      have count : depth + 1 - (e + 1) = depth - e := by omega
      simp only [Scanner.indent, col, start.indents, less, if_false, rest, margins_head, if_true,
        start.queue, List.nil_append, margins_length, count]
    · rw [layout, if_neg opens]
      exact forall₂_replicate dedent _

theorem margin_blanks (starts : Starts c) :
    margin (List.replicate n ' ' ++ c :: cs) = .text n := by
  obtain ⟨line, blank, comment, -⟩ := starts
  have inner : isMargin c = false ∧ c ≠ '\r' := by
    simp only [isBlank, Bool.or_eq_false_iff, beq_eq_false_iff_ne] at blank
    refine ⟨?_, blank.1.1.2⟩
    simp [isMargin, blank.1.1.1.1, blank.1.1.1.2, blank.1.2]
  have run : run isMargin (List.replicate n ' ' ++ c :: cs) = n := by
    have blanks : ∀ x ∈ List.replicate n ' ', isMargin x = true := by
      intro x hx
      rw [List.eq_of_mem_replicate hx]
      rfl
    rw [Scanner.run, List.takeWhile_append_of_pos blanks,
      List.takeWhile_cons_of_neg (by simp [inner.1])]
    simp
  simp [margin, run, comment, line, inner.2]

theorem hands_line {l : Line} (start : AtLine source s (l.chars ++ rest) depth)
    (deeper : l.depth ≤ depth + 1) (first : l.pieces = .word kind x :: ps)
    (lexes : Lexes l.pieces ('\n' :: rest)) (balanced : opened 0 (words l.pieces) = 0)
    (after : ∀ s', AtLine source s' rest l.depth → Hands source s' ws) :
    Hands source s (layout depth l.depth ++ (words l.pieces ++ (.newline, "") :: ws)) := by
  rw [first] at lexes balanced ⊢
  have chars : l.chars ++ rest = List.replicate (4 * l.depth) ' ' ++
      (x.toList ++ (Piece.chars ps ++ '\n' :: rest)) := by
    simp [Line.chars, first, Piece.chars, Piece.text]
  rw [chars] at start
  obtain ⟨q, indent, shows⟩ := indent_queues start deeper
  obtain ⟨r, t, scan, ahead, shown⟩ := @scanLine_word source { s with
    reader := s.reader.skip (4 * l.depth), lineStart := false, indents := margins l.depth,
    queue := q } 0 kind x _ start.ahead.skip_blanks lexes.1
  have margin : margin s.reader.chars = .text (4 * l.depth) := by
    obtain ⟨-, c, cs, hx, starts, -⟩ := lexes.1
    rw [start.ahead.chars, hx]
    exact margin_blanks starts
  have fill : s.fill = .ok { s with
      reader := r, parens := parensAfter s.parens kind, lineStart := false,
      indents := margins l.depth, queue := q ++ [t] } := by
    rw [fill, if_pos (by simp [start.lineStart, start.parens]), margin]
    simp only [indent, bind, Except.bind, scan]
  have text := lexes.1.1
  have inside : ∀ v ∈ layout depth l.depth ++ [(kind, x)], v.1 ≠ .eof ∧ v.1 ≠ .newline := by
    intro v hv
    rcases List.mem_append.1 hv with hv | hv
    · unfold layout at hv
      split at hv
      · rw [List.mem_singleton.1 hv]
        simp
      · rw [List.eq_of_mem_replicate hv]
        simp
    · rw [List.mem_singleton.1 hv]
      constructor <;> rintro rfl <;> cases text
  have mid : MidLine source { s with
      reader := r, parens := parensAfter s.parens kind, lineStart := false,
      indents := margins l.depth, queue := [], lineEmpty := false }
      (List.replicate 0 ' ' ++ (Piece.chars ps ++ '\n' :: rest)) (parensAfter 0 kind) l.depth :=
    ⟨ahead, rfl, rfl, rfl, by simp [start.parens], rfl⟩
  have others := hands_pieces mid lexes.2 balanced after
  obtain ⟨t', q', split⟩ : ∃ t' q', q ++ [t] = t' :: q' := by
    cases q with
    | nil => exact ⟨t, [], rfl⟩
    | cons t' q' => exact ⟨t', q' ++ [t], rfl⟩
  refine Hands.of_fill (t := t') (q := q') ?_ start.queue fill split
  have all := Hands.queue (s := { s with
      reader := r, parens := parensAfter s.parens kind, lineStart := false,
      indents := margins l.depth, queue := q ++ [t] }) others rfl (by simp)
    (List.rel_append shows (.cons shown .nil)) inside
  simpa [words] using all

theorem hands_end (start : AtLine source s [] depth) :
    Hands source s (List.replicate depth (.dedent, "") ++ [(.eof, "")]) := by
  have chars : s.reader.chars = [] := start.ahead.chars
  have margin : margin s.reader.chars = .ended 0 := by
    rw [chars]
    rfl
  have line : scanLine { s with reader := s.reader.skip 0, lineStart := false } =
      .ok { s with lineStart := false }.finish := by
    have gap : gap (0 < s.parens) false [] = ⟨0, false⟩ := rfl
    simp only [scanLine, Reader.skip, chars, gap, Bool.false_eq_true, if_false]
  have fill : s.fill = .ok { s with lineStart := false }.finish := by
    rw [fill, if_pos (by simp [start.lineStart, start.parens]), margin]
    exact line
  have queue : ({ s with lineStart := false }.finish).queue =
      List.replicate depth (s.reader.layout .dedent 0) ++ [s.reader.layout .eof 0] := by
    simp [finish, start.lineEmpty, start.queue, start.indents]
  have dedent : Shows source (s.reader.layout .dedent 0) (.dedent, "") := ⟨rfl, by rintro ⟨⟩⟩
  have ends := Hands.ends queue (forall₂_replicate dedent depth)
    (fun v hv => by rw [List.eq_of_mem_replicate hv]; simp) ⟨rfl, by rintro ⟨⟩⟩
  obtain ⟨t, q, split⟩ : ∃ t q, ({ s with lineStart := false }.finish).queue = t :: q := by
    rw [queue]
    cases depth with
    | zero => exact ⟨_, [], rfl⟩
    | succ d => exact ⟨_, _, rfl⟩
  exact ends.of_fill start.queue fill split

end lines

/-- The words of lines with the layout between them, after a line of the given depth. -/
def wordsFrom (depth : Nat) : List Line → List (Kind × String)
  | [] => List.replicate depth (.dedent, "") ++ [(.eof, "")]
  | l :: rest =>
    layout depth l.depth ++ (words l.pieces ++ (.newline, "") :: wordsFrom l.depth rest)

/-- A line that can be read: it starts with a word, each word is one token, and its parentheses
match. -/
structure Readable (l : Line) : Prop where
  first : ∃ kind x ps, l.pieces = .word kind x :: ps
  lexes : ∀ rest, Lexes l.pieces ('\n' :: rest)
  balanced : opened 0 (words l.pieces) = 0

/-- No line stands more than one level deeper than the one before it. -/
def Stepwise (depth : Nat) : List Line → Prop
  | [] => True
  | l :: rest => l.depth ≤ depth + 1 ∧ Stepwise l.depth rest

theorem hands_lines (start : AtLine source s (lines.flatMap Line.chars) depth)
    (stepwise : Stepwise depth lines) (readable : ∀ l ∈ lines, Readable l) :
    Hands source s (wordsFrom depth lines) := by
  induction lines generalizing s depth with
  | nil => exact hands_end start
  | cons l rest ih =>
    have here := readable l List.mem_cons_self
    obtain ⟨kind, x, ps, first⟩ := here.first
    rw [List.flatMap_cons] at start
    exact hands_line start stepwise.1 first (here.lexes _) here.balanced fun s' start' =>
      ih start' stepwise.2 fun l' hl => readable l' (List.mem_cons_of_mem _ hl)

theorem lines_handed_out (stepwise : Stepwise 0 lines) (readable : ∀ l ∈ lines, Readable l) :
    Hands (Utf8.encode (String.ofList (lines.flatMap Line.chars)))
      (ofBytes (Utf8.encode (String.ofList (lines.flatMap Line.chars)))) (wordsFrom 0 lines) := by
  refine hands_lines ?_ stepwise readable
  have bytes : Utf8.encode (String.ofList (lines.flatMap Line.chars)) =
      bytesOf (lines.flatMap Line.chars) := by
    rw [Utf8.encode, String.toList_ofList]
    rfl
  rw [bytes]
  refine ⟨⟨?_, [], rfl, rfl⟩, rfl, rfl, rfl, rfl, rfl, rfl⟩
  exact Utf8.scalars_flatMap _

end Scanner
end WordScript
