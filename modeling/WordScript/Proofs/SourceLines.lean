import WordScript.Proofs.SourceTokens

/-! The lines of a program.

Every line that a program is written as can be read, whatever its expressions are. Between the lines
stands the layout of the blocks, so that the words of a program nest as its statements do. -/
namespace WordScript
open Piece (lparen rparen)

open Token (Kind Keyword)

namespace Scanner

def signs : List Char := ['+', '-', '*', '/', '%', '<', '>', '=', '!', '(', ')', ',', ':']

def marks : List Char := [' ', '\n', '\t', '\r', '\x0c', '\x0b', '#', '\\', '\'', '"', '.']

theorem not_isNameChar (h : c ∈ signs ++ marks) : isNameChar c = false := by
  have plain : ((signs ++ marks).all fun c =>
      c.toNat < 0x80 && !c.isAlpha && c != '_' && !isDigit c) = true := by decide
  have here := List.all_eq_true.1 plain c h
  simp only [Bool.and_eq_true, decide_eq_true_eq, Bool.not_eq_true', bne_iff_ne] at here
  obtain ⟨⟨⟨ascii, alpha⟩, underscore⟩, digit⟩ := here
  exact isNameChar_eq_false ascii alpha underscore digit

/-- A word is complete before these characters. -/
def enders : List Char := [' ', '(', ')', ',', ':', '\n']

/-- The text goes on with a character before which a word is complete. -/
def Ended (cs : List Char) : Prop := ∃ c rest, cs = c :: rest ∧ c ∈ enders

theorem Ended.append (h : Ended cs) (rest : List Char) : Ended (cs ++ rest) := by
  obtain ⟨c, cs, rfl, hc⟩ := h
  exact ⟨c, cs ++ rest, rfl, hc⟩

theorem not_isNameChar_of_mem_enders (h : c ∈ enders) : isNameChar c = false := by
  have sub : enders ⊆ signs ++ marks := by decide
  exact not_isNameChar (sub h)

theorem starts_of_isNameChar (h : isNameChar c = true) :
    Starts c ∧ c ≠ '\'' ∧ c ≠ '"' ∧ c ≠ '>' := by
  have other : c ∉ signs ++ marks := fun hc => by
    rw [not_isNameChar hc] at h
    cases h
  simp only [signs, marks, List.cons_append, List.nil_append, List.mem_cons, not_or] at other
  simp [Starts, isBlank, other]

theorem isNameStart_of_isDigit (h : isDigit c = true) : isNameStart c = false := by
  have range : 48 ≤ c.toNat ∧ c.toNat ≤ 57 := by
    simpa [isDigit, Char.le_def, UInt32.le_iff_toNat_le] using h
  have alpha : c.isAlpha = false := by
    simp only [Char.isAlpha, Char.isUpper, Char.isLower, UInt32.le_iff_toNat_le,
      Bool.or_eq_false_iff, Bool.and_eq_false_iff, decide_eq_false_iff_not]
    have same : c.val.toNat = c.toNat := rfl
    have bounds : 'A'.val.toNat = 65 ∧ 'a'.val.toNat = 97 := ⟨rfl, rfl⟩
    omega
  have underscore : c ≠ '_' := by
    rintro rfl
    exact absurd range.2 (by decide)
  rw [isNameStart, Letter.isLetter, alpha, decide_eq_false (by omega),
    beq_eq_false_iff_ne.2 underscore]
  rfl

theorem run_append (all : ∀ x ∈ xs, p x = true) (stop : ∀ c ∈ rest.head?, p c = false) :
    run p (xs ++ rest) = xs.length := by
  rw [run, List.takeWhile_append_of_pos all]
  cases rest with
  | nil => simp
  | cons c rest => simp [stop c rfl]

theorem ofWord_not_layout (x : String) : (Kind.ofWord x).isLayout = false := by
  unfold Kind.ofWord
  split
  · rfl
  · split_ifs <;> rfl

section lexemes

variable {x : String} {c d : Char} {kind : Kind} {rest : List Char}

theorem word_lexes (hx : isIdentifier x = true) (ended : Ended rest) :
    LexesAs (Kind.ofWord x) x rest := by
  obtain ⟨e, rest, rfl, he⟩ := ended
  have chars := isNameChar_of_mem hx
  cases hl : x.toList with
  | nil =>
    rw [isIdentifier, hl] at hx
    cases hx
  | cons c cs =>
    rw [isIdentifier, hl, Bool.and_eq_true] at hx
    obtain ⟨starts, quote, quote', -⟩ := starts_of_isNameChar (chars c (by simp [hl]))
    have digit : isDigit c = false := by
      by_contra h
      rw [isNameStart_of_isDigit (by simpa using h)] at hx
      cases hx.1
    have length : run isNameChar (cs ++ e :: rest) = cs.length :=
      run_append (fun a ha => chars a (by simp [hl, ha])) (by
        simpa using not_isNameChar_of_mem_enders he)
    have text : (c :: (cs ++ e :: rest)).take (cs.length + 1) = x.toList := by simp [hl]
    refine ⟨ofWord_not_layout x, c, cs, hl, starts, ?_⟩
    simp [lexeme, quote, quote', digit, hx.1, if_true,
      length, Nat.add_comm 1, text]

theorem numberLexeme_digits (digits : ∀ c ∈ ds, isDigit c = true) (ended : Ended rest) :
    numberLexeme (ds ++ rest) = .token .number ds.length := by
  obtain ⟨e, rest, rfl, he⟩ := ended
  have plain := not_isNameChar_of_mem_enders he
  rw [isNameChar, Bool.or_eq_false_iff] at plain
  have length : run isDigit (ds ++ e :: rest) = ds.length :=
    run_append digits (by simpa using plain.2)
  simp only [enders, List.mem_cons, List.not_mem_nil, or_false] at he
  rcases he with rfl | rfl | rfl | rfl | rfl | rfl <;>
    simp [numberLexeme, length, plain.1]

theorem number_lexes {v : Int} (hv : 0 ≤ v) (ended : Ended rest) :
    LexesAs .number (toString v) rest := by
  obtain ⟨n, rfl⟩ := Int.eq_ofNat_of_zero_le hv
  have digits : ∀ c ∈ (toString n).toList, isDigit c = true := fun c hc =>
    Numeral.isDigit_of_mem hc
  cases hl : (toString n).toList with
  | nil =>
    have read := Numeral.nat?_toString n
    rw [hl] at read
    cases read
  | cons c cs =>
    rw [hl] at digits
    have digit : isDigit c = true := digits c List.mem_cons_self
    have char : isNameChar c = true := by rw [isNameChar, digit, Bool.or_true]
    obtain ⟨starts, quote, quote', -⟩ := starts_of_isNameChar char
    refine ⟨rfl, c, cs, hl, starts, ?_⟩
    rw [lexeme, if_neg (by simp [quote, quote']), if_pos digit, ← List.cons_append,
      numberLexeme_digits digits ended, List.length_cons]

theorem lexeme_sign (h : c ∈ signs) : lexeme c rest = signLexeme c rest := by
  have plain := not_isNameChar (List.mem_append_left marks h)
  simp only [isNameChar, Bool.or_eq_false_iff] at plain
  have quotes : ¬ (c = '\'' ∨ c = '"') := by
    rintro (rfl | rfl) <;> revert h <;> decide
  rw [lexeme, if_neg quotes, if_neg (by simp [plain.2]), if_neg (by simp [plain.1])]

theorem starts_of_mem_signs (h : c ∈ signs) : Starts c := by
  have all : (signs.all fun c => c != '\n' && !isBlank c && c != '#' && c != '\\') = true := by
    decide
  simpa [Starts, and_assoc] using List.all_eq_true.1 all c h

theorem single_lexes (hc : c ∈ signs) (sign : Kind.ofChar? c = some kind)
    (text : kind.isLayout = false) (alone : ∀ d ∈ rest.head?, Kind.ofPair? c d = none) :
    LexesAs kind (String.ofList [c]) rest := by
  refine ⟨text, c, [], String.toList_ofList, starts_of_mem_signs hc, ?_⟩
  have pair : rest.head?.bind (Kind.ofPair? c) = none := by
    cases rest with
    | nil => rfl
    | cons d rest => exact alone d rfl
  rw [lexeme_sign hc]
  simp [signLexeme, pair, sign]

theorem pair_lexes (hc : c ∈ signs) (sign : Kind.ofPair? c d = some kind)
    (text : kind.isLayout = false) : LexesAs kind (String.ofList [c, d]) rest := by
  refine ⟨text, c, [d], String.toList_ofList, starts_of_mem_signs hc, ?_⟩
  rw [lexeme_sign hc]
  simp [signLexeme, sign]

end lexemes

@[simp] theorem words_append (ps qs : List Piece) : words (ps ++ qs) = words ps ++ words qs := by
  induction ps with
  | nil => rfl
  | cons p ps ih => cases p <;> simp [words, ih]

theorem opened_append (n : Nat) (vs ws : List (Kind × String)) :
    opened n (vs ++ ws) = opened (opened n vs) ws := List.foldl_append

end Scanner

open Scanner (LexesAs Lexes words words_append opened opened_append parensAfter Readable Stepwise
  wordsFrom)

theorem Piece.chars_append (ps qs : List Piece) : chars (ps ++ qs) = chars ps ++ chars qs :=
  List.flatMap_append

theorem Piece.chars_cons (p : Piece) (ps : List Piece) :
    chars (p :: ps) = p.text.toList ++ chars ps :=
  List.flatMap_cons

/-- A part of a line that starts with a word and is read for itself before any character that
completes a word. -/
structure Phrase (ps : List Piece) : Prop where
  first : ∃ kind x qs, ps = .word kind x :: qs ∧ x.toList.head? ≠ some '>'
  lexes : ∀ {qs rest}, Scanner.Ended (Piece.chars qs ++ rest) → Lexes qs rest →
    Lexes (ps ++ qs) rest
  balanced : ∀ n, opened n (words ps) = n

namespace Phrase

variable {ps qs : List Piece} {kind : Kind} {x : String}

theorem word (lexes : ∀ rest, Scanner.Ended rest → LexesAs kind x rest)
    (start : x.toList.head? ≠ some '>') (plain : ∀ n, parensAfter n kind = n) : Phrase [.word kind x] where
  first := ⟨kind, x, [], rfl, start⟩
  lexes ended others := ⟨lexes _ ended, others⟩
  balanced n := plain n

theorem spaced (hp : Phrase ps) (hq : Phrase qs) : Phrase (ps ++ .blank :: qs) where
  first := by
    obtain ⟨kind, x, ps, rfl, start⟩ := hp.first
    exact ⟨kind, x, ps ++ .blank :: qs, rfl, start⟩
  lexes {rs rest} ended others := by
    rw [List.append_assoc]
    refine hp.lexes ⟨' ', Piece.chars (qs ++ rs) ++ rest, ?_, by decide⟩ (hq.lexes ended others)
    simp [Piece.chars_cons, Piece.text]
  balanced n := by
    rw [words_append, opened_append, hp.balanced]
    exact hq.balanced n

theorem join (hp : Phrase ps) (hq : Phrase qs) (h : Scanner.Ended (Piece.chars qs)) :
    Phrase (ps ++ qs) where
  first := by
    obtain ⟨kind, x, ps, rfl, start⟩ := hp.first
    exact ⟨kind, x, ps ++ qs, rfl, start⟩
  lexes {rs rest} ended others := by
    rw [List.append_assoc]
    refine hp.lexes ?_ (hq.lexes ended others)
    rw [Piece.chars_append, List.append_assoc]
    exact h.append _
  balanced n := by rw [words_append, opened_append, hp.balanced, hq.balanced]

theorem parens (h : ps = [] ∨ Phrase ps) : Phrase (lparen :: ps ++ [rparen]) where
  first := ⟨.lparen, "(", _, rfl, by decide⟩
  lexes {qs rest} ended others := by
    have close : Lexes (rparen :: qs) rest := ⟨Scanner.single_lexes (by decide) rfl rfl fun _ _ => rfl, others⟩
    have ended' : Scanner.Ended (Piece.chars (rparen :: qs) ++ rest) :=
      ⟨')', Piece.chars qs ++ rest, rfl, by decide⟩
    have inside : Lexes (ps ++ rparen :: qs) rest := by
      rcases h with rfl | h
      · exact close
      · exact h.lexes ended' close
    rw [List.append_assoc]
    exact ⟨Scanner.single_lexes (by decide) rfl rfl fun _ _ => rfl, inside⟩
  balanced n := by
    have inside : ∀ m, opened m (words ps) = m := by
      rcases h with rfl | h
      · exact fun _ => rfl
      · exact h.balanced
    have split : words (lparen :: ps ++ [rparen]) =
        [(.lparen, "(")] ++ words ps ++ [(.rparen, ")")] := by
      simp [words, lparen, rparen]
    rw [split, opened_append, opened_append, inside]
    rfl

theorem minus (h : Phrase ps) : Phrase (Piece.minus :: ps) where
  first := ⟨_, "-", ps, rfl, by decide⟩
  lexes {qs rest} ended others := by
    have inside := h.lexes ended others
    refine ⟨Scanner.single_lexes (by decide) rfl rfl fun d hd => ?_, inside⟩
    obtain ⟨kind, x, ps, rfl, start⟩ := h.first
    obtain ⟨-, c, cs, hx, -, -⟩ := inside.1
    change d ∈ (Piece.chars (.word kind x :: (ps ++ qs)) ++ rest).head? at hd
    rw [Piece.chars_cons, Piece.text, hx] at hd
    cases hd
    rw [hx] at start
    have other : d ≠ '>' := fun h => start (h ▸ rfl)
    simp [Kind.ofPair?, other]
  balanced n := h.balanced n

theorem linked (hp : Phrase ps) (hq : Phrase qs) (lexes : ∀ rest, LexesAs kind x (' ' :: rest))
    (plain : ∀ n, parensAfter n kind = n) :
    Phrase (ps ++ [.blank, .word kind x, .blank] ++ qs) where
  first := by
    obtain ⟨first, y, ps, rfl, start⟩ := hp.first
    exact ⟨first, y, ps ++ [.blank, .word kind x, .blank] ++ qs, rfl, start⟩
  lexes {rs rest} ended others := by
    rw [List.append_assoc, List.append_assoc]
    refine hp.lexes ⟨' ', _, rfl, by decide⟩ ⟨?_, hq.lexes ended others⟩
    exact lexes _
  balanced n := by
    have word : ∀ m, opened m (words [.blank, .word kind x, .blank]) = m := plain
    rw [words_append, words_append, opened_append, opened_append, hp.balanced, word, hq.balanced]

theorem identifier (hx : isIdentifier x = true) : Phrase [.word (Kind.ofWord x) x] := by
  refine word (fun rest => Scanner.word_lexes hx) ?_ ?_
  · intro h
    have char := isNameChar_of_mem hx '>' (List.mem_of_mem_head? h)
    cases char
  · intro n
    unfold Kind.ofWord
    split
    · rfl
    · split_ifs <;> rfl

theorem key (k : Keyword) : Phrase [Piece.key k] := by
  have word := @identifier k.text (by cases k <;> rfl)
  have kind : Kind.ofWord k.text = .keyword k := by cases k <;> rfl
  rwa [kind] at word

theorem name (hx : IsPlainName x) : Phrase [.word .name x] := hx.2 ▸ identifier hx.1

theorem colon : Phrase [Piece.colon] :=
  word (fun _ _ => Scanner.single_lexes (by decide) rfl rfl fun _ _ => rfl) (by decide) fun _ => rfl

theorem comma : Phrase [Piece.comma] :=
  word (fun _ _ => Scanner.single_lexes (by decide) rfl rfl fun _ _ => rfl) (by decide) fun _ => rfl

theorem literal {l : Literal} (h : l.Plain) : Phrase [l.piece] := by
  have number : ∀ v : Int, 0 ≤ v → Phrase [.word .number (toString v)] := by
    intro v hv
    refine word (fun rest => Scanner.number_lexes hv) ?_ fun _ => rfl
    intro start
    rcases Numeral.sign_or_isDigit_of_mem (List.mem_of_mem_head? start) with h | h <;>
      revert h <;> decide
  obtain ⟨span, type, kind, value⟩ := l
  cases kind with
  | int => exact number _ h.2.1
  | isTrue => exact @identifier "True" rfl
  | isFalse => exact @identifier "False" rfl
  | unit => exact @identifier "None" rfl
  | other n => exact h.2.elim

theorem op_lexes {op : BinaryOp} (h : op.Known) (rest : List Char) :
    LexesAs op.kind (op.text?.getD "") (' ' :: rest) := by
  have blank : ∀ c, ∀ d ∈ (' ' :: rest).head?, Kind.ofPair? c d = none := by
    simp [Kind.ofPair?]
  cases op with
  | is => exact Scanner.word_lexes (x := "is") rfl ⟨' ', rest, rfl, by decide⟩
  | floorDiv | ge | le | eq | ne => exact Scanner.pair_lexes (by decide) rfl rfl
  | add | sub | mul | mod | gt | lt => exact Scanner.single_lexes (by decide) rfl rfl (blank _)
  | other n => exact h.elim

theorem op_plain (op : BinaryOp) (n : Nat) : parensAfter n op.kind = n := by cases op <;> rfl

theorem enclosed (h : Phrase ps) (place level : Nat) : Phrase (enclosed place level ps) := by
  unfold WordScript.enclosed
  split
  · exact parens (.inr h)
  · exact h

theorem listed (hp : Phrase ps) (hq : Phrase qs) : Phrase (ps ++ [Piece.comma, .blank] ++ qs) := by
  have first := (hp.join comma ⟨',', [], rfl, by decide⟩).spaced hq
  simpa using first

theorem call (hx : IsPlainName x) (h : ps = [] ∨ Phrase ps) :
    Phrase (.word .name x :: lparen :: ps ++ [rparen]) :=
  (name hx).join (parens h) ⟨'(', _, rfl, by decide⟩

end Phrase

mutual

theorem Expr.phrase : (e : Expr) → e.All Expr.Plain → (place : Nat) → Phrase (e.pieces place)
  | .literal _, h, _ => .literal h
  | .name _ _ _ _, h, _ => .name h.2.2
  | .call _ _ _ args, h, _ =>
    .call h.1.2.1 ((Expr.phrases args h.2).imp_left fun none => by rw [none]; rfl)
  | .binary _ _ op lhs rhs, h, place =>
    .enclosed (.linked (lhs.phrase h.2.1 _) (rhs.phrase h.2.2 _) (Phrase.op_lexes h.1.2)
      (Phrase.op_plain op)) place _
  | .unary _ _ .neg e, h, place => .enclosed (.minus (e.phrase h.2 _)) place _
  | .unary _ _ .not e, h, place => .enclosed (.spaced (.key _) (e.phrase h.2 _)) place _
  | .unary _ _ (.other _) _, h, _ => h.1.2.elim

theorem Expr.phrases : (es : List Expr) → Expr.AllIn Expr.Plain es →
    es = [] ∨ Phrase (Expr.argPieces es)
  | [], _ => .inl rfl
  | [e], h => .inr (e.phrase h.1 _)
  | e :: e' :: rest, h =>
    .inr (.listed (e.phrase h.1 _) ((Expr.phrases (e' :: rest) h.2).resolve_left (by simp)))

end

namespace Scanner

theorem Stepwise.mono (h : Stepwise d ls) (le : d ≤ e) : Stepwise e ls := by
  cases ls with
  | nil => trivial
  | cons l rest => exact ⟨Nat.le_trans h.1 (Nat.succ_le_succ le), h.2⟩

/-- The next line stands at most at this depth. -/
def Low (depth : Nat) (ls : List Line) : Prop := ∀ l ∈ ls.head?, l.depth ≤ depth

theorem wordsFrom_low (low : Low depth ls) :
    wordsFrom (depth + 1) ls = (.dedent, "") :: wordsFrom depth ls := by
  cases ls with
  | nil => rfl
  | cons l rest =>
    have le : l.depth ≤ depth := low l rfl
    have deeper : ¬ depth + 1 < l.depth ∧ ¬ depth < l.depth := by omega
    have count : depth + 1 - l.depth = depth - l.depth + 1 := by omega
    simp [wordsFrom, layout, deeper.1, deeper.2, count, List.replicate_succ,
      ]

end Scanner

open Scanner (Low wordsFrom_low layout)

/-- The words of a block, after the header that it belongs to. -/
def block (ws : List (Kind × String)) : List (Kind × String) :=
  (.newline, "") :: (.indent, "") :: ws ++ [(.dedent, "")]

/-- Lines of a depth, and of greater ones between them, with their words and the layout inside. -/
structure Nested (depth : Nat) (lines : List Line) (ws : List (Kind × String)) : Prop where
  head : ∀ l ∈ lines.head?, l.depth = depth
  readable : ∀ l ∈ lines, Readable l
  stepwise : ∀ {ls}, Stepwise depth ls → Stepwise depth (lines ++ ls)
  gives : ∀ {ls}, Low depth ls → wordsFrom depth (lines ++ ls) = ws ++ wordsFrom depth ls

namespace Nested

variable {depth : Nat} {ls ls' : List Line} {ps : List Piece} {ws ws' : List (Kind × String)}

theorem nil : Nested depth [] [] where
  head := nofun
  readable := nofun
  stepwise h := h
  gives _ := rfl

theorem readable_of_phrase (h : Phrase ps) : Readable ⟨depth, ps⟩ where
  first := by
    obtain ⟨kind, x, qs, hp, -⟩ := h.first
    exact ⟨kind, x, qs, hp⟩
  lexes rest := by
    have all := @Phrase.lexes _ h [] ('\n' :: rest) ⟨'\n', rest, rfl, by decide⟩ trivial
    rwa [List.append_nil] at all
  balanced := h.balanced 0

theorem line (h : Phrase ps) : Nested depth [⟨depth, ps⟩] (words ps ++ [(.newline, "")]) where
  head := by simp
  readable := by simpa using readable_of_phrase h
  stepwise others := ⟨Nat.le_succ _, others⟩
  gives _ := by simp [wordsFrom, layout]

theorem append (h : Nested depth ls ws) (h' : Nested depth ls' ws') :
    Nested depth (ls ++ ls') (ws ++ ws') where
  head := by
    cases ls with
    | nil => exact h'.head
    | cons l ls => exact h.head
  readable := List.forall_mem_append.2 ⟨h.readable, h'.readable⟩
  stepwise others := by
    rw [List.append_assoc]
    exact h.stepwise (h'.stepwise others)
  gives {rest} low := by
    have low' : Low depth (ls' ++ rest) := by
      cases ls' with
      | nil => exact low
      | cons l ls' => exact fun l' hl => Nat.le_of_eq (h'.head l' hl)
    rw [List.append_assoc, h.gives low', h'.gives low, List.append_assoc]

theorem headed (h : Phrase ps) (inner : Nested (depth + 1) ls ws) (some : ls ≠ []) :
    Nested depth (⟨depth, ps⟩ :: ls) (words ps ++ block ws) where
  head := by simp
  readable := List.forall_mem_cons.2 ⟨readable_of_phrase h, inner.readable⟩
  stepwise {rest} others := by
    have within : Stepwise depth (ls ++ rest) := by
      have low : Stepwise (depth + 1) (ls ++ rest) := inner.stepwise (others.mono (Nat.le_succ _))
      cases ls with
      | nil => exact absurd rfl some
      | cons l ls => exact ⟨Nat.le_of_eq (inner.head l rfl), low.2⟩
    exact ⟨Nat.le_succ _, within⟩
  gives {rest} low := by
    have opens : wordsFrom depth (ls ++ rest) =
        (.indent, "") :: wordsFrom (depth + 1) (ls ++ rest) := by
      cases ls with
      | nil => exact absurd rfl some
      | cons l ls =>
        have same : l.depth = depth + 1 := inner.head l rfl
        simp [wordsFrom, layout, same]
    have below : Low (depth + 1) rest := fun l hl => Nat.le_succ_of_le (low l hl)
    have header : wordsFrom depth (⟨depth, ps⟩ :: (ls ++ rest)) =
        words ps ++ (.newline, "") :: wordsFrom depth (ls ++ rest) := by
      simp [wordsFrom, layout]
    rw [List.cons_append, header, opens, inner.gives below, wordsFrom_low low]
    simp [block]

end Nested

mutual

/-- The words of a statement, with the layout of its blocks. -/
def Stmt.words : Stmt → List (Kind × String)
  | .pass _ => Scanner.words [Piece.key .pass] ++ [(.newline, "")]
  | .assign _ x _ e =>
    Scanner.words ([.word .name x, .blank, Piece.assign, .blank] ++ e.pieces 0) ++ [(.newline, "")]
  | .expr _ e => Scanner.words (e.pieces 0) ++ [(.newline, "")]
  | .ret _ e => Scanner.words ([Piece.key .ret, .blank] ++ e.pieces 0) ++ [(.newline, "")]
  | .while _ c body =>
    Scanner.words ([Piece.key .whileWord, .blank] ++ c.pieces 0 ++ [Piece.colon])
      ++ block (Stmt.wordsOf body)
  | .cond _ c body elifs otherwise =>
    Scanner.words ([Piece.key .ifWord, .blank] ++ c.pieces 0 ++ [Piece.colon])
      ++ block (Stmt.wordsOf body) ++ Stmt.elifWords elifs
      ++ (if otherwise.isEmpty then []
        else Scanner.words [Piece.key .elseWord, Piece.colon] ++ block (Stmt.wordsOf otherwise))
  | .unknown _ => []

def Stmt.wordsOf : List Stmt → List (Kind × String)
  | [] => []
  | s :: rest => s.words ++ Stmt.wordsOf rest

def Stmt.elifWords : List Elif → List (Kind × String)
  | [] => []
  | .mk _ c body :: rest =>
    Scanner.words ([Piece.key .elifWord, .blank] ++ c.pieces 0 ++ [Piece.colon])
      ++ block (Stmt.wordsOf body) ++ Stmt.elifWords rest

end

theorem Phrase.header (k : Keyword) {c : Expr} (h : c.All Expr.Plain) :
    Phrase ([Piece.key k, .blank] ++ c.pieces 0 ++ [Piece.colon]) :=
  ((Phrase.key k).spaced (c.phrase h 0)).join .colon ⟨':', [], rfl, by decide⟩

theorem Phrase.elseHeader : Phrase [Piece.key .elseWord, Piece.colon] :=
  (Phrase.key .elseWord).join .colon ⟨':', [], rfl, by decide⟩

theorem Phrase.assigned (hp : Phrase ps) (hq : Phrase qs) :
    Phrase (ps ++ [.blank, Piece.assign, .blank] ++ qs) :=
  hp.linked hq (fun _ => Scanner.single_lexes (by decide) rfl rfl (by simp [Kind.ofPair?]))
    fun _ => rfl

theorem Stmt.linesOf_ne_nil (h : Stmt.AllIn Expr.Plain Stmt.Plain ss) (written : ss ≠ []) :
    Stmt.linesOf depth ss ≠ [] := by
  cases ss with
  | nil => exact absurd rfl written
  | cons s rest =>
    have lines : s.lines depth ≠ [] := by
      cases s with
      | unknown => exact h.1.elim
      | _ => simp [Stmt.lines]
    simp [Stmt.linesOf, lines]

mutual

theorem Stmt.nested (depth : Nat) : (s : Stmt) → s.All Expr.Plain Stmt.Plain →
    Nested depth (s.lines depth) s.words
  | .pass _, _ => .line (.key _)
  | .assign _ _ _ e, h => .line (.assigned (.name h.1.2) (e.phrase h.2 _))
  | .expr _ e, h => .line (e.phrase h.2 _)
  | .ret _ e, h => .line (.spaced (.key _) (e.phrase h.2 _))
  | .while _ _ body, h =>
    .headed (.header _ h.2.1) (Stmt.nestedOf (depth + 1) body h.2.2)
      (Stmt.linesOf_ne_nil h.2.2 h.1)
  | .cond _ _ body elifs otherwise, h => by
    have first := Stmt.nestedOf (depth + 1) body h.2.2.1
    have clauses := Stmt.nestedElifs depth elifs h.2.2.2.1 h.1.2
    have last := Stmt.nestedOf (depth + 1) otherwise h.2.2.2.2
    refine ((Nested.headed (.header _ h.2.1) first (Stmt.linesOf_ne_nil h.2.2.1 h.1.1)).append
      clauses).append ?_
    by_cases none : otherwise = []
    · rw [none]
      exact .nil
    · rw [if_neg (by simpa using none), if_neg (by simpa using none)]
      exact .headed .elseHeader last (Stmt.linesOf_ne_nil h.2.2.2.2 none)

theorem Stmt.nestedOf (depth : Nat) : (ss : List Stmt) → Stmt.AllIn Expr.Plain Stmt.Plain ss →
    Nested depth (Stmt.linesOf depth ss) (Stmt.wordsOf ss)
  | [], _ => .nil
  | s :: rest, h => .append (s.nested depth h.1) (Stmt.nestedOf depth rest h.2)

theorem Stmt.nestedElifs (depth : Nat) : (es : List Elif) →
    Stmt.AllInElifs Expr.Plain Stmt.Plain es → (∀ c ∈ es, c.body ≠ []) → Nested depth (Stmt.elifLines depth es) (Stmt.elifWords es)
  | [], _, _ => .nil
  | .mk _ _ body :: rest, h, written =>
    .append (.headed (.header _ h.1) (Stmt.nestedOf (depth + 1) body h.2.1)
      (Stmt.linesOf_ne_nil h.2.1 (written _ List.mem_cons_self)))
      (Stmt.nestedElifs depth rest h.2.2 fun c hc => written c (List.mem_cons_of_mem _ hc))

end

def VarDecl.words (v : VarDecl) : List (Kind × String) :=
  Scanner.words (v.line 0).pieces ++ [(.newline, "")]

def FuncDef.header (f : FuncDef) : List Piece :=
  [Piece.key .define, .blank, .word .name f.name, Piece.lparen] ++ Param.listPieces f.params
    ++ [Piece.rparen, .blank, Piece.arrow, .blank] ++ typePieces f.returns ++ [Piece.colon]

def FuncDef.words (f : FuncDef) : List (Kind × String) :=
  Scanner.words f.header ++ block (f.locals.flatMap VarDecl.words ++ Stmt.wordsOf f.body)

def Program.words (p : Program) : List (Kind × String) :=
  p.vars.flatMap VarDecl.words ++ p.funcs.flatMap FuncDef.words ++ Stmt.wordsOf p.stmts

theorem Phrase.type (h : t.isSome) : Phrase (typePieces t) := by
  obtain ⟨t, rfl⟩ := Option.isSome_iff_exists.1 h
  cases t with
  | int => exact .name (x := "int") ⟨rfl, rfl⟩
  | bool => exact .name (x := "bool") ⟨rfl, rfl⟩
  | unit => exact .identifier (x := "None") rfl

theorem Phrase.typed (hx : IsPlainName x) (ht : t.isSome) :
    Phrase ([.word .name x, Piece.colon, .blank] ++ typePieces t) :=
  ((Phrase.name hx).join .colon ⟨':', [], rfl, by decide⟩).spaced (.type ht)

theorem VarDecl.nested {v : VarDecl} (h : v.Plain) (depth : Nat) :
    Nested depth [v.line depth] v.words := by
  have line := (Phrase.typed h.name h.type).assigned (.literal h.init)
  rw [List.append_assoc] at line
  exact .line line

theorem Phrase.params {params : List Param} (h : ∀ a ∈ params, IsPlainName a.name ∧ a.type.isSome) :
    params = [] ∨ Phrase (Param.listPieces params) := by
  induction params with
  | nil => exact .inl rfl
  | cons a rest ih =>
    have first : Phrase a.pieces := .typed (h a List.mem_cons_self).1 (h a List.mem_cons_self).2
    have others := ih fun b hb => h b (List.mem_cons_of_mem _ hb)
    cases rest with
    | nil => exact .inr first
    | cons b rest => exact .inr (first.listed (others.resolve_left (by simp)))

theorem FuncDef.phrase {f : FuncDef} (h : f.Plain) : Phrase f.header := by
  have params : Param.listPieces f.params = [] ∨ Phrase (Param.listPieces f.params) :=
    (Phrase.params h.params).imp_left fun none => by rw [none]; rfl
  have front := (Phrase.key .define).spaced (.call h.name params)
  have arrow : ∀ rest, LexesAs .arrow "->" (' ' :: rest) :=
    fun rest => Scanner.pair_lexes (by decide) rfl rfl
  have line := (front.linked (.type h.returns) arrow fun _ => rfl).join .colon
    ⟨':', [], rfl, by decide⟩
  simpa [FuncDef.header, Piece.arrow] using line

theorem Nested.flatMap {α : Type} {xs : List α} {lines : α → List Line}
    {ws : α → List (Kind × String)} (h : ∀ x ∈ xs, Nested depth (lines x) (ws x)) :
    Nested depth (xs.flatMap lines) (xs.flatMap ws) := by
  induction xs with
  | nil => exact .nil
  | cons x xs ih =>
    exact .append (h x List.mem_cons_self) (ih fun y hy => h y (List.mem_cons_of_mem _ hy))

theorem VarDecl.nestedAll {vs : List VarDecl} (h : ∀ v ∈ vs, v.Plain) (depth : Nat) :
    Nested depth (vs.map (VarDecl.line depth)) (vs.flatMap VarDecl.words) := by
  rw [← List.flatMap_singleton' (vs.map _), List.flatMap_map]
  exact .flatMap fun v hv => VarDecl.nested (h v hv) depth

theorem FuncDef.nested {f : FuncDef} (h : f.Plain) : Nested 0 f.lines f.words := by
  have locals := VarDecl.nestedAll h.locals 1
  have written : f.locals.map (VarDecl.line 1) ++ Stmt.linesOf 1 f.body ≠ [] := by
    intro none
    rw [List.append_eq_nil_iff, List.map_eq_nil_iff] at none
    exact Stmt.linesOf_ne_nil h.body (h.some none.1) none.2
  exact .headed (FuncDef.phrase h) (locals.append (Stmt.nestedOf 1 f.body h.body)) written

theorem Program.nested {p : Program} (h : p.Plain) : Nested 0 p.lines p.words := by
  have vars := VarDecl.nestedAll h.vars 0
  have funcs : Nested 0 (p.funcs.flatMap FuncDef.lines) (p.funcs.flatMap FuncDef.words) :=
    .flatMap fun f hf => FuncDef.nested (h.funcs f hf)
  exact (vars.append funcs).append (Stmt.nestedOf 0 p.stmts h.stmts)

theorem Program.handed_out {p : Program} (h : p.Plain) :
    Scanner.Hands (Utf8.encode p.sourceText) (Scanner.ofBytes (Utf8.encode p.sourceText))
      (p.words ++ [(.eof, "")]) := by
  have nested := Program.nested h
  have stepwise : Stepwise 0 (p.lines ++ []) := nested.stepwise trivial
  have words : wordsFrom 0 (p.lines ++ []) = p.words ++ [(.eof, "")] := nested.gives nofun
  rw [List.append_nil] at stepwise words
  rw [← words]
  exact Scanner.lines_handed_out stepwise nested.readable

end WordScript
