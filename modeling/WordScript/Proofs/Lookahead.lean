import WordScript.Proofs.Filler
import WordScript.Proofs.SourceLines

/-! How far ahead the scanner looks.

A measure of a text looks at most one character beyond what it measures. Neither a line break nor a
blank goes on with a token, so that what is measured in front of the one is measured in front of the
other, and nothing behind a line break counts unless it is read. -/
namespace WordScript

namespace Utf8

variable {x a : UInt8}

theorem not_tail (ascii : x < 0x80) : isTail x = false := by
  simp only [isTail, Bool.and_eq_false_iff, decide_eq_false_iff_not]
  exact .inl (UInt8.not_le.2 ascii)

theorem not_second (ascii : x < 0x80) (a : UInt8) : isSecond a x = false := by
  have low : x.toNat < 128 := ascii
  unfold isSecond
  repeat' split
  all_goals first
    | exact not_tail ascii
    | simp only [Bool.and_eq_false_iff, decide_eq_false_iff_not, UInt8.not_le]
      exact .inl (UInt8.lt_iff_toNat_lt.2 (by simp; omega))

/-- A byte below 0x80 belongs to no longer sequence. -/
theorem first_append (ascii : x < 0x80) (u v : Bytes) : first a (u ++ x :: v) = first a u := by
  have tail := not_tail ascii
  have second := not_second ascii a
  rcases u with _ | ⟨b, _ | ⟨c, _ | ⟨d, u⟩⟩⟩ <;> rcases v with _ | ⟨e, _ | ⟨f, v⟩⟩ <;>
    simp [first, tail, second]

theorem scalars_append (ascii : x < 0x80) (u v : Bytes) :
    scalars (u ++ x :: v) = scalars u ++ ⟨Char.ofNat x.toNat, 1⟩ :: scalars v := by
  induction h : u.length using Nat.strong_induction_on generalizing u with
  | _ n ih =>
    cases u with
    | nil =>
      have here : first x v = ⟨Char.ofNat x.toNat, 1⟩ := if_pos ascii
      rw [List.nil_append, scalars_cons, here]
      rfl
    | cons a u =>
      have fits := first_width_le a u
      have shorter : (u.drop ((first a u).width - 1)).length < n := by
        simp only [List.length_cons] at h
        rw [List.length_drop]
        omega
      rw [List.cons_append, scalars_cons, first_append ascii,
        List.drop_append_of_le_length (by omega), ih _ shorter _ rfl, scalars_cons a u,
        List.cons_append]

theorem ofNat_ne_newline (h : n ≠ 10) :
    Char.ofNat n ≠ '\n' := by
  intro newline
  have value := congrArg Char.toNat newline
  by_cases valid : n.isValidChar
  · rw [Char.toNat_ofNat] at value
    simp [valid] at value
    exact h value
  · rw [Char.toNat_ofNat] at value
    simp [valid] at value

theorem lowBits_second (h : isSecond a b = true) :
    (a = 0xE0 → 32 ≤ lowBits 6 b) ∧ (a = 0xF0 → 16 ≤ lowBits 6 b) := by
  have low : lowBits 6 b = b.toNat % 64 := rfl
  constructor <;> rintro rfl <;>
    simp [isSecond, UInt8.le_iff_toNat_le] at h <;> omega

theorem first_ne_newline (other : a ≠ 10) (rest : Bytes) : (first a rest).char ≠ '\n' := by
  have far : a.toNat ≠ 10 := fun h => other (UInt8.toNat_inj.1 h)
  unfold first
  split
  · exact ofNat_ne_newline far
  split
  · rename_i lead
    have lead : 2 ≤ lowBits 5 a := by
      have low : lowBits 5 a = a.toNat % 32 := rfl
      simp [UInt8.le_iff_toNat_le] at lead
      omega
    split
    · split
      · exact ofNat_ne_newline (by omega)
      · decide
    · decide
  split
  · rename_i lead
    have lead : 1 ≤ lowBits 4 a ∨ a = 0xE0 := by
      have low : lowBits 4 a = a.toNat % 16 := rfl
      simp [UInt8.le_iff_toNat_le] at lead
      rw [← UInt8.toNat_inj]
      simp
      omega
    split
    · split
      · rename_i long
        have bound := (lowBits_second (Bool.and_eq_true_iff.1 long).1).1
        refine ofNat_ne_newline ?_
        rcases lead with lead | lead
        · omega
        · have := bound lead
          omega
      · decide
    · decide
  split
  · rename_i lead
    have lead : 1 ≤ lowBits 3 a ∨ a = 0xF0 := by
      have low : lowBits 3 a = a.toNat % 8 := rfl
      simp [UInt8.le_iff_toNat_le] at lead
      rw [← UInt8.toNat_inj]
      simp
      omega
    split
    · split
      · rename_i long
        have bound := (lowBits_second (Bool.and_eq_true_iff.1 (Bool.and_eq_true_iff.1 long).1).1).2
        refine ofNat_ne_newline ?_
        rcases lead with lead | lead
        · omega
        · have := bound lead
          omega
      · decide
    · decide
  · decide

theorem scalars_ne_newline (none : 10 ∉ bytes) :
    ∀ x ∈ scalars bytes, x.char ≠ '\n' := by
  induction h : bytes.length using Nat.strong_induction_on generalizing bytes with
  | _ n ih =>
    cases bytes with
    | nil => exact fun _ => nofun
    | cons a rest =>
      rw [List.mem_cons, not_or] at none
      rw [scalars_cons]
      have shorter : (rest.drop ((first a rest).width - 1)).length < n := by
        rw [← h, List.length_drop, List.length_cons]
        omega
      refine List.forall_mem_cons.2 ⟨first_ne_newline (Ne.symm none.1) rest, ?_⟩
      exact ih _ shorter (fun mem => none.2 (List.mem_of_mem_drop mem)) rfl

end Utf8

namespace Scanner

open Token (Kind)

section measures

variable {c x y : Char} {cs xs ys : List Char} {p : Char → Bool}
variable {n : Nat}

def Stops (c : Char) : Prop := c = '\n' ∨ c = ' '

theorem Stops.not_isNameChar (h : Stops c) : isNameChar c = false := by
  rcases h with rfl | rfl <;> exact WordScript.Scanner.not_isNameChar (by decide)

theorem Stops.not_isDigit (h : Stops c) : isDigit c = false := by
  rcases h with rfl | rfl <;> rfl

theorem Stops.no_pair (h : Stops x) : Kind.ofPair? c x = none := by
  unfold Kind.ofPair?
  rcases h with rfl | rfl <;> simp_all

theorem run_inside (h : cs.dropWhile p ≠ []) (xs : List Char) :
    run p (cs ++ xs) = run p cs ∧ (cs ++ xs).dropWhile p = cs.dropWhile p ++ xs := by
  induction cs with
  | nil => exact absurd rfl h
  | cons c cs ih =>
    by_cases hc : p c = true
    · rw [List.dropWhile_cons_of_pos hc] at h
      simpa [run, hc] using ih h
    · simp [run, hc]

theorem run_through (h : cs.dropWhile p = []) (xs : List Char) :
    run p (cs ++ xs) = cs.length + run p xs ∧ (cs ++ xs).dropWhile p = xs.dropWhile p := by
  rw [List.dropWhile_eq_nil_iff] at h
  rw [run, List.takeWhile_append_of_pos h, List.length_append, List.dropWhile_append_of_pos h]
  exact ⟨rfl, rfl⟩

theorem run_stop (h : p x = false) : run p (cs ++ x :: xs) = run p cs := by
  induction cs with
  | nil => simp [run, h]
  | cons c cs ih =>
    by_cases hc : p c = true
    · simpa [run, hc] using ih
    · simp [run, hc]

theorem run_none (h : p x = false) : run p (x :: xs) = 0 := by simp [run, h]

theorem run_le (p : Char → Bool) (cs : List Char) : run p cs ≤ cs.length :=
  (List.takeWhile_prefix p).length_le

/-- The length of the digits at the front and of a fraction behind them. -/
def numeralLength (cs : List Char) : Nat :=
  match cs.drop (run isDigit cs) with
  | '.' :: rest => run isDigit cs + 1 + run isDigit rest
  | _ => run isDigit cs

theorem numeralLength_le (cs : List Char) : numeralLength cs ≤ cs.length := by
  have whole := run_le isDigit cs
  unfold numeralLength
  split
  · rename_i rest after
    have decimals := run_le isDigit rest
    have length := congrArg List.length after
    simp only [List.length_drop, List.length_cons] at length
    omega
  · exact whole

theorem numeralLength_stop (stop : Stops x) :
    numeralLength (cs ++ x :: xs) = numeralLength cs := by
  have point : x ≠ '.' := by rcases stop with rfl | rfl <;> decide
  unfold numeralLength
  rw [run_stop stop.not_isDigit, List.drop_append_of_le_length (run_le isDigit cs)]
  rcases cs.drop (run isDigit cs) with _ | ⟨d, rest⟩
  · simp [point]
  · by_cases fraction : d = '.'
    · simp [fraction, run_stop stop.not_isDigit]
    · simp [fraction]

/-- What digits are read as before the text that follows them. -/
def numeralLexeme (n : Nat) : (rest : List Char) → Lexeme
  | c :: _ => if isNameStart c then .fault .badNumber (n + 1) else .token .number n
  | [] => .token .number n

theorem numberLexeme_eq (cs : List Char) :
    numberLexeme cs = numeralLexeme (numeralLength cs) (cs.drop (numeralLength cs)) := rfl

theorem numberLexeme_stop (stop : Stops x) :
    numberLexeme (cs ++ x :: xs) = numberLexeme cs := by
  have start : isNameStart x = false := by
    have := stop.not_isNameChar
    simp_all [isNameChar]
  rw [numberLexeme_eq, numberLexeme_eq, numeralLength_stop stop,
    List.drop_append_of_le_length (numeralLength_le cs)]
  cases cs.drop (numeralLength cs) with
  | nil => simp [numeralLexeme, start]
  | cons d rest => rfl

theorem signLexeme_stop (stop : Stops x) : signLexeme c (cs ++ x :: xs) = signLexeme c cs := by
  unfold signLexeme
  cases cs with
  | nil => simp [stop.no_pair]
  | cons d cs => rfl

theorem stringTail_inside (h : stringTail q (cs ++ xs) = (n, true)) (le : n ≤ cs.length)
    (ys : List Char) : stringTail q (cs ++ ys) = (n, true) := by
  generalize whole : cs ++ xs = text at h
  fun_induction stringTail q text generalizing n cs with
  | case1 | case2 | case3 | case4 => cases h
  | case5 d rest newline _ _ tail slash ih =>
    cases h
    rcases cs with _ | ⟨a, _ | ⟨b, cs⟩⟩
    · simp at le
    · simp at le
      omega
    · obtain ⟨rfl, rfl, rfl⟩ := whole
      simp only [List.length_cons] at le
      rw [stringTail.eq_def]
      simp [newline, ih (by omega) rfl tail]
  | case6 rest newline slash =>
    cases h
    rcases cs with _ | ⟨a, cs⟩
    · simp at le
    · obtain ⟨rfl, rfl⟩ := whole
      rw [stringTail.eq_def]
      simp [newline, slash]
  | case7 c rest newline slash other m _ tail ih =>
    cases h
    rcases cs with _ | ⟨a, cs⟩
    · simp at le
    · obtain ⟨rfl, rfl⟩ := whole
      simp only [List.length_cons] at le
      rw [stringTail.eq_def]
      simp [newline, slash, other, ih (by omega) rfl tail]

theorem lexeme_inside (stop : Stops x) (stop' : Stops y)
    (h : lexeme c (cs ++ x :: xs) = .token kind n) (le : n ≤ cs.length + 1) (ys : List Char) :
    lexeme c (cs ++ y :: ys) = .token kind n := by
  unfold lexeme at h ⊢
  split at h
  · rename_i quote
    rw [if_pos quote]
    split at h
    · rename_i m tail
      cases h
      simp only [stringTail_inside tail (by omega)]
    · cases h
  · rename_i quote
    rw [if_neg quote]
    split at h
    · rename_i digit
      rw [← List.cons_append, numberLexeme_stop stop] at h
      rw [if_pos digit, ← List.cons_append, numberLexeme_stop stop', h]
    · rename_i digit
      rw [if_neg digit]
      split at h
      · rename_i start
        rw [if_pos start]
        simp only [run_stop stop.not_isNameChar] at h
        simp only [run_stop stop'.not_isNameChar]
        have whole := run_le isNameChar cs
        rw [← h, ← List.cons_append, ← List.cons_append,
          List.take_append_of_le_length (by simp; omega),
          List.take_append_of_le_length (by simp; omega)]
      · rename_i start
        rw [if_neg start, signLexeme_stop stop', ← signLexeme_stop stop, h]

/-- A gap ends among the first `n` characters, or with them before a line break. -/
def Gap.Within (g : Gap) (n : Nat) (y : Char) : Prop := g.length < n ∨ g.length = n ∧ y = '\n'

theorem Gap.Within.of_after {g : Gap} (h : (g.after k).Within (n + k) y) : g.Within n y := by
  simp only [Gap.Within, Gap.after] at h
  rcases h with h | ⟨h, newline⟩
  · exact .inl (by omega)
  · exact .inr ⟨by omega, newline⟩

/-- What a gap is does not depend on the text behind a line break or a blank that it does not
reach. -/
theorem gap_inside (whole : (gap nested comment (cs ++ '\n' :: xs)).broken = false)
    (within : (gap nested comment (cs ++ '\n' :: xs)).Within cs.length y) :
    gap nested comment (cs ++ y :: ys) = gap nested comment (cs ++ '\n' :: xs) := by
  generalize split : cs ++ '\n' :: xs = text at whole within ⊢
  fun_induction gap nested comment text generalizing cs with
  | case1 => simp at split
  | case2 _ _ _ ih | case4 _ _ _ ih | case5 _ _ _ _ _ _ ih | case6 _ _ _ _ _ ih =>
    -- One character is read, which is not yet the line break.
    rcases cs with _ | ⟨a, cs⟩
    · simp [Gap.Within, Gap.after] at within
    · obtain ⟨rfl, rfl⟩ := split
      rw [gap.eq_def, ← ih rfl whole within.of_after]
      simp [*]
  | case3 comment rest nested =>
    rcases cs with _ | ⟨a, cs⟩
    · have here : y = '\n' := by simpa [Gap.Within] using within
      rw [gap.eq_def]
      simp [here, nested]
    · obtain ⟨rfl, rfl⟩ := split
      rw [gap.eq_def]
      simp [nested]
  | case7 comment outside rest newline blank hash ih =>
    rcases cs with _ | ⟨a, _ | ⟨b, cs⟩⟩
    · simp [Gap.Within, Gap.after] at within
    · simp [Gap.Within, Gap.after] at within
      omega
    · obtain ⟨rfl, rfl, rfl⟩ := split
      rw [gap.eq_def,
        ← ih rfl whole within.of_after]
      simp [outside, blank]
  | case8 comment outside rest newline blank hash ih =>
    rcases cs with _ | ⟨a, _ | ⟨b, _ | ⟨d, cs⟩⟩⟩
    · simp [Gap.Within, Gap.after] at within
    · simp [Gap.Within, Gap.after] at within
      omega
    · simp [Gap.Within, Gap.after] at within
      omega
    · obtain ⟨rfl, rfl, rfl, rfl⟩ := split
      rw [gap.eq_def,
        ← ih rfl whole within.of_after]
      simp [outside, blank]
  | case9 | case10 => cases whole
  | case11 comment c rest newline outside blank hash slash =>
    rcases cs with _ | ⟨a, cs⟩
    · exact absurd (List.cons.inj split).1.symm newline
    · obtain ⟨rfl, rfl⟩ := split
      rw [gap.eq_def]
      simp [newline, outside, blank, hash, slash]

theorem margin_text_inside (h : margin (cs ++ '\n' :: xs) = .text n) (ys : List Char) :
    n < cs.length ∧ margin (cs ++ ys) = .text n := by
  unfold margin at h ⊢
  simp only [drop_run] at h ⊢
  by_cases all : cs.dropWhile isMargin = []
  · rw [(run_through all _).2] at h
    simp [isMargin] at h
  · obtain ⟨c, rest, next⟩ := List.exists_cons_of_ne_nil all
    have length := congrArg List.length next
    rw [← drop_run, List.length_drop, List.length_cons] at length
    simp only [run_inside all, next, List.cons_append] at h ⊢
    split at h
    · cases h
    · split at h
      · cases h
      · cases h
        rename_i hash newline
        exact ⟨by omega, by simp [hash, newline]⟩

theorem breakLength_inside (h : breakLength (cs ++ '\n' :: xs) = n)
    (within : n ≤ cs.length ∨ y = '\n') : breakLength (cs ++ y :: ys) = n := by
  unfold breakLength at h ⊢
  by_cases all : cs.dropWhile (· == '\r') = []
  · have length : cs.length + 1 = n := by simpa [run_through all, run_none] using h
    obtain rfl : y = '\n' := within.resolve_left (by omega)
    simpa [run_through all, run_none] using length
  · obtain ⟨c, rest, next⟩ := List.exists_cons_of_ne_nil all
    simpa [run_inside all, next] using h

/-- The length of a comment behind its sign, with the line break that ends it. -/
def commentLength (cs : List Char) : Nat :=
  run (· != '\n') cs + breakLength (cs.dropWhile (· != '\n'))

theorem breakLength_newline (cs : List Char) : breakLength ('\n' :: cs) = 1 := by
  simp [breakLength, run_none]

theorem commentLength_inside (h : commentLength (cs ++ '\n' :: xs) = n)
    (within : n ≤ cs.length ∨ y = '\n') : commentLength (cs ++ y :: ys) = n := by
  unfold commentLength at h ⊢
  by_cases all : cs.dropWhile (· != '\n') = []
  · have length : cs.length + 1 = n := by simpa [run_through all, run_none, breakLength_newline] using h
    obtain rfl : y = '\n' := within.resolve_left (by omega)
    simpa [run_through all, run_none, breakLength_newline] using length
  · obtain ⟨c, rest, next⟩ := List.exists_cons_of_ne_nil all
    have newline : c = '\n' := by
      have ends := List.head?_dropWhile_not (· != '\n') cs
      rw [next] at ends
      simpa using ends
    simpa [run_inside all, next, newline, breakLength_newline] using h

/-- A blank line does not depend on the text behind a line break that it does not reach. -/
theorem margin_blank_inside (h : margin (cs ++ '\n' :: xs) = .blank n)
    (within : n ≤ cs.length ∨ y = '\n') : margin (cs ++ y :: ys) = .blank n := by
  unfold margin at h ⊢
  simp only [drop_run] at h ⊢
  by_cases all : cs.dropWhile isMargin = []
  · have plain : isMargin '\n' = false := rfl
    have length : cs.length + 1 = n := by
      simpa [run_through all, run_none, plain, breakLength_newline] using h
    obtain rfl : y = '\n' := within.resolve_left (by omega)
    simpa [run_through all, run_none, plain, breakLength_newline] using length
  · obtain ⟨c, rest, next⟩ := List.exists_cons_of_ne_nil all
    have size := congrArg List.length next
    rw [← drop_run, List.length_drop, List.length_cons] at size
    simp only [run_inside all, next, List.cons_append] at h ⊢
    split at h
    · rename_i hash
      rw [if_pos hash]
      cases h
      have same : commentLength (rest ++ y :: ys) = commentLength (rest ++ '\n' :: xs) := by
        refine commentLength_inside rfl (within.imp_left fun le => ?_)
        simp only [commentLength]
        omega
      simp only [commentLength] at same
      simp only [Nat.add_assoc, same]
    · rename_i hash
      rw [if_neg hash]
      split at h
      · rename_i newline
        rw [if_pos newline]
        cases h
        have same : breakLength ((c :: rest) ++ y :: ys) = breakLength ((c :: rest) ++ '\n' :: xs) := by
          refine breakLength_inside rfl (within.imp_left fun le => ?_)
          simp only [List.cons_append, List.length_cons]
          omega
        exact congrArg (fun k => Margin.blank (run isMargin cs + k)) same
      · cases h

theorem margin_ne_ended : margin (cs ++ '\n' :: xs) ≠ .ended n := by
  intro h
  unfold margin at h
  simp only [drop_run] at h
  split at h
  · rename_i all
    rw [List.dropWhile_eq_nil_iff] at all
    exact absurd (all '\n' (by simp)) (by decide)
  · split at h
    · cases h
    · split at h <;> cases h

theorem breakLength_le (cs : List Char) : breakLength cs ≤ cs.length := by
  have whole := run_le (· == '\r') cs
  unfold breakLength
  split
  · rename_i newline
    have size := congrArg List.length (drop_run (· == '\r') cs)
    cases rest : cs.dropWhile (· == '\r') with
    | nil => simp [rest] at newline
    | cons c rest' =>
      rw [rest, List.length_drop, List.length_cons] at size
      omega
  · omega

theorem margin_blank_le (h : margin cs = .blank n) : n ≤ cs.length := by
  unfold margin at h
  simp only at h
  split at h
  · cases h
  · rename_i c rest next
    have size := congrArg List.length next
    rw [List.length_drop, List.length_cons] at size
    split at h
    · cases h
      have line := run_le (· != '\n') rest
      have ended := breakLength_le (rest.drop (run (· != '\n') rest))
      rw [List.length_drop] at ended
      omega
    · split at h
      · cases h
        have ended := breakLength_le (c :: rest)
        rw [List.length_cons] at ended
        omega
      · cases h

end measures

end Scanner
end WordScript
