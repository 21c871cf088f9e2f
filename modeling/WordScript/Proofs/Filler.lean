import Mathlib.Data.List.TakeWhile
import WordScript.Proofs.ScannerRuns

/-! What stands between tokens.

White space, line breaks, continued lines and comments fill the text between two tokens. What a
scanner skips before a token or at the start of a line is such filler; only at the end of a line or of
the text it stops inside a comment. -/
namespace WordScript
namespace Scanner

variable {comment : Bool} {cs : List Char}

/-- White space, line breaks, continued lines, and comments with the line breaks that end them. -/
inductive Filler : List Char → Prop
  | nil : Filler []
  | white {c : Char} {cs : List Char} (blank : isBlank c = true ∨ c = '\n') (rest : Filler cs) :
      Filler (c :: cs)
  | continued {cs : List Char} (rest : Filler cs) : Filler ('\\' :: '\n' :: cs)
  | continuedReturn {cs : List Char} (rest : Filler cs) : Filler ('\\' :: '\r' :: '\n' :: cs)
  | comment {text cs : List Char} (line : '\n' ∉ text) (rest : Filler cs) :
      Filler ('#' :: (text ++ '\n' :: cs))

/-- Filler that may end in a comment without a line break. -/
def Trailing (cs : List Char) : Prop :=
  Filler cs ∨ ∃ before text, cs = before ++ '#' :: text ∧ Filler before ∧ '\n' ∉ text

section filler

variable {xs ys cs : List Char}

theorem Filler.append (hx : Filler xs) (hy : Filler ys) : Filler (xs ++ ys) := by
  induction hx with
  | nil => exact hy
  | white blank _ ih => exact .white blank ih
  | continued _ ih => exact .continued ih
  | continuedReturn _ ih => exact .continuedReturn ih
  | comment line _ ih => simpa using Filler.comment line ih

theorem Filler.of_white (h : ∀ c ∈ cs, isBlank c = true ∨ c = '\n') : Filler cs := by
  induction cs with
  | nil => exact .nil
  | cons c cs ih => exact .white (h c (by simp)) (ih fun d hd => h d (by simp [hd]))

theorem Filler.trailing (h : Filler cs) : Trailing cs := .inl h

theorem Filler.append_trailing (hx : Filler xs) (hy : Trailing ys) : Trailing (xs ++ ys) := by
  rcases hy with hy | ⟨before, text, rfl, hb, line⟩
  · exact .inl (hx.append hy)
  · exact .inr ⟨xs ++ before, text, by simp, hx.append hb, line⟩

theorem Trailing.newline (h : Trailing cs) : Filler (cs ++ ['\n']) := by
  rcases h with h | ⟨before, text, rfl, hb, line⟩
  · exact h.append (.white (.inr rfl) .nil)
  · simpa using hb.append (.comment line .nil)

end filler

/-- What was skipped before `rest`: filler, or at the end of a line or of the text perhaps a part of
a comment. -/
def Skipped (text rest : List Char) : Prop :=
  Filler text ∨ Trailing text ∧ (rest = [] ∨ rest.head? = some '\n')

/-- What a gap was read as so far: filler, and inside a comment also the start of the comment. -/
inductive GapText : (comment : Bool) → List Char → Prop
  | outside {cs : List Char} (filler : Filler cs) : GapText false cs
  | inside {before text : List Char} (filler : Filler before) (line : '\n' ∉ text) :
      GapText true (before ++ '#' :: text)

theorem GapText.trailing (h : GapText comment cs) : Trailing cs := by
  cases h with
  | outside filler => exact filler.trailing
  | inside filler line => exact .inr ⟨_, _, rfl, filler, line⟩

theorem GapText.append (h : GapText false cs) (hx : Filler xs) : GapText false (cs ++ xs) := by
  cases h with
  | outside filler => exact .outside (filler.append hx)

theorem gap_skipped (h : GapText comment before) (whole : (gap nested comment cs).broken = false) :
    Skipped (before ++ cs.take (gap nested comment cs).length)
      (cs.drop (gap nested comment cs).length) := by
  fun_induction gap nested comment cs generalizing before with
  | case1 comment => exact .inr ⟨by simpa using h.trailing, .inl rfl⟩
  | case2 comment rest nested ih =>
    simpa [Gap.after, Nat.add_comm 1] using ih (.outside h.trailing.newline) whole
  | case3 comment rest nested => exact .inr ⟨by simpa using h.trailing, .inr (by simp)⟩
  | case4 c rest newline ih =>
    cases h with
    | @inside filled text filler line =>
      have onward : GapText true (filled ++ '#' :: (text ++ [c])) :=
        .inside filler (by simp [line, Ne.symm newline])
      simpa [Gap.after, Nat.add_comm 1] using ih onward whole
  | case5 comment c rest newline outside blank ih =>
    rw [Bool.not_eq_true] at outside
    subst outside
    simpa [Gap.after, Nat.add_comm 1] using ih (h.append (.white (.inl blank) .nil)) whole
  | case6 comment rest outside newline blank ih =>
    rw [Bool.not_eq_true] at outside
    subst outside
    cases h with
    | outside filler =>
      simpa [Gap.after, Nat.add_comm 1] using ih (.inside filler List.not_mem_nil) whole
  | case7 comment outside rest newline blank hash ih =>
    rw [Bool.not_eq_true] at outside
    subst outside
    simpa [Gap.after, Nat.add_comm 2] using ih (h.append (.continued .nil)) whole
  | case8 comment outside rest newline blank hash ih =>
    rw [Bool.not_eq_true] at outside
    subst outside
    simpa [Gap.after, Nat.add_comm 3] using ih (h.append (.continuedReturn .nil)) whole
  | case9 => cases whole
  | case10 => cases whole
  | case11 comment c rest newline outside blank hash slash =>
    rw [Bool.not_eq_true] at outside
    subst outside
    cases h with
    | outside filler => exact .inl (by simpa using filler)

theorem gap_nested (whole : (gap true comment cs).broken = false) :
    (cs.drop (gap true comment cs).length).head? ≠ some '\n' := by
  fun_induction gap true comment cs with
  | case1 => simp
  | case2 _ _ _ ih | case4 _ _ _ ih | case5 _ _ _ _ _ _ ih | case6 _ _ _ _ _ ih =>
    simpa [Gap.after, Nat.add_comm 1] using ih whole
  | case3 _ _ outside => exact absurd rfl outside
  | case7 _ _ _ _ _ _ ih => simpa [Gap.after, Nat.add_comm 2] using ih whole
  | case8 _ _ _ _ _ _ ih => simpa [Gap.after, Nat.add_comm 3] using ih whole
  | case9 | case10 => cases whole
  | case11 _ c rest newline => simpa using newline

theorem parens_of_newline {s : Scanner} (whole : s.lineGap.broken = false)
    (next : s.afterGap.chars = '\n' :: rest) : s.parens = 0 := by
  by_contra nested
  have inside : decide (0 < s.parens) = true := decide_eq_true (Nat.pos_of_ne_zero nested)
  rw [afterGap, Reader.skip_chars] at next
  simp only [lineGap, inside] at whole next
  exact gap_nested whole (by rw [next]; rfl)

theorem take_run (p : Char → Bool) (cs : List Char) : cs.take (run p cs) = cs.takeWhile p := by
  rw [run, ← List.prefix_iff_eq_take.1 (List.takeWhile_prefix p)]

theorem drop_run (p : Char → Bool) (cs : List Char) : cs.drop (run p cs) = cs.dropWhile p := by
  induction cs with
  | nil => rfl
  | cons c cs ih =>
    by_cases h : p c = true
    · simpa [run, h, Nat.add_comm] using ih
    · simp [run, h]

theorem isBlank_of_isMargin (h : isMargin c = true) : isBlank c = true := by
  simp only [isMargin, isBlank, Bool.or_eq_true] at h ⊢
  tauto

theorem margin_filler (cs : List Char) : Filler (cs.take (run isMargin cs)) := by
  rw [take_run]
  exact .of_white fun c hc => .inl (isBlank_of_isMargin (List.mem_takeWhile_imp hc))

theorem break_filler (cs : List Char) : Filler (cs.take (breakLength cs)) := by
  have returns : Filler (cs.take (run (· == '\r') cs)) := by
    rw [take_run]
    refine .of_white fun c hc => .inl ?_
    have := List.mem_takeWhile_imp hc
    simp_all [isBlank]
  rw [breakLength, List.take_add, drop_run]
  refine returns.append ?_
  split
  · rename_i newline
    cases hd : cs.dropWhile (· == '\r') with
    | nil => exact .nil
    | cons c rest =>
      rw [hd] at newline
      cases newline
      exact .white (.inr rfl) .nil
  · exact .nil

theorem comment_skipped {cs : List Char} :
    let m := run (· != '\n') cs
    let n := 1 + m + breakLength (cs.drop m)
    Filler (('#' :: cs).take n) ∨ Trailing (('#' :: cs).take n) ∧ cs.drop m = [] := by
  intro m n
  have line : '\n' ∉ cs.take m := by
    rw [take_run]
    intro mem
    simpa using List.mem_takeWhile_imp mem
  have text : ('#' :: cs).take n =
      '#' :: (cs.take m ++ (cs.drop m).take (breakLength (cs.drop m))) := by
    rw [← List.take_add, ← List.take_succ_cons]
    exact congrArg (List.take · ('#' :: cs)) (by omega)
  rw [text]
  cases hd : cs.drop m with
  | nil => exact .inr ⟨.inr ⟨[], _, by simp, .nil, line⟩, rfl⟩
  | cons c rest =>
    have newline : c = '\n' := by
      have ends := List.head?_dropWhile_not (· != '\n') cs
      rw [← drop_run, hd] at ends
      simpa using ends
    subst newline
    simpa [breakLength, run] using Filler.comment line .nil

theorem text_filler (h : margin cs = .text n) : Filler (cs.take n) := by
  unfold margin at h
  simp only at h
  split at h
  · cases h
  · split at h
    · cases h
    · split at h
      · cases h
      · cases h
        exact margin_filler cs

theorem ended_filler (h : margin cs = .ended n) : Filler (cs.take n) := by
  unfold margin at h
  simp only at h
  split at h
  · cases h
    exact margin_filler cs
  · split at h
    · cases h
    · split at h <;> cases h

/-- A blank line is filler, but for a comment that ends the text. -/
theorem blank_skipped (h : margin cs = .blank n) :
    Filler (cs.take n) ∨ Trailing (cs.take n) ∧ cs.drop n = [] := by
  have before := margin_filler cs
  unfold margin at h
  simp only at h
  split at h
  · cases h
  · rename_i c rest hc
    split at h
    · rename_i hash
      subst hash
      cases h
      rw [Nat.add_assoc, Nat.add_assoc, ← Nat.add_assoc 1, List.take_add, ← List.drop_drop, hc]
      rcases @comment_skipped rest with closed | ⟨trailing, ends⟩
      · exact .inl (before.append closed)
      · refine .inr ⟨before.append_trailing trailing, ?_⟩
        rw [List.drop_eq_nil_iff] at ends ⊢
        simp only [List.length_cons]
        omega
    · split at h
      · cases h
        rw [List.take_add, hc]
        exact .inl (before.append (break_filler _))
      · cases h

end Scanner
end WordScript
