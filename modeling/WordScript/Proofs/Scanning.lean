import Mathlib.Tactic.Common
import WordScript.Token.Scanner

/-! The tokens of a source.

A scanner hands out tokens one by one up to the end of the text. No source has more tokens than the
fuel of `scan` lets through, so `scan` finds all of them. -/
namespace WordScript
namespace Scanner

open Utf8 (Scalar)

variable {s : Scanner} {ts : List Token} {rest : List Char} {kind : Token.Kind} {n fuel : Nat}

/-- The tokens that are handed out one by one, up to and with the end of the text. -/
inductive HandsOut : Scanner → List Token → Prop
  | last {s s' : Scanner} {t : Token} (next : s.next = .ok (t, s')) (eof : t.kind = .eof) :
      HandsOut s [t]
  | more {s s' : Scanner} {t : Token} {ts : List Token} (next : s.next = .ok (t, s'))
      (text : t.kind ≠ .eof) (others : HandsOut s' ts) : HandsOut s (t :: ts)

theorem HandsOut.nothing_after (h : HandsOut s ts) {rest : List Token}
    (split : ts = us ++ t :: rest) (eof : t.kind = .eof) : rest = [] := by
  induction h generalizing us with
  | last =>
    cases us with
    | nil => exact (List.cons.inj split).2.symm
    | cons u us => simp at split
  | more _ text _ ih =>
    cases us with
    | nil =>
      obtain ⟨rfl, -⟩ := List.cons.inj split
      exact absurd eof text
    | cons u us => exact ih (List.cons.inj split).2

namespace Reader

theorem skip_rest (n : Nat) (r : Reader) : (r.skip n).rest = r.rest.drop n := by
  induction n generalizing r with
  | zero => rfl
  | succ n ih =>
    cases h : r.rest with
    | nil => simp [skip, h]
    | cons s rest => simp [skip, h, ih]

@[simp] theorem skip_chars (n : Nat) (r : Reader) : (r.skip n).chars = r.chars.drop n := by
  simp [chars, skip_rest]

@[simp] theorem chars_length (r : Reader) : r.chars.length = r.rest.length := by simp [chars]

end Reader

theorem numberLexeme_pos (hc : isDigit c = true) (h : numberLexeme (c :: rest) = .token kind n) :
    0 < n := by
  have whole : 0 < run isDigit (c :: rest) := by simp [run, hc]
  unfold numberLexeme at h
  grind

theorem signLexeme_pos (h : signLexeme c rest = .token kind n) : 0 < n := by
  unfold signLexeme at h
  grind

theorem lexeme_pos (h : lexeme c rest = .token kind n) : 0 < n := by
  unfold lexeme at h
  split at h
  · split at h
    · cases h
      omega
    · cases h
  · split at h
    · exact numberLexeme_pos ‹_› h
    · split at h
      · cases h
        omega
      · exact signLexeme_pos h

theorem margin_text (h : margin cs = .text n) : cs.drop n ≠ [] := by
  unfold margin at h
  grind

/-- A bound on the tokens that are queued and those that the rest of the text can give: a character
can open a block, close it again and give a token of its own. -/
def bound (s : Scanner) : Nat :=
  s.queue.length + 3 * s.reader.rest.length + (s.indents.length - 1) + 2

/-- A bound on the tokens up to the end of the text. -/
def room (s : Scanner) : Nat :=
  if s.queue.any (·.kind = .eof) then s.queue.findIdx (·.kind = .eof) + 1 else s.bound

section room

variable {s s' : Scanner} {n : Nat}

theorem room_of_eof (h : s.queue.any (·.kind = .eof) = true) :
    s.room = s.queue.findIdx (·.kind = .eof) + 1 ∧ s.room ≤ s.queue.length := by
  have here : s.room = s.queue.findIdx (·.kind = .eof) + 1 := if_pos h
  have found : s.queue.findIdx (·.kind = .eof) < s.queue.length :=
    List.findIdx_lt_length.2 (List.any_eq_true.1 h)
  exact ⟨here, by omega⟩

theorem room_le_bound : s.room ≤ s.bound := by
  by_cases h : s.queue.any (·.kind = .eof) = true
  · have := (room_of_eof h).2
    unfold bound
    omega
  · exact Nat.le_of_eq (if_neg h)

theorem finish_room : s.finish.room ≤ s.room ∧
    s.finish.room ≤ s.queue.length + (s.indents.length - 1) + 2 := by
  have eof : s.finish.queue.any (·.kind = .eof) = true := by
    simp [finish, Reader.layout, Reader.token]
  have length : s.finish.queue.length ≤ s.queue.length + (s.indents.length - 1) + 2 := by
    cases h : s.lineEmpty <;> simp [finish, h] <;> omega
  have short := (room_of_eof eof).2
  by_cases h : s.queue.any (·.kind = .eof) = true
  · have same : s.finish.room = s.room := by
      have found := List.findIdx_lt_length.2 (List.any_eq_true.1 h)
      rw [(room_of_eof eof).1, (room_of_eof h).1]
      simp only [finish, List.append_assoc]
      rw [List.findIdx_append, if_pos found]
    exact ⟨by omega, by omega⟩
  · have here : s.room = s.bound := if_neg h
    rw [here, bound]
    exact ⟨by omega, by omega⟩

theorem scanLine_room (h : s.scanLine = .ok s') :
    s'.room ≤ s.bound ∧ (s.reader.rest ≠ [] → s'.room + 2 ≤ s.bound) := by
  unfold scanLine at h
  set g := gap (0 < s.parens) false s.reader.chars
  simp only at h
  split at h
  · cases h
  · split at h
    · cases h
      have ends := (@finish_room { s with reader := s.reader.skip g.length }).2
      simp only at ends
      refine ⟨by unfold bound; omega, fun some => ?_⟩
      have pos := List.length_pos_iff.2 some
      unfold bound
      omega
    · rename_i c rest hc
      have pos : 0 < (s.reader.skip g.length).rest.length := by
        rw [← Reader.chars_length, hc]
        simp
      have step : s'.reader.rest.length < s.reader.rest.length ∧
          s'.queue.length ≤ s.queue.length + 1 ∧ s'.indents = s.indents := by
        split at h
        · cases h
          refine ⟨?_, ?_, rfl⟩
          · simp only [Reader.skip_rest, List.length_drop] at pos ⊢
            omega
          · split <;> simp
        · split at h
          · rename_i kind n hn
            cases h
            have some := lexeme_pos hn
            refine ⟨?_, by simp, rfl⟩
            simp only [Reader.skip_rest, List.length_drop] at pos ⊢
            omega
          · cases h
      have le : s'.room + 2 ≤ s.bound := by
        have := @room_le_bound s'
        unfold bound at *
        rw [step.2.2] at this
        omega
      exact ⟨by omega, fun _ => le⟩

theorem indent_bound (h : s.indent n = .ok s') :
    s'.bound ≤ s.bound + 2 ∧ s'.reader = s.reader.skip n := by
  have cut : (s.reader.skip n).rest.length ≤ s.reader.rest.length := by
    simp [Reader.skip_rest]
  unfold indent at h
  simp only at h
  split at h
  · cases h
    refine ⟨?_, rfl⟩
    simp only [bound, List.length_append, List.length_cons, List.length_nil]
    omega
  · split at h
    · cases h
      refine ⟨?_, rfl⟩
      have fewer := (List.dropWhile_suffix (fun x => decide ((s.reader.skip n).pos.col < x))
        (l := s.indents)).length_le
      simp only [bound, List.length_append, List.length_replicate]
      omega
    · cases h

theorem fill_room (h : s.fill = .ok s') (none : s.queue = []) : s'.room ≤ s.room := by
  have here : s.room = s.bound := by simp [room, none]
  rw [here]
  unfold fill at h
  split at h
  · split at h
    · cases h
      refine Nat.le_trans room_le_bound ?_
      simp only [bound, Reader.skip_rest, List.length_drop]
      omega
    · refine Nat.le_trans (scanLine_room h).1 ?_
      simp only [bound, Reader.skip_rest, List.length_drop]
      omega
    · rename_i n hn
      cases hi : s.indent n with
      | error e => simp [hi, bind, Except.bind] at h
      | ok s₁ =>
        simp only [hi, ] at h
        have opened := indent_bound hi
        have text : s₁.reader.rest ≠ [] := by
          intro hr
          have chars : s₁.reader.chars = [] := by simp [Reader.chars, hr]
          rw [opened.2, Reader.skip_chars] at chars
          exact margin_text hn chars
        have := (scanLine_room h).2 text
        omega
  · exact (scanLine_room h).1

theorem settle_room (h : s.settle fuel = .ok s') : s'.room ≤ s.room := by
  induction fuel generalizing s with
  | zero =>
    cases h
    exact finish_room.1
  | succ fuel ih =>
    unfold settle at h
    split at h
    · cases h
      exact Nat.le_refl _
    · rename_i none
      cases hf : s.fill with
      | error e => simp [hf, bind, Except.bind] at h
      | ok s₁ =>
        simp only [hf, ] at h
        exact Nat.le_trans (ih h) (fill_room hf none)

theorem next_room (h : s.next = .ok (t, s')) :
    1 ≤ s.room ∧ (t.kind ≠ .eof → s'.room + 1 ≤ s.room) := by
  unfold next at h
  cases hs : s.settle (s.reader.rest.length + 2) with
  | error e => simp [hs, bind, Except.bind] at h
  | ok s₁ =>
    have settled := settle_room hs
    have pos : 1 ≤ s₁.room := by
      unfold room bound
      split <;> omega
    refine ⟨by omega, fun text => ?_⟩
    simp only [hs, bind, Except.bind] at h
    split at h
    · rename_i t' queue hq
      cases h
      have other : decide (t.kind = .eof) = false := decide_eq_false text
      have taken : ({ s₁ with queue, lineEmpty := t.kind = .newline } : Scanner).room + 1 =
          s₁.room := by
        simp only [room, bound, hq, List.any_cons, other, Bool.false_or, List.findIdx_cons,
          cond_false, List.length_cons]
        split <;> omega
      omega
    · cases h
      exact absurd rfl text

theorem HandsOut.length_le (h : HandsOut s ts) : ts.length ≤ s.room := by
  induction h with
  | last next _ => exact (next_room next).1
  | more next text _ ih =>
    have := (next_room next).2 text
    simp only [List.length_cons]
    omega

end room

theorem HandsOut.scanUpTo (h : HandsOut s ts) (enough : ts.length ≤ fuel) :
    (scanUpTo fuel s).tokens = ts := by
  induction h generalizing fuel with
  | last next eof =>
    cases fuel with
    | zero => simp at enough
    | succ fuel => simp [Scanner.scanUpTo, next, eof]
  | more next text _ ih =>
    cases fuel with
    | zero => simp at enough
    | succ fuel =>
      have others := @ih fuel (by simpa using enough)
      simp [Scanner.scanUpTo, next, text, others]

theorem handsOut_of_eof (h : t ∈ (scanUpTo fuel s).tokens) (eof : t.kind = .eof) :
    HandsOut s (scanUpTo fuel s).tokens := by
  induction fuel generalizing s with
  | zero => simp [scanUpTo] at h
  | succ fuel ih =>
    unfold scanUpTo at h ⊢
    split
    · rename_i e hnext
      simp [hnext] at h
    · rename_i t' s' hnext
      simp only [hnext] at h
      split
      · exact .last hnext ‹_›
      · rename_i text
        rw [if_neg text] at h
        simp only [List.mem_cons] at h
        rcases h with rfl | h
        · exact absurd eof text
        · exact .more hnext text (ih h)

theorem scan_tokens (h : (ofBytes source).HandsOut ts) : (scan source).tokens = ts := by
  have length := h.length_le
  have room : (ofBytes source).room ≤ 3 * (ofBytes source).reader.rest.length + 3 := by
    simp [room, bound, ofBytes]
  exact h.scanUpTo (by omega)

end Scanner
end WordScript
