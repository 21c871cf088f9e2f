import WordScript.Proofs.Spelling

/-! Reading what was printed.

The atoms that are read are words and strings, and no list holds anything else. Such forms are
printed as texts that are read as the same forms again, whatever stood between the items before. -/
namespace WordScript
namespace Sexpr

open Reader (At Quoted endsWord)

/-- The bytes of a word or of a string with its quotation marks. -/
inductive IsAtom : Bytes → Prop
  | word {bytes : Bytes} (filled : bytes ≠ []) (letters : ∀ b ∈ bytes, endsWord b = false) :
      IsAtom bytes
  | string {bytes : Bytes} (inside : Quoted bytes) : IsAtom (34 :: bytes ++ [34])

/-- Forms that a text can hold. -/
inductive Written : Sexpr → Prop
  | atom {bytes : Bytes} (h : IsAtom bytes) : Written (.atom bytes)
  | list {items : List Sexpr} (h : ∀ s ∈ items, Written s) : Written (.list items)

/-- A form stands among forms or inside one of them. -/
inductive Part (s : Sexpr) : List Sexpr → Prop
  | here {items : List Sexpr} (mem : s ∈ items) : Part s items
  | inside {items inner : List Sexpr} (mem : .list inner ∈ items) (h : Part s inner) : Part s items

theorem Part.written {items : List Sexpr} (h : Part s items) (all : ∀ t ∈ items, Written t) :
    Written s := by
  induction h with
  | here mem => exact all _ mem
  | inside mem _ ih =>
    cases all _ mem with
    | list h => exact ih h

theorem Reader.Quoted.append (hx : Quoted xs) (hy : Quoted ys) : Quoted (xs ++ ys) := by
  induction hx with
  | nil => exact hy
  | plain quote backslash _ ih => exact .plain quote backslash ih
  | escape _ ih => exact .escape ih

/-- The bytes of an atom that has been started. -/
def Mode.Sound : Mode → Prop
  | .word bytes => bytes ≠ [] ∧ ∀ b ∈ bytes, endsWord b = false
  | .string _ bytes escaped =>
    ∃ inside, Quoted inside ∧ bytes.reverse = 34 :: inside ++ if escaped then [92] else []
  | _ => True

namespace Reader

/-- A reader that has read nothing but forms that can be written. -/
structure Sound (r : Reader) : Prop where
  mode : r.mode.Sound
  items : ∀ s ∈ r.items, Written s
  opened : ∀ o ∈ r.opened, ∀ s ∈ o.2, Written s

variable {r q : Reader} {b : UInt8}

section

variable (h : r.Sound)
include h

theorem Sound.add (atom : IsAtom bytes) : (r.add (.atom bytes)).Sound :=
  ⟨trivial, List.forall_mem_cons.2 ⟨.atom atom, h.items⟩, h.opened⟩

theorem Sound.openList (start : Nat) : (r.openList start).Sound :=
  ⟨trivial, nofun, List.forall_mem_cons.2 ⟨h.items, h.opened⟩⟩

theorem Sound.closeList (closed : r.closeList = .ok q) : q.Sound := by
  rw [Reader.closeList] at closed
  cases opened : r.opened with
  | nil => simp [opened] at closed
  | cons o rest =>
    simp only [opened, Except.ok.injEq] at closed
    subst closed
    have outer := List.forall_mem_cons.1 (opened ▸ h.opened)
    have list : Written (.list r.items.reverse) :=
      .list fun s mem => h.items s (List.mem_reverse.1 mem)
    exact ⟨trivial, List.forall_mem_cons.2 ⟨list, outer.1⟩, outer.2⟩

theorem Sound.set {mode : Mode} (sound : mode.Sound) : ({ r with mode } : Reader).Sound :=
  ⟨sound, h.items, h.opened⟩

theorem Sound.fresh (done : r.fresh b = .ok q) : q.Sound := by
  rw [Reader.fresh] at done
  split at done
  · cases done
    exact h.set trivial
  split at done
  · cases done
    exact h.set trivial
  split at done
  · exact h.closeList done
  split at done
  · rename_i quote
    cases done
    exact h.set ⟨[], .nil, by simpa using quote⟩
  split at done
  · cases done
    exact h.set trivial
  · cases done
    exact h.set ⟨by simp, by simp_all [endsWord]⟩

theorem Sound.read (done : r.read b = .ok q) : q.Sound := by
  have sound := h.mode
  cases mode : r.mode with
  | between =>
    simp only [Reader.read, mode] at done
    exact h.fresh done
  | word bytes =>
    rw [mode] at sound
    simp only [Reader.read, mode] at done
    split at done
    · exact (h.add (.word (by simpa using sound.1) (by simpa using sound.2))).fresh done
    · rename_i letter
      cases done
      exact h.set ⟨by simp, List.forall_mem_cons.2 ⟨by simpa using letter, sound.2⟩⟩
  | string start bytes escaped =>
    rw [mode] at sound
    obtain ⟨inside, quoted, spelled⟩ := sound
    cases escaped with
    | true =>
      simp only [Reader.read, mode, Except.ok.injEq] at done
      subst done
      exact h.set ⟨inside ++ [92, b], quoted.append (.escape .nil), by simp [spelled]⟩
    | false =>
      simp only [Reader.read, mode] at done
      split at done
      · rename_i quote
        cases done
        have atom : (b :: bytes).reverse = 34 :: inside ++ [34] := by simpa [spelled] using quote
        rw [atom]
        exact h.add (.string quoted)
      · rename_i quote
        cases done
        by_cases backslash : b = 92
        · exact h.set ⟨inside, quoted, by simp [spelled, backslash]⟩
        · exact h.set ⟨inside ++ [b], quoted.append (.plain (by simpa using quote) backslash .nil),
            by simp [spelled, backslash]⟩
  | paren start =>
    simp only [Reader.read, mode] at done
    split at done
    · cases done
      exact h.set trivial
    · exact (h.openList start).fresh done
  | semicolon start =>
    simp only [Reader.read, mode] at done
    split at done
    · cases done
      exact h.set trivial
    · cases done
  | lineComment =>
    simp only [Reader.read, mode, Except.ok.injEq] at done
    split at done
    · subst done
      exact h.set trivial
    · exact done ▸ h
  | blockComment start semicolon =>
    simp only [Reader.read, mode] at done
    split at done <;> cases done <;> exact h.set trivial

theorem Sound.readAll {text : Bytes} (done : r.readAll text = .ok q) : q.Sound := by
  induction text generalizing r with
  | nil =>
    cases done
    exact h
  | cons b rest ih =>
    rw [Reader.readAll, step] at done
    cases read : r.read b with
    | error fault => simp [read, bind, Except.bind] at done
    | ok u =>
      rw [read] at done
      have sound := h.read read
      exact ih (r := { u with offset := u.offset + 1 })
        ⟨sound.mode, sound.items, sound.opened⟩ done

theorem Sound.finish (done : r.finish = .ok forms) : ∀ s ∈ forms, Written s := by
  have close {r : Reader} (h : r.Sound) (done : r.close = .ok forms) : ∀ s ∈ forms, Written s := by
    rw [Reader.close] at done
    split at done
    · cases done
      exact fun s mem => h.items s (List.mem_reverse.1 mem)
    · cases done
  have sound := h.mode
  rw [Reader.finish] at done
  split at done
  · exact close h done
  · exact close h done
  · rename_i bytes mode
    rw [mode] at sound
    exact close (h.add (.word (by simpa using sound.1) (by simpa using sound.2))) done
  · cases done
  · exact close (h.openList _) done
  · cases done
  · cases done

end

def Clean (r : Reader) : Prop := r.mode = .between ∨ ∃ start, r.mode = .paren start

variable {items : List Sexpr} {outer : List (List Sexpr)}

/-- The printed form is read as the form wherever no word is pending. -/
def Legible (s : Sexpr) : Prop :=
  ∀ (r : Reader) (items : List Sexpr) (outer : List (List Sexpr)), At r items outer → r.Clean →
    ∃ q, r.readAll s.print = .ok q ∧ At q (s :: items) outer

theorem At.forms {forms : List Sexpr} (legible : ∀ s ∈ forms, Legible s) (h : At r items outer)
    (clean : r.Clean) :
    ∃ q, r.readAll (printAll forms) = .ok q ∧ At q (forms.reverse ++ items) outer := by
  induction forms generalizing r items with
  | nil => exact ⟨r, rfl, h⟩
  | cons s rest ih =>
    obtain ⟨first, others⟩ := List.forall_mem_cons.1 legible
    obtain ⟨q, read, hat⟩ := first r items outer h clean
    cases rest with
    | nil => exact ⟨q, by exact read, hat⟩
    | cons t rest =>
      obtain ⟨u, blank, mode, hat⟩ := hat.blank (b := 32) rfl
      obtain ⟨v, read', hat⟩ := ih others hat (.inl mode)
      refine ⟨v, ?_, by simpa using hat⟩
      change r.readAll (s.print ++ 32 :: printAll (t :: rest)) = _
      rw [readAll_append, read]
      change (q.step 32 >>= _) = _
      rw [blank]
      exact read'

theorem legible_of_written (h : Written s) : Legible s := by
  induction h with
  | atom atom =>
    intro r items outer hat clean
    cases atom with
    | word filled letters => exact hat.letters clean filled letters
    | string inside =>
      obtain ⟨q, read, -, hat⟩ := hat.quoted inside
      exact ⟨q, read, hat⟩
  | @list inner all ih =>
    intro r items outer hat _
    obtain ⟨q, start, opens, mode, hat⟩ := hat.opening
    obtain ⟨u, read, hat⟩ := hat.forms ih (.inr ⟨start, mode⟩)
    obtain ⟨v, closes, -, hat⟩ := hat.closing
    refine ⟨v, ?_, by simpa using hat⟩
    rw [print, List.cons_append, readAll, opens]
    change q.readAll _ = _
    rw [readAll_append, read]
    change (u.step 41 >>= _) = _
    rw [closes]
    rfl

end Reader

theorem readText_printAll (h : ∀ s ∈ forms, Written s) : readText (printAll forms) = .ok forms := by
  have start : At .start [] [] := .between rfl
  obtain ⟨q, read, hat⟩ :=
    start.forms (fun s mem => Reader.legible_of_written (h s mem)) (.inl rfl)
  rw [readText, read]
  change q.finish = _
  simpa using hat.finish

theorem written_of_readText {text : Bytes} (h : readText text = .ok forms) :
    ∀ s ∈ forms, Written s := by
  have start : Reader.start.Sound := ⟨trivial, nofun, nofun⟩
  rw [readText] at h
  cases read : Reader.start.readAll text with
  | error fault => simp [read, bind, Except.bind] at h
  | ok q =>
    rw [read] at h
    exact (start.readAll read).finish h

/-- What a text is read as can be printed, and the printed text is read as the same; so is what is
printed of each form inside. -/
theorem printed_reads_back {text : Bytes} {forms : List Sexpr} (h : readText text = .ok forms) :
    readText (printAll forms) = .ok forms ∧ ∀ s, Part s forms → readText s.print = .ok [s] := by
  have written := written_of_readText h
  refine ⟨readText_printAll written, fun s part => ?_⟩
  have alone : ∀ t ∈ [s], Written t := List.forall_mem_singleton.2 (part.written written)
  simpa [printAll] using readText_printAll alone

/-- Comments of both kinds, strings with marks and comments inside, and items without blanks. -/
theorem commented_reads_back :
    let text := Utf8.encode "(f;;(\n \"a\\\"(;\"(; ) ;)x(())y)"
    let forms : List Sexpr := [.list [.atom (Utf8.encode "f"), .atom (Utf8.encode "\"a\\\"(;\""),
      .atom (Utf8.encode "x"), .list [.list []], .atom (Utf8.encode "y")]]
    readText text = .ok forms ∧ readText (printAll forms) = .ok forms ∧
      readText (print (.list [.list []])) = .ok [.list [.list []]] := by
  intro text forms
  have read : readText text = .ok forms := rfl
  obtain ⟨all, parts⟩ := printed_reads_back read
  exact ⟨read, all, parts _ (.inside List.mem_cons_self (.here (by simp)))⟩

end Sexpr
end WordScript
