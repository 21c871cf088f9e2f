import Mathlib
import WordScript.Machine.Image
import WordScript.Sexpr.Reader

/-! Texts that spell S-expressions.

A text spells a list of forms if reading it adds these forms to the innermost open list, wherever
it stands. Words and forms then spell themselves, and what two texts spell one after the other is
what each spells. -/
namespace WordScript

namespace Utf8

theorem encode_append (a b : String) : encode (a ++ b) = encode a ++ encode b := by
  simp [encode]

theorem encode_injective : Function.Injective encode := by
  intro a b h
  have bytes : a.toList.utf8Encode = b.toList.utf8Encode := by
    simpa [List.utf8Encode, encode] using h
  rw [String.utf8Encode_toList, String.utf8Encode_toList] at bytes
  exact String.toByteArray_inj.1 bytes

theorem eq_of_mem_encodeChar (h : b ∈ String.utf8EncodeChar c) (hb : b.toNat < 128) :
    Char.ofNat b.toNat = c := by
  have hc : c.toNat = c.val.toNat := rfl
  simp only [String.utf8EncodeChar] at h
  split at h
  · rename_i hv
    rw [List.mem_singleton] at h
    have value : b.toNat = c.toNat := by
      rw [h, UInt8.toNat_ofNat', Nat.mod_eq_of_lt (by omega), hc]
    rw [value, Char.ofNat_toNat]
  · -- The bytes of longer sequences are all above 127.
    exfalso
    split at h
    · simp only [List.mem_cons, List.not_mem_nil, or_false] at h
      rcases h with h | h <;> rw [h, UInt8.toNat_ofNat'] at hb <;> omega
    · split at h
      · simp only [List.mem_cons, List.not_mem_nil, or_false] at h
        rcases h with h | h | h <;> rw [h, UInt8.toNat_ofNat'] at hb <;> omega
      · simp only [List.mem_cons, List.not_mem_nil, or_false] at h
        rcases h with h | h | h | h <;> rw [h, UInt8.toNat_ofNat'] at hb <;> omega

theorem char_of_mem_encode (h : b ∈ encode text) (hb : b.toNat < 128) :
    Char.ofNat b.toNat ∈ text.toList := by
  obtain ⟨c, hc, hbc⟩ := List.mem_flatMap.1 h
  rw [eq_of_mem_encodeChar hbc hb]
  exact hc

theorem decode_encode (h : ∀ c ∈ text.toList, c.toNat < 128) : decode (encode text) = text := by
  have scalars : ∀ cs : List Char, (∀ c ∈ cs, c.toNat < 128) →
      ((Utf8.scalars (cs.flatMap String.utf8EncodeChar)).map (·.char)) = cs := by
    intro cs hcs
    induction cs with
    | nil => rfl
    | cons c rest ih =>
      have hc := hcs c List.mem_cons_self
      have one : String.utf8EncodeChar c = [UInt8.ofNat c.toNat] := by
        have hv : c.val.toNat ≤ 127 := by
          have : c.toNat = c.val.toNat := rfl
          omega
        simp only [String.utf8EncodeChar, hv, if_true]
        rfl
      have value : (UInt8.ofNat c.toNat).toNat = c.toNat := by
        rw [UInt8.toNat_ofNat', Nat.mod_eq_of_lt (by omega)]
      have below : UInt8.ofNat c.toNat < 0x80 := by
        rw [UInt8.lt_iff_toNat_lt, value]
        exact hc
      rw [List.flatMap_cons, one, List.singleton_append, scalars_cons,
        first.eq_def, if_pos below]
      simp only [Nat.sub_self, List.drop_zero, List.map_cons, value, Char.ofNat_toNat]
      rw [ih fun c hc => hcs c (List.mem_cons_of_mem _ hc)]
  rw [decode, encode, scalars _ h, String.ofList_toList]

end Utf8

namespace Numeral

theorem digit?_of_isDigit (h : c.isDigit = true) :
    digit? c = some (c.toNat - '0'.toNat) := by
  simp [Char.isDigit, digit?, Char.le_def] at *
  omega

theorem digits?_eq (acc : Nat) (h : ∀ c ∈ cs, c.isDigit = true) :
    digits? acc cs = some (Nat.ofDigitChars 10 cs acc) := by
  induction cs generalizing acc with
  | nil => rfl
  | cons c rest ih =>
    rw [digits?, digit?_of_isDigit (h c List.mem_cons_self), Option.bind_eq_bind,
      Option.bind_some, ih _ fun c hc => h c (List.mem_cons_of_mem _ hc), Nat.ofDigitChars_cons,
      Nat.mul_comm]

theorem isDigit_of_mem {n : Nat} (h : c ∈ (toString n).toList) : c.isDigit = true := by
  rw [Nat.toString_eq_ofList_toDigits, String.toList_ofList] at h
  exact Nat.isDigit_of_mem_toDigits (by decide) (by decide) h

theorem nat?_toString (n : Nat) : nat? (toString n).toList = some n := by
  have digits := digits?_eq 0 fun c (hc : c ∈ (toString n).toList) => isDigit_of_mem hc
  rw [Nat.toString_eq_ofList_toDigits, String.toList_ofList] at digits ⊢
  rw [Nat.ofDigitChars_ten_toDigits] at digits
  cases hd : Nat.toDigits 10 n with
  | nil => exact absurd hd Nat.toDigits_ne_nil
  | cons c rest =>
    rw [nat?, ← hd, digits]
    nofun

theorem toString_negSucc (n : Nat) :
    (toString (Int.negSucc n)).toList = '-' :: (toString (n + 1)).toList := by
  change ("-" ++ toString (n + 1)).toList = _
  rw [String.toList_append]
  rfl

theorem sign_or_isDigit_of_mem {v : Int} (h : c ∈ (toString v).toList) :
    c = '-' ∨ c.isDigit = true := by
  cases v with
  | ofNat n => exact .inr (isDigit_of_mem h)
  | negSucc n =>
    rw [toString_negSucc] at h
    rcases List.mem_cons.1 h with h | h
    · exact .inl h
    · exact .inr (isDigit_of_mem h)

theorem int?_toString (v : Int) : int? (toString v).toList = some v := by
  cases v with
  | ofNat n =>
    have hn := nat?_toString n
    change int? (toString n).toList = _
    cases hd : (toString n).toList with
    | nil =>
      rw [hd] at hn
      cases hn
    | cons c rest =>
      have hc : c.isDigit = true := isDigit_of_mem (n := n) (by rw [hd]; exact List.mem_cons_self)
      rw [hd] at hn
      rw [int?, hn]
      · rfl
      · rintro _ ⟨⟩
        cases hc
      · rintro _ ⟨⟩
        cases hc
  | negSucc n =>
    rw [toString_negSucc, int?, nat?_toString]
    rfl

end Numeral

theorem Machine.constant?_toString_eq (v : Int) :
    constant? (Utf8.encode (toString v)) =
      if -2147483648 ≤ v ∧ v < 4294967296 then some (BitVec.ofInt 32 v) else none := by
  have ascii : ∀ c ∈ (toString v).toList, c.toNat < 128 := by
    intro c hc
    rcases Numeral.sign_or_isDigit_of_mem hc with rfl | hd
    · decide
    · have value : c.toNat ≤ '9'.toNat := (Bool.and_eq_true_iff.1 hd).2 |> of_decide_eq_true
      exact Nat.lt_of_le_of_lt value (by decide)
  have plain : (toString v).toList.filter (· != '_') = (toString v).toList := by
    refine List.filter_eq_self.2 fun c hc => ?_
    rcases Numeral.sign_or_isDigit_of_mem hc with rfl | hd
    · decide
    · by_contra hne
      simp only [bne_iff_ne, ne_eq, not_not] at hne
      subst hne
      cases hd
  rw [constant?, Utf8.decode_encode ascii, plain, Numeral.int?_toString]

theorem Machine.constant?_toString (h : -2147483648 ≤ v ∧ v < 4294967296) :
    constant? (Utf8.encode (toString v)) = some (BitVec.ofInt 32 v) := by
  rw [constant?_toString_eq, if_pos h]

namespace Sexpr

open Reader (isBlank endsWord)

def separators : List Char := [' ', '\t', '\r', '\n', '(', ')', '"', ';']

def isWord (text : String) : Bool := text != "" && text.toList.all fun c => !separators.contains c

/-- Texts that stand as they are between quotation marks. -/
def isVerbatim (text : String) : Bool := (Utf8.encode text).all fun b => b != 34 && b != 92

theorem endsWord_eq_false {text : String} (h : isWord text = true) :
    ∀ b ∈ Utf8.encode text, endsWord b = false := by
  intro b hb
  by_contra he
  have ends : b = 32 ∨ b = 9 ∨ b = 13 ∨ b = 10 ∨ b = 40 ∨ b = 41 ∨ b = 34 ∨ b = 59 := by
    rw [Bool.not_eq_false] at he
    simpa only [endsWord, isBlank, Bool.or_eq_true, beq_iff_eq, or_assoc] using he
  have separator : ∀ c ∈ text.toList, c ∉ separators := by
    simpa [isWord] using (Bool.and_eq_true_iff.1 h).2
  rcases ends with rfl | rfl | rfl | rfl | rfl | rfl | rfl | rfl <;>
    exact separator _ (Utf8.char_of_mem_encode hb (by decide)) (by decide)

theorem encode_ne_nil {text : String} (h : isWord text = true) : Utf8.encode text ≠ [] := by
  intro hn
  have empty : text = "" := Utf8.encode_injective hn
  subst empty
  cases h

namespace Reader

/-- The items of the innermost open list and of the lists around it, all last first, once the
bytes that were read last are taken for what they start. -/
inductive At (r : Reader) : (items : List Sexpr) → (outer : List (List Sexpr)) → Prop
  | between (mode : r.mode = .between) : At r r.items (r.opened.map (·.2))
  | word {bytes : Bytes} (mode : r.mode = .word bytes) :
      At r (.atom bytes.reverse :: r.items) (r.opened.map (·.2))
  | paren {start : Nat} (mode : r.mode = .paren start) : At r [] (r.items :: r.opened.map (·.2))

variable {r : Reader} {items : List Sexpr} {outer : List (List Sexpr)}

theorem At.read_fresh (h : At r items outer) (hb : endsWord b = true) (hs : b ≠ 59) :
    ∃ q : Reader, r.read b = q.fresh b ∧ q.items = items ∧ q.opened.map (·.2) = outer := by
  cases h with
  | between mode => exact ⟨r, by rw [read, mode], rfl, rfl⟩
  | @word bytes mode =>
    refine ⟨r.add (.atom bytes.reverse), ?_, rfl, rfl⟩
    rw [read, mode]
    exact if_pos hb
  | @paren start mode =>
    refine ⟨r.openList start, ?_, rfl, rfl⟩
    rw [read, mode]
    exact if_neg (by simpa using hs)

theorem At.blank (h : At r items outer) (hb : isBlank b = true) :
    ∃ q, r.step b = .ok q ∧ q.mode = .between ∧ At q items outer := by
  have ends : endsWord b = true := by simp [endsWord, hb]
  have hs : b ≠ 59 := by
    rintro rfl
    cases hb
  obtain ⟨q, hr, rfl, rfl⟩ := h.read_fresh ends hs
  refine ⟨{ q with mode := .between, offset := q.offset + 1 }, ?_, rfl, .between rfl⟩
  rw [step, hr, fresh, if_pos hb]
  rfl

theorem At.opening (h : At r items outer) :
    ∃ q start, r.step 40 = .ok q ∧ q.mode = .paren start ∧ At q [] (items :: outer) := by
  obtain ⟨q, hr, rfl, rfl⟩ := h.read_fresh (b := 40) rfl (by decide)
  refine ⟨{ q with mode := .paren q.offset, offset := q.offset + 1 }, q.offset, ?_, rfl,
    .paren rfl⟩
  rw [step, hr]
  rfl

theorem At.closing (h : At r items (before :: outer)) :
    ∃ q, r.step 41 = .ok q ∧ q.mode = .between ∧ At q (.list items.reverse :: before) outer := by
  obtain ⟨q, hr, rfl, ho⟩ := h.read_fresh (b := 41) rfl (by decide)
  cases hq : q.opened with
  | nil =>
    rw [hq] at ho
    cases ho
  | cons first rest =>
    rw [hq] at ho
    cases ho
    refine ⟨⟨q.offset + 1, .between, .list q.items.reverse :: first.2, rest⟩, ?_, rfl,
      .between rfl⟩
    rw [step, hr]
    change (q.closeList >>= _) = _
    rw [closeList, hq]
    rfl

theorem readAll_append (r : Reader) (xs ys : Bytes) :
    r.readAll (xs ++ ys) = r.readAll xs >>= fun q => q.readAll ys := by
  induction xs generalizing r with
  | nil => rfl
  | cons b rest ih =>
    rw [List.cons_append, readAll, readAll]
    cases r.step b with
    | error fault => rfl
    | ok q => exact ih q

theorem readAll_letters (mode : r.mode = .word pending) (h : ∀ b ∈ bytes, endsWord b = false) :
    ∃ q, r.readAll bytes = .ok q ∧ q.mode = .word (bytes.reverse ++ pending) ∧
      q.items = r.items ∧ q.opened = r.opened := by
  induction bytes generalizing r pending with
  | nil => exact ⟨r, rfl, mode, rfl, rfl⟩
  | cons b rest ih =>
    have hb := h b List.mem_cons_self
    obtain ⟨q, hq, hm, hi, ho⟩ := ih (r := ⟨r.offset + 1, .word (b :: pending), r.items, r.opened⟩)
      rfl fun b hb => h b (List.mem_cons_of_mem _ hb)
    refine ⟨q, ?_, by rw [hm]; simp, hi, ho⟩
    rw [readAll, step, read, mode]
    simp only [hb]
    exact hq

theorem fresh_letter (h : endsWord b = false) (q : Reader) :
    q.fresh b = .ok { q with mode := .word [b] } := by
  simp only [endsWord, Bool.or_eq_false_iff] at h
  obtain ⟨⟨⟨⟨blank, open_⟩, close⟩, quote⟩, semicolon⟩ := h
  simp only [fresh, blank, open_, close, quote, semicolon, Bool.false_eq_true, if_false]

theorem At.letters (h : At r items outer)
    (clean : r.mode = .between ∨ ∃ start, r.mode = .paren start) {word : Bytes} (filled : word ≠ [])
    (letters : ∀ b ∈ word, endsWord b = false) :
    ∃ q, r.readAll word = .ok q ∧ At q (.atom word :: items) outer := by
  cases word with
  | nil => exact absurd rfl filled
  | cons b rest =>
    have hb := letters b List.mem_cons_self
    have first : ∃ q, r.step b = .ok q ∧ q.mode = .word [b] ∧ q.items = items ∧
        q.opened.map (·.2) = outer := by
      have hs : (b == 59) = false := by
        simp only [endsWord, Bool.or_eq_false_iff] at hb
        exact hb.2
      rcases clean with mode | ⟨start, mode⟩
      · cases h with
        | between _ =>
          refine ⟨⟨r.offset + 1, .word [b], r.items, r.opened⟩, ?_, rfl, rfl, rfl⟩
          rw [step, read, mode]
          simp only [fresh_letter hb]
          rfl
        | word other => rw [mode] at other; cases other
        | paren other => rw [mode] at other; cases other
      · cases h with
        | between other => rw [mode] at other; cases other
        | word other => rw [mode] at other; cases other
        | paren _ =>
          refine ⟨⟨r.offset + 1, .word [b], [], (start, r.items) :: r.opened⟩, ?_, rfl, rfl, rfl⟩
          rw [step, read, mode]
          simp only [hs, fresh_letter hb]
          rfl
    obtain ⟨q, hq, hm, rfl, rfl⟩ := first
    obtain ⟨u, hu, humode, hui, huo⟩ :=
      readAll_letters hm fun b hb => letters b (List.mem_cons_of_mem _ hb)
    refine ⟨u, by rw [readAll, hq]; exact hu, ?_⟩
    have at' := At.word humode
    rw [hui, huo] at at'
    simpa using at'

/-- What stands between the quotation marks of a string: a backslash takes the next byte along. -/
inductive Quoted : Bytes → Prop
  | nil : Quoted []
  | plain {b : UInt8} {rest : Bytes} (quote : b ≠ 34) (backslash : b ≠ 92) (h : Quoted rest) :
      Quoted (b :: rest)
  | escape {b : UInt8} {rest : Bytes} (h : Quoted rest) : Quoted (92 :: b :: rest)

theorem Quoted.verbatim (h : ∀ b ∈ bytes, b ≠ 34 ∧ b ≠ 92) : Quoted bytes := by
  induction bytes with
  | nil => exact .nil
  | cons b rest ih =>
    obtain ⟨quote, backslash⟩ := h b List.mem_cons_self
    exact .plain quote backslash (ih fun b hb => h b (List.mem_cons_of_mem _ hb))

/-- The rest of a string is read up to its quotation mark. What has been read of it is kept last
byte first. -/
theorem readAll_quoted (h : Quoted rest) {start : Nat} (mode : r.mode = .string start pending false) :
    ∃ q, r.readAll (rest ++ [34]) = .ok q ∧ q.mode = .between ∧
      q.items = .atom (pending.reverse ++ rest ++ [34]) :: r.items ∧ q.opened = r.opened := by
  induction h generalizing r pending with
  | nil =>
    refine ⟨⟨r.offset + 1, .between, .atom (34 :: pending).reverse :: r.items, r.opened⟩, ?_, rfl,
      by simp, rfl⟩
    rw [List.nil_append, readAll, step, read, mode]
    rfl
  | @plain b rest quote backslash _ ih =>
    obtain ⟨q, hq, hm, hi, ho⟩ :=
      @ih ⟨r.offset + 1, .string start (b :: pending) false, r.items, r.opened⟩ (b :: pending) rfl
    refine ⟨q, ?_, hm, by simpa using hi, ho⟩
    rw [List.cons_append, readAll, step, read, mode]
    simp only [beq_eq_false_iff_ne.2 quote, beq_eq_false_iff_ne.2 backslash]
    exact hq
  | @escape b rest _ ih =>
    obtain ⟨q, hq, hm, hi, ho⟩ :=
      @ih ⟨r.offset + 2, .string start (b :: 92 :: pending) false, r.items, r.opened⟩
        (b :: 92 :: pending) rfl
    refine ⟨q, ?_, hm, by simpa using hi, ho⟩
    rw [List.cons_append, List.cons_append, readAll, step, read, mode]
    exact hq

theorem At.quoted (h : At r items outer) (hb : Quoted bytes) :
    ∃ q, r.readAll (34 :: bytes ++ [34]) = .ok q ∧ q.mode = .between ∧
      At q (.atom (34 :: bytes ++ [34]) :: items) outer := by
  obtain ⟨q, hr, rfl, rfl⟩ := h.read_fresh (b := 34) rfl (by decide)
  obtain ⟨u, hu, hm, hi, ho⟩ := readAll_quoted hb
    (r := ⟨q.offset + 1, .string q.offset [34] false, q.items, q.opened⟩) rfl
  have between : At u u.items (u.opened.map (·.2)) := .between hm
  rw [hi, ho] at between
  refine ⟨u, ?_, hm, by simpa using between⟩
  rw [List.cons_append, readAll, step, hr]
  exact hu

theorem At.finish (h : At r items []) : r.finish = .ok items.reverse := by
  generalize ho : ([] : List (List Sexpr)) = outer at h
  cases h with
  | between mode =>
    rw [Reader.finish, mode]
    simp [close, List.map_eq_nil_iff.1 ho.symm]
  | word mode =>
    rw [Reader.finish, mode]
    simp [close, add, List.map_eq_nil_iff.1 ho.symm]
  | paren mode => cases ho

end Reader

/-- Reading the text adds the forms to the innermost open list. -/
def Spells (text : String) (forms : List Sexpr) : Prop :=
  ∀ (r : Reader) (items : List Sexpr) (outer : List (List Sexpr)), Reader.At r items outer →
    ∃ q, r.readAll (Utf8.encode text) = .ok q ∧ Reader.At q (forms.reverse ++ items) outer

namespace Spells

theorem nil : Spells "" [] := fun r _ _ h => ⟨r, rfl, h⟩

theorem append (ha : Spells a fs) (hb : Spells b gs) : Spells (a ++ b) (fs ++ gs) := by
  intro r items outer h
  obtain ⟨q, hq, hat⟩ := ha r items outer h
  obtain ⟨u, hu, hat'⟩ := hb q _ outer hat
  refine ⟨u, ?_, by simpa using hat'⟩
  rw [Utf8.encode_append, Reader.readAll_append, hq]
  exact hu

theorem congr (ha : Spells a fs) (ht : b = a) (hf : gs = fs) : Spells b gs := by
  rw [ht, hf]
  exact ha

theorem blanks {text : String} (h : ∀ c ∈ text.toList, c = ' ' ∨ c = '\n') : Spells text [] := by
  have bytes : ∀ b ∈ Utf8.encode text, Reader.isBlank b = true := by
    intro b hb
    obtain ⟨c, hc, hbc⟩ := List.mem_flatMap.1 hb
    rcases h c hc with rfl | rfl <;> rw [List.mem_singleton.1 hbc] <;> rfl
  unfold Spells
  generalize Utf8.encode text = blanks at bytes
  intro r items outer hat
  induction blanks generalizing r with
  | nil => exact ⟨r, rfl, hat⟩
  | cons b rest ih =>
    obtain ⟨q, hq, -, hat'⟩ := hat.blank (bytes b List.mem_cons_self)
    obtain ⟨u, hu, hat''⟩ := ih (fun b hb => bytes b (List.mem_cons_of_mem _ hb)) q hat'
    refine ⟨u, ?_, hat''⟩
    rw [Reader.readAll, hq]
    exact hu

theorem word (hw : isWord w = true) :
    Spells (" " ++ w) [.atom (Utf8.encode w)] := by
  intro r items outer hat
  obtain ⟨q, hq, hm, hat'⟩ := hat.blank (b := 32) rfl
  obtain ⟨u, hu, hat''⟩ := hat'.letters (.inl hm) (encode_ne_nil hw) (endsWord_eq_false hw)
  refine ⟨u, ?_, hat''⟩
  rw [Utf8.encode_append]
  change (r.step 32 >>= _) = _
  rw [hq]
  exact hu

theorem quoted {text : String} (h : isVerbatim text = true) :
    Spells (" \"" ++ text ++ "\"") [.atom (34 :: Utf8.encode text ++ [34])] := by
  intro r items outer hat
  obtain ⟨q, hq, -, hat'⟩ := hat.blank (b := 32) rfl
  obtain ⟨u, hu, -, hat''⟩ := hat'.quoted (.verbatim (by simpa [isVerbatim] using h))
  refine ⟨u, ?_, hat''⟩
  rw [Utf8.encode_append, Utf8.encode_append]
  change (r.step 32 >>= _) = _
  rw [hq]
  exact hu

theorem readAll_list {inner : String} {items : List Sexpr} (hw : isWord w = true)
    (h : Spells inner items) (hat : Reader.At r before outer) :
    ∃ q, r.readAll (Utf8.encode ("(" ++ w ++ inner ++ ")")) = .ok q ∧ q.mode = .between ∧
      Reader.At q (.list (.atom (Utf8.encode w) :: items) :: before) outer := by
  obtain ⟨q, start, hq, hm, hopen⟩ := hat.opening
  obtain ⟨u, hu, hword⟩ := hopen.letters (.inr ⟨start, hm⟩) (encode_ne_nil hw)
    (endsWord_eq_false hw)
  obtain ⟨v, hv, hinner⟩ := h u _ _ hword
  obtain ⟨z, hz, hclean, hclosed⟩ := hinner.closing
  refine ⟨z, ?_, hclean, by simpa using hclosed⟩
  have bytes : Utf8.encode ("(" ++ w ++ inner ++ ")") =
      40 :: (Utf8.encode w ++ (Utf8.encode inner ++ [41])) := by
    simp only [Utf8.encode_append, List.append_assoc]
    rfl
  rw [bytes, Reader.readAll, hq]
  change q.readAll _ = _
  rw [Reader.readAll_append, hu]
  change u.readAll _ = _
  rw [Reader.readAll_append, hv]
  change (v.step 41 >>= _) = _
  rw [hz]
  rfl

theorem list {inner : String} {items : List Sexpr} (hw : isWord w = true) (h : Spells inner items) :
    Spells ("(" ++ w ++ inner ++ ")") [.list (.atom (Utf8.encode w) :: items)] := by
  intro r before outer hat
  obtain ⟨q, hq, -, hat'⟩ := readAll_list hw h hat
  exact ⟨q, hq, hat'⟩

theorem list_word {inner word : String} {items : List Sexpr} (hw : isWord w = true)
    (h : Spells inner items) (hword : isWord word = true) :
    Spells ("(" ++ w ++ inner ++ ")" ++ word)
      [.list (.atom (Utf8.encode w) :: items), .atom (Utf8.encode word)] := by
  intro r before outer hat
  obtain ⟨q, hq, hm, hat'⟩ := readAll_list hw h hat
  obtain ⟨u, hu, hat''⟩ :=
    hat'.letters (.inl hm) (encode_ne_nil hword) (endsWord_eq_false hword)
  refine ⟨u, ?_, hat''⟩
  rw [Utf8.encode_append, Reader.readAll_append, hq]
  exact hu

theorem join {α : Type} {text : α → String} {forms : α → List Sexpr} {xs : List α}
    (h : ∀ x ∈ xs, Spells (text x) (forms x)) :
    Spells (String.join (xs.map text)) (xs.flatMap forms) := by
  induction xs with
  | nil => exact nil
  | cons x rest ih =>
    have first := h x List.mem_cons_self
    have others := ih fun y hy => h y (List.mem_cons_of_mem _ hy)
    refine (first.append others).congr ?_ rfl
    simp

theorem readText_eq {text : String} (h : Spells text forms) :
    readText (Utf8.encode text) = .ok forms := by
  obtain ⟨q, hq, hat⟩ := h .start [] [] (.between rfl)
  rw [readText, hq]
  change q.finish = _
  simpa using hat.finish

end Spells

end Sexpr

end WordScript
