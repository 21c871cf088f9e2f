import WordScript.Proofs.MachineSafety

/-! Folded and flat instructions.

The operands of an instruction may be written inside it, and then run before it. Unfolding writes them
before it instead. Both forms of a sequence do the same; they differ only in how deep the instructions
are nested and so in the fuel that they need. -/
namespace WordScript
namespace Machine

/-- The label among the operands of a structured instruction. -/
def labelItems (items : List Sexpr) : List Sexpr := (items.take 1).filter (·.isName)

mutual

/-- An instruction after the operands that are written inside it. The conditions of a conditional are
written before it, and its arms and the bodies of blocks and loops are unfolded in their place. What
does not start with a word is left as it is. -/
def flat : Sexpr → List Sexpr
  | .list (.atom op :: items) =>
    if op = [] then [.list (.atom op :: items)]
    else if op = keyword "block" ∨ op = keyword "loop" then
      [.list (.atom op :: flatWhere (fun _ => true) items)]
    else if op = keyword "if" then
      flatTests items ++ [.list (.atom op :: (labelItems items ++ flatArms items))]
    else flatWhere (·.isList) items ++ [.list (.atom op :: items.filter (!·.isList))]
  | s => [s]

/-- The instructions of a kind among some, all unfolded. -/
def flatWhere (p : Sexpr → Bool) : List Sexpr → List Sexpr
  | [] => []
  | s :: rest => if p s then flat s ++ flatWhere p rest else flatWhere p rest

/-- The operands of a conditional other than its label and its arms, all unfolded. -/
def flatTests : List Sexpr → List Sexpr
  | [] => []
  | s :: rest =>
    if s.isName || isArm s then flatWhere (!isArm ·) rest else flat s ++ flatWhere (!isArm ·) rest

def flatArms : List Sexpr → List Sexpr
  | [] => []
  | s :: rest => if isArm s then flatArm s :: flatArms rest else flatArms rest

def flatArm : Sexpr → Sexpr
  | .list (word :: body) => .list (word :: flatWhere (fun _ => true) body)
  | s => s

end

/-- A sequence of instructions with all of them unfolded. -/
def flatSeq (code : List Sexpr) : List Sexpr := flatWhere (fun _ => true) code

mutual

/-- Whether all that unfolding takes out of conditionals are lists. -/
def hoistsLists : Sexpr → Bool
  | .list (.atom op :: items) =>
    op = [] || ((op != keyword "if" || (splitLabel items).2.all fun i => isArm i || i.isList) &&
      hoistsListsAll items)
  | _ => true

def hoistsListsAll : List Sexpr → Bool
  | [] => true
  | s :: rest => hoistsLists s && hoistsListsAll rest

end

theorem flatWhere_eq (p : Sexpr → Bool) (items : List Sexpr) :
    flatWhere p items = (items.filter p).flatMap flat := by
  induction items with
  | nil => rfl
  | cons s rest ih => cases h : p s <;> simp [flatWhere, h, ih]

theorem flatSeq_eq (code : List Sexpr) : flatSeq code = code.flatMap flat := by
  rw [flatSeq, flatWhere_eq, List.filter_eq_self.2 fun _ _ => rfl]

theorem flatArms_eq (items : List Sexpr) : flatArms items = (items.filter isArm).map flatArm := by
  induction items with
  | nil => rfl
  | cons s rest ih => cases h : isArm s <;> simp [flatArms, h, ih]

theorem flatTests_eq (items : List Sexpr) :
    flatTests items = ((splitLabel items).2.filter (!isArm ·)).flatMap flat := by
  cases items with
  | nil => rfl
  | cons s rest =>
    cases name : s.isName <;> cases arm : isArm s <;>
      simp [flatTests, splitLabel, name, arm, flatWhere_eq]

/-- The words of instructions that are neither blocks nor loops nor conditionals. -/
structure IsPlain (op : Bytes) : Prop where
  filled : op ≠ []
  block : op ≠ keyword "block"
  loop : op ≠ keyword "loop"
  cond : op ≠ keyword "if"

/-- An instruction with no operands to run inside it, at any depth of blocks, loops and arms. -/
inductive IsFlat : Sexpr → Prop
  | formless {s : Sexpr} (head : s.head = []) : IsFlat s
  | plain {s : Sexpr} (head : IsPlain s.head) (bare : inner s = []) : IsFlat s
  | structured {s : Sexpr} (head : s.head = keyword "block" ∨ s.head = keyword "loop")
      (body : ∀ x ∈ s.operands, IsFlat x) : IsFlat s
  | cond {s : Sexpr} (head : s.head = keyword "if") (bare : tests s = [])
      (arms : ∀ a ∈ s.operands, ∀ x ∈ a.operands, IsFlat x) : IsFlat s

section ends

variable {α β : Type} {c c' c'' : Nat → Exec α}
variable {rest rest' : Nat → Exec Control}

/-- Runs with more fuel have the same end unless the fuel was too little. -/
def Growing (c : Nat → Exec α) : Prop := ∀ fuel, Prolongs (c fuel) (c (fuel + 1))

/-- What the runs of a family end in, those of another one end in with enough more fuel. -/
def KeepsEnds (c c' : Nat → Exec α) : Prop :=
  ∃ least, ∀ extra ≥ least, ∀ fuel, Prolongs (c fuel) (c' (fuel + extra))

/-- Families of runs with the same ends, whatever the fuel that they need. -/
structure SameEnds (c c' : Nat → Exec α) : Prop where
  forth : KeepsEnds c c'
  back : KeepsEnds c' c

theorem Prolongs.trans (h : Prolongs x y) (k : Prolongs y z) : Prolongs x z := by
  intro s
  rcases h s with out | same
  · exact .inl out
  · rcases k s with out | same'
    · exact .inl (same ▸ out)
    · exact .inr (same'.trans same)

theorem Growing.le (h : Growing c) (le : m ≤ n) : Prolongs (c m) (c n) := by
  induction le with
  | refl => exact .refl _
  | step _ ih => exact ih.trans (h _)

theorem growing_const (x : Exec α) : Growing fun _ => x := fun _ => .refl x

theorem Growing.resume {c : Nat → Exec Control} (h : Growing c) (k : Growing rest) :
    Growing fun fuel => c fuel >>= resume (rest fuel) :=
  fun fuel => prolongs_lifts.resume (h fuel) (k fuel)

theorem KeepsEnds.trans (h : KeepsEnds c c') (k : KeepsEnds c' c'') : KeepsEnds c c'' := by
  obtain ⟨least, hc⟩ := h
  obtain ⟨least', hc'⟩ := k
  refine ⟨least + least', fun extra more fuel => ?_⟩
  have split : fuel + extra = fuel + least + (extra - least) := by omega
  rw [split]
  exact (hc least (Nat.le_refl _) fuel).trans (hc' _ (by omega) _)

theorem KeepsEnds.resume {c c' : Nat → Exec Control} (h : KeepsEnds c c')
    (k : KeepsEnds rest rest') :
    KeepsEnds (fun fuel => c fuel >>= resume (rest fuel))
      fun fuel => c' fuel >>= resume (rest' fuel) := by
  obtain ⟨least, hc⟩ := h
  obtain ⟨least', hr⟩ := k
  refine ⟨max least least', fun extra more fuel => ?_⟩
  exact prolongs_lifts.resume (hc extra (by omega) fuel) (hr extra (by omega) fuel)

theorem Growing.keepsEnds (h : Growing c) : KeepsEnds c c :=
  ⟨0, fun _ _ _ => h.le (Nat.le_add_right ..)⟩

theorem Growing.sameEnds (h : Growing c) : SameEnds c c := ⟨h.keepsEnds, h.keepsEnds⟩

theorem SameEnds.symm (h : SameEnds c c') : SameEnds c' c := ⟨h.back, h.forth⟩

theorem SameEnds.trans (h : SameEnds c c') (k : SameEnds c' c'') : SameEnds c c'' :=
  ⟨h.forth.trans k.forth, k.back.trans h.back⟩

theorem SameEnds.resume {c c' : Nat → Exec Control} (h : SameEnds c c') (k : SameEnds rest rest') :
    SameEnds (fun fuel => c fuel >>= resume (rest fuel))
      fun fuel => c' fuel >>= resume (rest' fuel) :=
  ⟨h.forth.resume k.forth, h.back.resume k.back⟩

theorem KeepsEnds.later (h : KeepsEnds c c') : KeepsEnds (later c) (later c') := by
  obtain ⟨least, hc⟩ := h
  refine ⟨least, fun extra more fuel => ?_⟩
  cases fuel with
  | zero => exact prolongs_lifts.outOfFuel _
  | succ fuel =>
    rw [Nat.add_right_comm]
    exact hc extra more fuel

theorem SameEnds.later (h : SameEnds c c') : SameEnds (later c) (later c') :=
  ⟨h.forth.later, h.back.later⟩

theorem Growing.later (h : Growing c) : SameEnds (later c) c := by
  refine ⟨⟨0, fun extra _ fuel => ?_⟩, ⟨1, fun extra more fuel => ?_⟩⟩
  · cases fuel with
    | zero => exact prolongs_lifts.outOfFuel _
    | succ fuel => exact h.le (by omega)
  · obtain ⟨k, rfl⟩ : ∃ k, extra = k + 1 := ⟨extra - 1, by omega⟩
    exact h.le (Nat.le_add_right ..)

theorem KeepsEnds.ends (h : KeepsEnds c c') (done : ¬ OutOfFuel r)
    (ends : ∃ fuel, (c fuel).run s = r) : ∃ fuel, (c' fuel).run s = r := by
  obtain ⟨least, keeps⟩ := h
  obtain ⟨fuel, rfl⟩ := ends
  rcases keeps least (Nat.le_refl _) fuel s with out | same
  · exact absurd out done
  · exact ⟨fuel + least, same⟩

end ends

section sequences

variable (env : Env) (d : Nat)

theorem growing_seq (code : List Sexpr) : Growing fun fuel => seq env fuel d code :=
  fun fuel => (more_fuel env fuel).seq d code

theorem growing_instr (i : Sexpr) : Growing fun fuel => instr env fuel d i :=
  fun fuel => (more_fuel env fuel).instr d i

theorem bind_resume_next (x : Exec Control) : x >>= resume (pure .next) = x := by
  refine (congrArg (x >>= ·) (funext fun c => ?_)).trans (bind_pure x)
  cases c <;> rfl

theorem seq_nil_sameEnds : SameEnds (fun fuel => seq env fuel d []) fun _ => pure .next := by
  rw [seq_nil_eq]
  exact (growing_const _).later

theorem seq_cons_sameEnds (i : Sexpr) (rest : List Sexpr) :
    SameEnds (fun fuel => seq env fuel d (i :: rest))
      fun fuel => instr env fuel d i >>= resume (seq env fuel d rest) := by
  rw [seq_cons_eq]
  exact ((growing_instr env d i).resume (growing_seq env d rest)).later

theorem seq_singleton_sameEnds (i : Sexpr) :
    SameEnds (fun fuel => seq env fuel d [i]) fun fuel => instr env fuel d i := by
  have step := (growing_instr env d i).sameEnds.resume (seq_nil_sameEnds env d)
  simp only [bind_resume_next] at step
  exact (seq_cons_sameEnds env d i []).trans step

theorem seq_append_sameEnds (xs ys : List Sexpr) :
    SameEnds (fun fuel => seq env fuel d (xs ++ ys))
      fun fuel => seq env fuel d xs >>= resume (seq env fuel d ys) := by
  have growing := growing_seq env d ys
  have first := (growing_seq env d xs).keepsEnds
  simp only [seq_append_eq env d xs ys]
  exact ⟨first.resume ⟨0, fun extra _ fuel => growing.le (by omega)⟩,
    first.resume ⟨xs.length, fun extra more fuel => growing.le (by omega)⟩⟩

variable {env d}

theorem seq_flatMap_sameEnds
    (h : ∀ i ∈ code, SameEnds (fun fuel => instr env fuel d i) fun fuel => seq env fuel d (f i)) :
    SameEnds (fun fuel => seq env fuel d code) fun fuel => seq env fuel d (code.flatMap f) := by
  induction code with
  | nil => exact (growing_seq env d []).sameEnds
  | cons i rest ih =>
    have first := h i List.mem_cons_self
    have others := ih fun j hj => h j (List.mem_cons_of_mem _ hj)
    rw [List.flatMap_cons]
    exact ((seq_cons_sameEnds env d i rest).trans (first.resume others)).trans
      (seq_append_sameEnds env d (f i) _).symm

theorem hoisted_sameEnds
    (hi : (fun fuel => instr env fuel d i) = later fun fuel => seq env fuel d xs >>= resume (c fuel))
    (hj : (fun fuel => instr env fuel d j) = later fun fuel => seq env fuel d [] >>= resume (c' fuel))
    (growing : Growing c) (growing' : Growing c')
    (operands : SameEnds (fun fuel => seq env fuel d xs) fun fuel => seq env fuel d ys)
    (same : SameEnds c c') :
    SameEnds (fun fuel => instr env fuel d i) fun fuel => seq env fuel d (ys ++ [j]) := by
  have inside : SameEnds (fun fuel => instr env fuel d i)
      fun fuel => seq env fuel d ys >>= resume (c' fuel) := by
    rw [hi]
    exact ((growing_seq env d xs).resume growing).later.trans (operands.resume same)
  have alone : SameEnds (fun fuel => instr env fuel d j) c' := by
    rw [hj]
    exact ((growing_seq env d []).resume growing').later.trans
      ((seq_nil_sameEnds env d).resume growing'.sameEnds)
  have last := (seq_singleton_sameEnds env d j).trans alone
  exact inside.trans ((seq_append_sameEnds env d ys [j]).trans
    ((growing_seq env d ys).sameEnds.resume last)).symm

end sequences

section instructions

variable {env : Env} {d : Nat}

theorem growing_perform (op : Bytes) (imms : List Bytes) :
    Growing fun fuel => perform env fuel d op imms :=
  fun fuel => prolongs_lifts.perform (more_fuel env fuel) d op imms

theorem growing_choose (i : Sexpr) : Growing fun fuel => choose env fuel d i :=
  fun fuel => prolongs_lifts.choose (more_fuel env fuel) d i

theorem instr_eq_later (h : ∀ fuel, instr env (fuel + 1) d i = c fuel) :
    (fun fuel => instr env fuel d i) = later c :=
  eq_later (by rw [instr]) h

theorem mem_names_of_ofName? (h : Op.ofName? name = some op) : (name, op) ∈ Op.names := by
  obtain ⟨front, rest, split, -⟩ := List.lookup_eq_some_iff.1 h
  rw [split]
  simp

theorem eq_keyword_of_structured (h : Op.ofName? name = some op) :
    (op = .block → name = keyword "block") ∧ (op = .loop → name = keyword "loop") ∧
      (op = .cond → name = keyword "if") := by
  have table : ∀ e ∈ Op.names, (e.2 = .block → e.1 = keyword "block") ∧
      (e.2 = .loop → e.1 = keyword "loop") ∧ (e.2 = .cond → e.1 = keyword "if") := by decide
  exact table _ (mem_names_of_ofName? h)

theorem instr_eq_perform (h : IsPlain i.head) :
    (fun fuel => instr env fuel d i) =
      later fun fuel => seq env fuel d (inner i) >>= resume (perform env fuel d i.head (immediates i)) := by
  refine instr_eq_later (instr_eq_plain (List.isEmpty_eq_false_iff.2 h.filled) fun o mem op => ?_)
  obtain ⟨block, loop, cond⟩ := eq_keyword_of_structured op
  simp only [List.mem_cons, List.not_mem_nil, or_false] at mem
  rcases mem with rfl | rfl | rfl
  · exact h.block (block rfl)
  · exact h.loop (loop rfl)
  · exact h.cond (cond rfl)

/-- Bodies with the same ends have the same ends when they are passed through. The bound on the fuel
does not depend on the label or on the height of the stack. -/
theorem passes_keepsEnds (isLoop : Bool) (label : Option Bytes)
    (h : KeepsEnds (fun fuel => seq env fuel d body) fun fuel => seq env fuel d body') :
    KeepsEnds (fun fuel => height >>= fun n => passes env fuel d isLoop label n body)
      fun fuel => height >>= fun n => passes env fuel d isLoop label n body' := by
  obtain ⟨least, keeps⟩ := h
  refine ⟨least, fun extra more fuel => (Prolongs.refl _).bind fun n => ?_⟩
  induction fuel with
  | zero =>
    rw [passes]
    exact prolongs_lifts.outOfFuel _
  | succ fuel ih =>
    rw [Nat.add_right_comm, passes_succ, passes_succ]
    refine (Prolongs.refl _).bind fun _ => (keeps extra more fuel).bind fun c => ?_
    exact prolongs_lifts.repass ih c

theorem choose_keepsEnds (label : (splitLabel j.operands).1 = (splitLabel i.operands).1)
    (arms : ∀ kind, kind = keyword "then" ∨ kind = keyword "else" → KeepsEnds (fun fuel => seq env fuel d (arm kind (splitLabel i.operands).2)) fun fuel => seq env fuel d (arm kind (splitLabel j.operands).2)) :
    KeepsEnds (fun fuel => choose env fuel d i) fun fuel => choose env fuel d j := by
  obtain ⟨least, yes⟩ := arms _ (.inl rfl)
  obtain ⟨least', no⟩ := arms _ (.inr rfl)
  refine ⟨max least least', fun extra more fuel => ?_⟩
  refine (Prolongs.refl _).bind fun v => (Prolongs.refl _).bind fun n => ?_
  rw [label]
  refine Prolongs.bind ?_ fun c => .refl _
  split
  · exact no extra (by omega) fuel
  · exact yes extra (by omega) fuel

section same

variable {i j : Sexpr} {before : List Sexpr} (head : j.head = i.head)

include head

theorem plain_sameEnds (plain : IsPlain i.head) (bare : inner j = [])
    (imms : immediates j = immediates i)
    (operands : SameEnds (fun fuel => seq env fuel d (inner i)) fun fuel => seq env fuel d before) :
    SameEnds (fun fuel => instr env fuel d i) fun fuel => seq env fuel d (before ++ [j]) := by
  have growing : Growing fun fuel => perform env fuel d i.head (immediates i) := growing_perform _ _
  have alone : (fun fuel => instr env fuel d j) = later fun fuel =>
      seq env fuel d (inner j) >>= resume (perform env fuel d j.head (immediates j)) :=
    instr_eq_perform (head ▸ plain)
  rw [bare, imms, head] at alone
  exact hoisted_sameEnds (instr_eq_perform plain) alone growing growing operands growing.sameEnds

theorem structured_sameEnds (filled : i.head.isEmpty = false) (isLoop : Bool)
    (op : Op.ofName? i.head = some (if isLoop then .loop else .block))
    (label : (splitLabel j.operands).1 = (splitLabel i.operands).1)
    (body : SameEnds (fun fuel => seq env fuel d (splitLabel i.operands).2)
      fun fuel => seq env fuel d (splitLabel j.operands).2) :
    SameEnds (fun fuel => instr env fuel d i) fun fuel => instr env fuel d j := by
  rw [instr_eq_later (instr_eq_passes isLoop filled op),
    instr_eq_later (instr_eq_passes isLoop (head ▸ filled) (head ▸ op)), label]
  exact SameEnds.later ⟨passes_keepsEnds isLoop _ body.forth, passes_keepsEnds isLoop _ body.back⟩

theorem cond_sameEnds (filled : i.head.isEmpty = false) (op : Op.ofName? i.head = some .cond)
    (label : (splitLabel j.operands).1 = (splitLabel i.operands).1) (bare : tests j = [])
    (operands : SameEnds (fun fuel => seq env fuel d (tests i)) fun fuel => seq env fuel d before)
    (arms : ∀ kind, kind = keyword "then" ∨ kind = keyword "else" →
      SameEnds (fun fuel => seq env fuel d (arm kind (splitLabel i.operands).2))
        fun fuel => seq env fuel d (arm kind (splitLabel j.operands).2)) :
    SameEnds (fun fuel => instr env fuel d i) fun fuel => seq env fuel d (before ++ [j]) := by
  have alone : (fun fuel => instr env fuel d j) = later fun fuel =>
      seq env fuel d (tests j) >>= resume (choose env fuel d j) :=
    instr_eq_later (instr_eq_cond (head ▸ filled) (head ▸ op))
  rw [bare] at alone
  refine hoisted_sameEnds (instr_eq_later (instr_eq_cond filled op)) alone
    (growing_choose _) (growing_choose _) operands ?_
  exact ⟨choose_keepsEnds label fun kind hk => (arms kind hk).forth,
    choose_keepsEnds label.symm fun kind hk => (arms kind hk).back⟩

end same

end instructions

section unfolding

variable {env : Env} {d : Nat} {items : List Sexpr} {op : Bytes}
variable {s : Sexpr}

theorem filled_of_structured (h : op = keyword "block" ∨ op = keyword "loop") : op ≠ [] := by
  rcases h with rfl | rfl <;> decide

theorem flat_formless (h : s.head = []) : flat s = [s] := by
  unfold flat
  split
  · exact if_pos h
  · rfl

theorem flat_structured (h : op = keyword "block" ∨ op = keyword "loop") :
    flat (.list (.atom op :: items)) = [.list (.atom op :: items.flatMap flat)] := by
  rw [flat, if_neg (filled_of_structured h), if_pos h]
  exact congrArg (fun body => [Sexpr.list (.atom op :: body)]) (flatSeq_eq items)

theorem flat_cond : flat (.list (.atom (keyword "if") :: items)) =
    (tests (.list (.atom (keyword "if") :: items))).flatMap flat ++
      [.list (.atom (keyword "if") :: (labelItems items ++ (items.filter isArm).map flatArm))] := by
  rw [flat, if_neg (by decide), if_neg (by decide), if_pos rfl, flatTests_eq, flatArms_eq]
  rfl

theorem flat_plain (h : IsPlain op) : flat (.list (.atom op :: items)) =
    (inner (.list (.atom op :: items))).flatMap flat ++
      [.list (.atom op :: items.filter (!·.isList))] := by
  rw [flat, if_neg h.filled, if_neg (not_or.2 ⟨h.block, h.loop⟩), if_neg h.cond, flatWhere_eq]
  rfl

theorem mem_of_mem_splitLabel (h : s ∈ (splitLabel items).2) : s ∈ items := by
  cases items with
  | nil => exact h
  | cons i rest =>
    rw [splitLabel] at h
    split at h
    · exact List.mem_cons_of_mem _ h
    · exact h

theorem mem_of_mem_tests (h : s ∈ tests (.list (.atom op :: items))) : s ∈ items :=
  mem_of_mem_splitLabel (List.mem_filter.1 h).1

theorem mem_of_mem_inner (h : s ∈ inner (.list (.atom op :: items))) : s ∈ items :=
  (List.mem_filter.1 h).1

theorem mem_of_mem_arm (h : s ∈ arm kind items) : ∃ a ∈ items, a.head = kind ∧ s ∈ a.operands := by
  unfold arm at h
  cases last : (items.filter (·.head == kind)).getLast? with
  | none => simp [last] at h
  | some a =>
    obtain ⟨member, head⟩ := List.mem_filter.1 (List.mem_of_getLast? last)
    exact ⟨a, member, eq_of_beq head, by simpa [last] using h⟩

theorem sizeOf_operand_lt (h : x ∈ s.operands) : sizeOf x < sizeOf s := by
  rcases s with _ | _ | ⟨word, body⟩
  · cases h
  · cases h
  · have inside : x ∈ body := h
    have := List.sizeOf_lt_of_mem inside
    simp only [Sexpr.list.sizeOf_spec, List.cons.sizeOf_spec]
    omega

/-- Induction over the instructions that are inside others. Those in an arm of a conditional are two
levels below it. -/
theorem instr_induction {motive : Sexpr → Prop}
    (formless : ∀ s, s.head = [] → motive s)
    (structured : ∀ op items, op = keyword "block" ∨ op = keyword "loop" → (∀ x ∈ items, motive x) →
      motive (.list (.atom op :: items)))
    (cond : ∀ items, (∀ x ∈ items, motive x) → (∀ a ∈ items, ∀ x ∈ a.operands, motive x) →
      motive (.list (.atom (keyword "if") :: items)))
    (plain : ∀ op items, IsPlain op → (∀ x ∈ items, motive x) → motive (.list (.atom op :: items)))
    (s : Sexpr) : motive s := by
  induction size : sizeOf s using Nat.strongRecOn generalizing s with
  | ind n ih =>
    subst size
    by_cases head : s.head = []
    · exact formless s head
    obtain ⟨op, items, rfl⟩ : ∃ op items, s = .list (.atom op :: items) := by
      unfold Sexpr.head at head
      split at head
      · exact ⟨_, _, rfl⟩
      · exact absurd rfl head
    have inside (x : Sexpr) (hx : x ∈ items) : sizeOf x < sizeOf (Sexpr.list (.atom op :: items)) :=
      sizeOf_operand_lt hx
    have below (x : Sexpr) (hx : x ∈ items) : motive x := ih _ (inside x hx) x rfl
    by_cases block : op = keyword "block"
    · exact structured op items (.inl block) below
    by_cases loop : op = keyword "loop"
    · exact structured op items (.inr loop) below
    by_cases test : op = keyword "if"
    · subst test
      refine cond items below fun a ha x hx => ?_
      exact ih _ (Nat.lt_trans (sizeOf_operand_lt hx) (inside a ha)) x rfl
    · exact plain op items ⟨head, block, loop, test⟩ below

section lists

variable {s : Sexpr}

theorem hoistsListsAll_iff : hoistsListsAll items = true ↔ ∀ s ∈ items, hoistsLists s = true := by
  induction items with
  | nil => simp [hoistsListsAll]
  | cons s rest ih => simp [hoistsListsAll, ih]

theorem hoistsLists_of_mem (filled : op ≠ []) (h : hoistsLists (.list (.atom op :: items)) = true)
    (hs : s ∈ items) : hoistsLists s = true := by
  simp only [hoistsLists, decide_eq_true_eq, Bool.or_eq_true, filled, false_or,
    Bool.and_eq_true] at h
  exact hoistsListsAll_iff.1 h.2 s hs

theorem hoistsLists_of_mem_operands (head : a.head ≠ []) (h : hoistsLists a = true)
    (hs : s ∈ a.operands) : hoistsLists s = true := by
  unfold Sexpr.head at head
  split at head
  · exact hoistsLists_of_mem head h hs
  · exact absurd rfl head

theorem isList_of_mem_tests (h : hoistsLists (.list (.atom (keyword "if") :: items)) = true)
    (hs : s ∈ tests (.list (.atom (keyword "if") :: items))) : s.isList = true := by
  obtain ⟨member, noArm⟩ := List.mem_filter.1 hs
  have filled : keyword "if" ≠ [] := by decide
  simp only [hoistsLists, decide_eq_true_eq, Bool.or_eq_true, filled, false_or, bne_self_eq_false,
    Bool.false_eq_true, Bool.and_eq_true, List.all_eq_true] at h
  rcases h.1 s member with arm | list
  · simp [arm] at noArm
  · exact list

theorem hoisted_start {xs : List Sexpr} (ih : ∀ x ∈ xs, ∃ u us, flat x = u :: us ∧ u.isName = false)
    (hj : j.isName = false) : ∃ u us, xs.flatMap flat ++ [j] = u :: us ∧ u.isName = false := by
  cases xs with
  | nil => exact ⟨j, [], rfl, hj⟩
  | cons x rest =>
    obtain ⟨u, us, eq, hu⟩ := ih x List.mem_cons_self
    exact ⟨u, us ++ (rest.flatMap flat ++ [j]), by simp [eq], hu⟩

theorem not_isName_of_isList (h : s.isList = true) : s.isName = false := by
  cases s with
  | atom t => cases h
  | list _ => rfl

theorem flat_start (s : Sexpr) (h : hoistsLists s = true) (hs : s.isName = false) :
    ∃ u us, flat s = u :: us ∧ u.isName = false := by
  induction s using instr_induction with
  | formless s head => exact ⟨s, [], flat_formless head, hs⟩
  | structured op items structured _ => exact ⟨_, _, flat_structured structured, rfl⟩
  | cond items ih _ =>
    rw [flat_cond]
    refine hoisted_start (fun x hx => ?_) rfl
    exact ih x (mem_of_mem_tests hx) (hoistsLists_of_mem (by decide) h (mem_of_mem_tests hx))
      (not_isName_of_isList (isList_of_mem_tests h hx))
  | plain op items plain ih =>
    rw [flat_plain plain]
    refine hoisted_start (fun x hx => ?_) rfl
    exact ih x (mem_of_mem_inner hx) (hoistsLists_of_mem plain.filled h (mem_of_mem_inner hx))
      (not_isName_of_isList (List.mem_filter.1 hx).2)

theorem splitLabel_flatMap (h : ∀ s ∈ items, hoistsLists s = true) :
    splitLabel (items.flatMap flat) =
      ((splitLabel items).1, (splitLabel items).2.flatMap flat) := by
  cases items with
  | nil => rfl
  | cons s rest =>
    cases name : s.isName with
    | true =>
      have head : s.head = [] := by
        cases s with
        | atom t => rfl
        | list _ => cases name
      simp [splitLabel, flat_formless head, name]
    | false =>
      obtain ⟨u, us, eq, hu⟩ := flat_start s (h s List.mem_cons_self) name
      simp [splitLabel, eq, hu, name]

end lists

theorem flatArm_head (s : Sexpr) : (flatArm s).head = s.head := by
  rcases s with _ | _ | ⟨_ | _, _⟩ <;> rfl

theorem flatArm_operands (s : Sexpr) : (flatArm s).operands = s.operands.flatMap flat := by
  rcases s with _ | _ | ⟨word, body⟩
  · rfl
  · rfl
  · exact flatSeq_eq body

theorem isArm_flatArm (s : Sexpr) : isArm (flatArm s) = isArm s := by
  rw [isArm, flatArm_head, isArm]

theorem not_isName_of_isArm (h : isArm s = true) : s.isName = false := by
  cases s with
  | atom t => cases h
  | list items => rfl

theorem splitLabel_cond : splitLabel (labelItems items ++ (items.filter isArm).map flatArm) =
    ((splitLabel items).1, ((splitLabel items).2.filter isArm).map flatArm) := by
  have unnamed (xs : List Sexpr) : splitLabel ((xs.filter isArm).map flatArm) =
      (none, (xs.filter isArm).map flatArm) := by
    cases arms : xs.filter isArm with
    | nil => rfl
    | cons a rest =>
      have ha : isArm a = true := (List.mem_filter.1 (arms ▸ List.mem_cons_self)).2
      simp [splitLabel, not_isName_of_isArm ((isArm_flatArm a).trans ha)]
  cases items with
  | nil => rfl
  | cons s rest =>
    cases name : s.isName with
    | true =>
      have noArm : isArm s = false := by
        cases arm : isArm s
        · rfl
        · cases name.symm.trans (not_isName_of_isArm arm)
      simp [labelItems, splitLabel, name, noArm]
    | false => simpa [labelItems, splitLabel, name] using unnamed (s :: rest)

theorem tests_cond : tests (.list (.atom op ::
    (labelItems items ++ (items.filter isArm).map flatArm))) = [] := by
  show (splitLabel (labelItems items ++ (items.filter isArm).map flatArm)).2.filter
    (fun i => !isArm i) = []
  rw [splitLabel_cond, List.filter_eq_nil_iff]
  intro a ha
  obtain ⟨b, hb, rfl⟩ := List.mem_map.1 ha
  simp [isArm_flatArm, (List.mem_filter.1 hb).2]

theorem arm_flatArm (h : kind = keyword "then" ∨ kind = keyword "else") :
    arm kind ((items.filter isArm).map flatArm) = (arm kind items).flatMap flat := by
  have known : items.filter (fun s => s.head == kind && isArm s) =
      items.filter fun s => s.head == kind := by
    refine List.filter_congr fun s _ => ?_
    rcases h with rfl | rfl <;> cases head : s.head == _ <;> simp [isArm, head]
  have heads : (fun s => s.head == kind) ∘ flatArm = fun s => s.head == kind := by
    funext s
    simp [flatArm_head]
  unfold arm
  rw [List.filter_map, heads, List.filter_filter, known, List.getLast?_map]
  cases (items.filter fun s => s.head == kind).getLast? with
  | none => rfl
  | some a => exact flatArm_operands a

theorem inner_bare : inner (.list (.atom op :: items.filter (!·.isList))) = [] := by
  show (items.filter (!·.isList)).filter (·.isList) = []
  simp [List.filter_filter]

theorem immediates_bare : immediates (.list (.atom op :: items.filter (!·.isList))) =
    immediates (.list (.atom op :: items)) := by
  show ((items.filter (!·.isList)).filter (!·.isList)).map (·.text) =
    (items.filter (!·.isList)).map (·.text)
  simp [List.filter_filter]

theorem flat_isFlat (s : Sexpr) : ∀ u ∈ flat s, IsFlat u := by
  have hoisted {xs : List Sexpr} {j : Sexpr} (ih : ∀ x ∈ xs, ∀ u ∈ flat x, IsFlat u)
      (hj : IsFlat j) : ∀ u ∈ xs.flatMap flat ++ [j], IsFlat u := by
    intro u hu
    rcases List.mem_append.1 hu with before | last
    · obtain ⟨x, hx, hu⟩ := List.mem_flatMap.1 before
      exact ih x hx u hu
    · exact List.mem_singleton.1 last ▸ hj
  induction s using instr_induction with
  | formless s head =>
    rw [flat_formless head]
    simpa using IsFlat.formless head
  | structured op items structured ih =>
    rw [flat_structured structured]
    refine List.forall_mem_singleton.2 (.structured structured fun x hx => ?_)
    obtain ⟨y, hy, hx⟩ := List.mem_flatMap.1 hx
    exact ih y hy x hx
  | cond items ih arms =>
    rw [flat_cond]
    refine hoisted (fun x hx => ih x (mem_of_mem_tests hx)) (.cond rfl tests_cond fun a ha x hx => ?_)
    rcases List.mem_append.1 ha with label | arm
    · have name : a.isName = true := (List.mem_filter.1 label).2
      cases a with
      | atom t => cases hx
      | list is => cases name
    · obtain ⟨b, hb, rfl⟩ := List.mem_map.1 arm
      rw [flatArm_operands] at hx
      obtain ⟨y, hy, hx⟩ := List.mem_flatMap.1 hx
      exact arms b (List.mem_filter.1 hb).1 y hy x hx
  | plain op items plain ih =>
    rw [flat_plain plain]
    exact hoisted (fun x hx => ih x (mem_of_mem_inner hx)) (.plain plain inner_bare)

theorem flat_sameEnds (env : Env) (d : Nat) (s : Sexpr) (h : hoistsLists s = true) :
    SameEnds (fun fuel => instr env fuel d s) fun fuel => seq env fuel d (flat s) := by
  induction s using instr_induction with
  | formless s head =>
    rw [flat_formless head]
    exact (seq_singleton_sameEnds env d s).symm
  | structured op items structured ih =>
    have filled := filled_of_structured structured
    have lists (x : Sexpr) (hx : x ∈ items) : hoistsLists x = true := hoistsLists_of_mem filled h hx
    obtain ⟨isLoop, known⟩ : ∃ isLoop : Bool,
        Op.ofName? op = some (if isLoop then .loop else .block) := by
      rcases structured with rfl | rfl
      · exact ⟨false, by decide⟩
      · exact ⟨true, by decide⟩
    rw [flat_structured structured]
    refine SameEnds.trans ?_ (seq_singleton_sameEnds env d _).symm
    refine structured_sameEnds rfl (List.isEmpty_eq_false_iff.2 filled) isLoop known ?_ ?_
    · show (splitLabel (items.flatMap flat)).1 = (splitLabel items).1
      rw [splitLabel_flatMap lists]
    · show SameEnds _ fun fuel => seq env fuel d (splitLabel (items.flatMap flat)).2
      rw [splitLabel_flatMap lists]
      refine seq_flatMap_sameEnds fun x hx => ?_
      exact ih x (mem_of_mem_splitLabel hx) (lists x (mem_of_mem_splitLabel hx))
  | cond items ih arms =>
    have known : Op.ofName? (keyword "if") = some .cond := by decide
    have lists (x : Sexpr) (hx : x ∈ items) : hoistsLists x = true :=
      hoistsLists_of_mem (by decide) h hx
    rw [flat_cond]
    refine cond_sameEnds rfl rfl known ?_ tests_cond ?_ fun kind hk => ?_
    · show (splitLabel (labelItems items ++ (items.filter isArm).map flatArm)).1 =
        (splitLabel items).1
      rw [splitLabel_cond]
    · refine seq_flatMap_sameEnds fun x hx => ?_
      exact ih x (mem_of_mem_tests hx) (lists x (mem_of_mem_tests hx))
    · show SameEnds _ fun fuel => seq env fuel d
        (arm kind (splitLabel (labelItems items ++ (items.filter isArm).map flatArm)).2)
      rw [splitLabel_cond, arm_flatArm hk]
      refine seq_flatMap_sameEnds fun x hx => ?_
      obtain ⟨a, member, head, inside⟩ := mem_of_mem_arm hx
      have member := mem_of_mem_splitLabel member
      refine arms a member x inside (hoistsLists_of_mem_operands ?_ (lists a member) inside)
      rw [head]
      rcases hk with rfl | rfl <;> decide
  | plain op items plain ih =>
    rw [flat_plain plain]
    refine plain_sameEnds rfl plain inner_bare immediates_bare ?_
    refine seq_flatMap_sameEnds fun x hx => ?_
    exact ih x (mem_of_mem_inner hx) (hoistsLists_of_mem plain.filled h (mem_of_mem_inner hx))

theorem flatSeq_sameEnds (env : Env) (d : Nat) (h : hoistsListsAll code = true) :
    SameEnds (fun fuel => seq env fuel d code) fun fuel => seq env fuel d (flatSeq code) := by
  rw [flatSeq_eq]
  exact seq_flatMap_sameEnds fun x hx => flat_sameEnds env d x (hoistsListsAll_iff.1 h x hx)

end unfolding

/-- Instructions end in a result and a state, which is not for want of fuel. -/
def EndsIn (env : Env) (d : Nat) (code : List Sexpr) (s : State) (r : Except Halt Control × State) :
    Prop :=
  ¬ OutOfFuel r ∧ ∃ fuel, (seq env fuel d code).run s = r

end Machine

open Machine

/-- Instructions unfolded hold no operands, and they do what the instructions do: whatever the functions
and the number of checks that they may make, the depth of calls and the state, they end in the same
control, trap or refusal and the same stack, locals, globals, lines and checks, or do not end either. -/
theorem unfolding_keeps_meaning (env : Env) (depth : Nat) (code : List Sexpr)
    (lists : hoistsListsAll code = true) :
    (∀ i ∈ flatSeq code, IsFlat i) ∧
      ∀ s r, EndsIn env depth (flatSeq code) s r ↔ EndsIn env depth code s r := by
  refine ⟨fun i hi => ?_, fun s r => ?_⟩
  · rw [flatSeq_eq] at hi
    obtain ⟨x, -, hi⟩ := List.mem_flatMap.1 hi
    exact flat_isFlat x i hi
  · have same := flatSeq_sameEnds env depth lists
    exact ⟨fun ⟨done, ends⟩ => ⟨done, same.back.ends done ends⟩,
      fun ⟨done, ends⟩ => ⟨done, same.forth.ends done ends⟩⟩

section countdown

open StackCode (form key)

def countdown : List Sexpr :=
  [form "block" [.atom (key "done"), form "loop" [.atom (key "again"),
    form "br_if" [.atom (key "done"), form "i32.eqz" [form "local.get" [.atom (key "n")]]],
    form "if" [
      form "i32.gt_s" [form "local.get" [.atom (key "n")], form "i32.const" [.atom (keyword "1")]],
      form "then" [form "local.set" [.atom (key "n"), form "i32.sub" [
        form "local.get" [.atom (key "n")], form "i32.const" [.atom (keyword "1")]]]],
      form "else" [form "br" [.atom (key "done")]]],
    form "br" [.atom (key "again")]]]]

def flatCountdown : List Sexpr :=
  [form "block" [.atom (key "done"), form "loop" [.atom (key "again"),
    form "local.get" [.atom (key "n")], form "i32.eqz" [], form "br_if" [.atom (key "done")],
    form "local.get" [.atom (key "n")], form "i32.const" [.atom (keyword "1")], form "i32.gt_s" [],
    form "if" [
      form "then" [form "local.get" [.atom (key "n")], form "i32.const" [.atom (keyword "1")],
        form "i32.sub" [], form "local.set" [.atom (key "n")]],
      form "else" [form "br" [.atom (key "done")]]],
    form "br" [.atom (key "again")]]]]

/-- A state in which the local has a value, with what is left above the empty stack. -/
def counting (n : Word) (checks : Nat) (stale : List Word) : State where
  globals := []
  stack := { live := [], stale }
  locals := [(key "n", n)]
  printed := []
  checks

theorem countdown_unfolded :
    hoistsListsAll countdown = true ∧ flatSeq countdown = flatCountdown ∧
      (∀ i ∈ flatCountdown, IsFlat i) ∧
      EndsIn ⟨[], none⟩ 0 flatCountdown (counting 2 0 []) (.ok .next, counting 1 3 [0, 1]) := by
  have lists : hoistsListsAll countdown = true := by decide
  have same := unfolding_keeps_meaning ⟨[], none⟩ 0 countdown lists
  have ends : EndsIn ⟨[], none⟩ 0 countdown (counting 2 0 []) (.ok .next, counting 1 3 [0, 1]) :=
    ⟨nofun, 40, by with_unfolding_all rfl⟩
  exact ⟨lists, rfl, same.1, (same.2 _ _).2 ends⟩

end countdown

end WordScript
