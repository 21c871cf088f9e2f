import WordScript.Proofs.ParseSound
import WordScript.Proofs.Positions

/-! Reading comes to an end.

The scanner and the parser are given fuel, and no source uses it up. A scanner that is asked for a
token steps to one or to a fault, and the tokens end at the end of the text or at a fault. The parser
reads them and never past the end of the text, so that it stops at a token it was given, or where the
tokens were cut short. -/
namespace WordScript
namespace Scanner

/-- Stepping until a token is queued, for as long as it takes. -/
inductive Fills : Scanner → Except SyntaxError Scanner → Prop
  | queued {s : Scanner} (some : s.queue ≠ []) : Fills s (.ok s)
  | fault {s : Scanner} {e : SyntaxError} (none : s.queue = []) (stops : s.fill = .error e) :
      Fills s (.error e)
  | step {s s' : Scanner} {r : Except SyntaxError Scanner} (none : s.queue = [])
      (steps : s.fill = .ok s') (others : Fills s' r) : Fills s r

/-- All the tokens, and the fault that cut them short, for as long as it takes. -/
inductive Ends : Scanner → List Token → Option SyntaxError → Prop
  | last {s s' : Scanner} {t : Token} (next : s.next = .ok (t, s')) (eof : t.kind = .eof) :
      Ends s [t] none
  | more {s s' : Scanner} {t : Token} {ts : List Token} {fault : Option SyntaxError}
      (next : s.next = .ok (t, s')) (text : t.kind ≠ .eof) (others : Ends s' ts fault) :
      Ends s (t :: ts) fault
  | cut {s : Scanner} {e : SyntaxError} (next : s.next = .error e) : Ends s [] (some e)

/-- The scanners that handing out tokens leads to. -/
inductive Reached (source : Bytes) : Scanner → Prop
  | start : Reached source (ofBytes source)
  | next {s s' : Scanner} {t : Token} (before : Reached source s) (next : s.next = .ok (t, s')) :
      Reached source s'

section fills

variable {s s' : Scanner} {r : Except SyntaxError Scanner}

theorem breakLength_pos (h : c = '\r' ∨ c = '\n') : 0 < breakLength (c :: rest) := by
  rcases h with rfl | rfl
  · have : 0 < run (· == '\r') ('\r' :: rest) := by simp [run]
    unfold breakLength
    omega
  · simp [breakLength]

theorem margin_blank (h : margin cs = .blank n) : 0 < n ∧ 0 < cs.length := by
  unfold margin at h
  simp only at h
  split at h
  · cases h
  · rename_i c rest hc
    have some : 0 < cs.length := by
      have := congrArg List.length hc
      simp only [List.length_drop, List.length_cons] at this
      omega
    split at h
    · cases h
      exact ⟨by omega, some⟩
    · split at h
      · rename_i ends
        cases h
        have : 0 < breakLength (c :: rest) := breakLength_pos ends
        exact ⟨by omega, some⟩
      · cases h

theorem finish_queue : s.finish.queue ≠ [] := by simp [finish]

theorem scanLine_progress (h : s.scanLine = .ok s') :
    s'.queue ≠ [] ∨ s'.reader.rest.length < s.reader.rest.length := by
  unfold scanLine at h
  set g := gap (0 < s.parens) false s.reader.chars
  simp only at h
  split at h
  · cases h
  split at h
  · cases h
    exact .inl finish_queue
  · rename_i c rest hc
    have some : 0 < (s.reader.skip g.length).rest.length := by
      rw [← Reader.chars_length, hc]
      simp
    split at h
    · cases h
      simp only [Reader.skip_rest, List.length_drop] at some ⊢
      omega
    · split at h
      · cases h
        exact .inl (by simp)
      · cases h

theorem fill_progress (h : s.fill = .ok s') :
    s'.queue ≠ [] ∨ s'.reader.rest.length < s.reader.rest.length := by
  unfold fill at h
  split at h
  · split at h
    · rename_i n hn
      cases h
      obtain ⟨some, text⟩ := margin_blank hn
      rw [Reader.chars_length] at text
      simp only [Reader.skip_rest, List.length_drop]
      omega
    · refine (scanLine_progress h).imp_right fun less => Nat.lt_of_lt_of_le less ?_
      simp [Reader.skip_rest]
    · rename_i n _
      cases hi : s.indent n with
      | error e => simp [hi, bind, Except.bind] at h
      | ok s₁ =>
        simp only [hi, ] at h
        refine (scanLine_progress h).imp_right fun less => Nat.lt_of_lt_of_le less ?_
        simp [(indent_bound hi).2, Reader.skip_rest]
  · exact scanLine_progress h

theorem settle_queued (some : s.queue ≠ []) : s.settle (fuel + 1) = .ok s := by
  unfold settle
  split
  · rfl
  · exact absurd ‹_› some

theorem settle_fills (enough : s.reader.rest.length + 2 ≤ fuel) : Fills s (s.settle fuel) := by
  induction fuel generalizing s with
  | zero => omega
  | succ fuel ih =>
    by_cases none : s.queue = []
    · have unfolded : s.settle (fuel + 1) = s.fill >>= settle fuel := by simp [settle, none]
      rw [unfolded]
      cases hf : s.fill with
      | error e => exact .fault none hf
      | ok s₁ =>
        refine .step none hf ?_
        by_cases queue : s₁.queue = []
        · have less := (fill_progress hf).resolve_left (not_not_intro queue)
          exact ih (by omega)
        · -- The step that queued a token may have been the last that the fuel allows.
          obtain ⟨fuel, rfl⟩ : ∃ k, fuel = k + 1 := ⟨fuel - 1, by omega⟩
          simpa only [bind, Except.bind, settle_queued queue] using Fills.queued queue
    · rw [settle_queued none]
      exact .queued none

theorem Reached.kept (h : Reached source s) : ∃ past, Kept source past s := by
  induction h with
  | start => exact ⟨[], .start⟩
  | next _ next ih =>
    obtain ⟨past, kept⟩ := ih
    rcases kept.next with ⟨t, s', same, kept'⟩ | ⟨e, stop, -⟩
    · cases next.symm.trans same
      exact ⟨_, kept'⟩
    · cases next.symm.trans stop

end fills

section ends

variable {s : Scanner} {ts : List Token} {fault : Option SyntaxError}

theorem scanUpTo_ends (enough : s.room ≤ fuel) :
    Ends s (scanUpTo fuel s).tokens (scanUpTo fuel s).fault := by
  induction fuel generalizing s with
  | zero =>
    have : 1 ≤ s.room := by
      unfold room bound
      split <;> omega
    omega
  | succ fuel ih =>
    unfold scanUpTo
    split
    · exact .cut ‹_›
    · rename_i t s' next
      split
      · exact .last next ‹_›
      · rename_i text
        have := (next_room next).2 text
        exact .more next text (ih (by omega))

theorem scan_ends (source : Bytes) :
    Ends (ofBytes source) (scan source).tokens (scan source).fault :=
  scanUpTo_ends (by simp [room, bound, ofBytes])

theorem Ends.fault_or_eof (h : Ends s ts fault) :
    (∃ e, fault = some e) ∨ ∃ t ∈ ts, t.kind = .eof := by
  induction h with
  | last _ eof => exact .inr ⟨_, List.mem_singleton_self _, eof⟩
  | more _ _ _ ih =>
    exact ih.imp_right fun ⟨t, ht, eof⟩ => ⟨t, List.mem_cons_of_mem _ ht, eof⟩
  | cut => exact .inl ⟨_, rfl⟩

end ends

end Scanner

namespace Parser

open Token (Kind)

variable {α β : Type}

/-- A parser that reads at least `least` of the tokens and never the end of the text. It stops at
one of the tokens, or because the end of the text is not among them, and not for want of fuel. -/
structure Fair (least : Nat) (p : Parser α) (ts : List Token) : Prop where
  rest : ∀ a us, p ts = .ok (a, us) →
    ∃ used, ts = used ++ us ∧ least ≤ used.length ∧ ∀ t ∈ used, t.kind ≠ .eof
  unexpected : ∀ t, p ts = .error (.unexpected t) → t ∈ ts
  ranOut : p ts = .error .ranOut → ∀ t ∈ ts, t.kind ≠ .eof
  fuelled : p ts ≠ .error .outOfFuel

namespace Fair

variable {m n : Nat} {p q : Parser α} {f : α → Parser β} {ts : List Token}

theorem weaken (h : Fair m p ts) (le : n ≤ m) : Fair n p ts where
  rest a us ok := by
    obtain ⟨used, split, many, other⟩ := h.rest a us ok
    exact ⟨used, split, Nat.le_trans le many, other⟩
  unexpected := h.unexpected
  ranOut := h.ranOut
  fuelled := h.fuelled

theorem of_eq (h : Fair n q ts) (same : p ts = q ts) : Fair n p ts where
  rest := by simpa only [same] using h.rest
  unexpected := by simpa only [same] using h.unexpected
  ranOut := by simpa only [same] using h.ranOut
  fuelled := by simpa only [same] using h.fuelled

theorem bind (h : Fair m p ts)
    (hf : ∀ a us, us.length + m ≤ ts.length → Fair (n - m) (f a) us) : Fair n (p >>= f) ts := by
  cases hp : p ts with
  | error e =>
    have stopped : (p >>= f) ts = .error e := by simp [Bind.bind, StateT.bind, Except.bind, hp]
    refine ⟨fun a us ok => ?_, fun t out => ?_, fun out => ?_, fun out => ?_⟩
    · cases stopped.symm.trans ok
    · cases stopped.symm.trans out
      exact h.unexpected t hp
    · cases stopped.symm.trans out
      exact h.ranOut hp
    · cases stopped.symm.trans out
      exact h.fuelled hp
  | ok r =>
    obtain ⟨a, us⟩ := r
    obtain ⟨used, split, many, other⟩ := h.rest a us hp
    have onward : (p >>= f) ts = f a us := by simp [Bind.bind, StateT.bind, Except.bind, hp]
    have next := hf a us (by rw [split, List.length_append]; omega)
    refine ⟨fun b vs ok => ?_, fun t out => ?_, fun out t ht => ?_, fun out => ?_⟩
    · obtain ⟨used', split', many', other'⟩ := next.rest b vs (onward.symm.trans ok)
      refine ⟨used ++ used', by rw [split, split', List.append_assoc], ?_, fun t ht => ?_⟩
      · rw [List.length_append]
        omega
      · exact (List.mem_append.1 ht).elim (other t) (other' t)
    · rw [split]
      exact List.mem_append_right _ (next.unexpected t (onward.symm.trans out))
    · rw [split] at ht
      exact (List.mem_append.1 ht).elim (other t) (next.ranOut (onward.symm.trans out) t)
    · exact next.fuelled (onward.symm.trans out)

theorem pure : Fair 0 (Pure.pure a : Parser α) ts where
  rest b us ok := by
    cases ok
    exact ⟨[], rfl, Nat.le_refl _, by simp⟩
  unexpected _ out := by cases out
  ranOut out := by cases out
  fuelled out := by cases out

theorem ite [Decidable c] (h : c → Fair n p ts) (h' : ¬ c → Fair n q ts) :
    Fair n (if c then p else q) ts := by
  by_cases hc : c
  · simpa only [if_pos hc] using h hc
  · simpa only [if_neg hc] using h' hc

theorem reject : Fair n (reject : Parser α) ts := by
  cases ts with
  | nil => exact ⟨fun a us ok => absurd ok reject_ok, nofun, by simp, nofun⟩
  | cons t rest =>
    refine ⟨fun a us ok => absurd ok reject_ok, fun u out => ?_, nofun, nofun⟩
    cases out
    exact List.mem_cons_self

theorem peek {f : Token → Parser β}
    (h : ∀ t rest, ts = t :: rest → Fair n (f t) (t :: rest)) : Fair n (peek >>= f) ts := by
  cases ts with
  | nil => exact ⟨nofun, nofun, by simp, nofun⟩
  | cons t rest => exact (h t rest rfl).of_eq rfl

theorem at? {f : Bool → Parser β}
    (h : ∀ t rest, ts = t :: rest → Fair n (f (t.kind = k)) (t :: rest)) :
    Fair n (at? k >>= f) ts := by
  cases ts with
  | nil => exact ⟨nofun, nofun, by simp, nofun⟩
  | cons t rest => exact (h t rest rfl).of_eq rfl

theorem leaf {rest : List Token} (text : t.kind ≠ .eof) : Fair 1 leaf (t :: rest) where
  rest a us ok := by
    cases ok
    exact ⟨[t], rfl, Nat.le_refl _, by simpa using text⟩
  unexpected _ out := by cases out
  ranOut out := by cases out
  fuelled out := by cases out

theorem want (text : k ≠ .eof) : Fair 1 (want k) ts := by
  refine Fair.at? fun t rest _ => .ite (fun here => .leaf ?_) fun _ => .reject
  rw [of_decide_eq_true here]
  exact text

theorem drop (text : k ≠ .eof) : Fair 1 (drop k) ts :=
  (Fair.want text).bind fun _ _ _ => .pure

section choice

variable {h : Node → Parser β} {r : Parser β}

theorem choose {isOp : Kind → Bool} (sign : isOp .eof = false)
    (found : ∀ a us, us.length + 1 ≤ ts.length → Fair (n - 1) (h a) us) (other : Fair n r ts) :
    Fair n (Parser.peek >>= fun t => if isOp t.kind = true then Parser.leaf >>= h else r) ts := by
  refine Fair.peek fun t rest split => ?_
  subst split
  refine .ite (fun here => Fair.bind (Fair.leaf fun eof => ?_) found) fun _ => other
  rw [eof, sign] at here
  cases here

theorem chooseAt (text : k ≠ .eof)
    (found : ∀ a us, us.length + 1 ≤ ts.length → Fair (n - 1) (h a) us) (other : Fair n r ts) :
    Fair n (Parser.at? k >>= fun b => if b = true then Parser.leaf >>= h else r) ts := by
  refine Fair.at? fun t rest split => ?_
  subst split
  refine .ite (fun here => Fair.bind (Fair.leaf ?_) found) fun _ => other
  rw [of_decide_eq_true here]
  exact text

end choice

end Fair

section levels

variable {operand : Parser Node} {isOp : Kind → Bool} {fuel k : Nat} {lhs : Node}
  {ts : List Token}

variable (sign : isOp .eof = false) (side : ∀ ts : List Token, ts.length ≤ k → Fair 1 operand ts)
include sign side

theorem binaryRest_fair (le : ts.length ≤ k) (enough : ts.length < fuel) :
    Fair 0 (binaryRest operand isOp fuel lhs) ts := by
  induction fuel generalizing lhs ts with
  | zero => omega
  | succ fuel ih =>
    refine .choose sign (fun op us many => ?_) .pure
    refine (side us (by omega)).bind fun rhs vs many' => ?_
    exact ih (by omega) (by omega)

theorem binary_fair (enough : k ≤ fuel) (le : ts.length ≤ k) :
    Fair 1 (binary operand isOp fuel) ts :=
  (side ts le).bind fun _ us many =>
    binaryRest_fair sign side (by omega) (by omega)

end levels

/-- There is fuel enough to read an expression. Before a token is read the descent passes at most
four levels, so that each token is worth four steps. -/
structure ExprFair (fuel : Nat) : Prop where
  expr : ∀ ts : List Token, 4 * ts.length + 4 ≤ fuel → Fair 1 (expr fuel) ts
  notExpr : ∀ ts : List Token, 4 * ts.length + 3 ≤ fuel → Fair 1 (notExpr fuel) ts
  factor : ∀ ts : List Token, 4 * ts.length + 2 ≤ fuel → Fair 1 (factor fuel) ts
  primary : ∀ ts : List Token, 4 * ts.length + 1 ≤ fuel → Fair 1 (primary fuel) ts
  calls : ∀ (ts : List Token) (callee : Node), 4 * ts.length + 4 ≤ fuel →
    Fair 0 (calls fuel callee) ts
  args : ∀ ts : List Token, 4 * ts.length + 5 ≤ fuel → Fair 1 (args fuel) ts

section exprs

variable {fuel : Nat} {ts : List Token}

variable (ih : ExprFair fuel)
include ih

theorem ExprFair.expr_succ (enough : 4 * ts.length + 4 ≤ fuel + 1) :
    Fair 1 (Parser.expr (fuel + 1)) ts := by
  have nots : ∀ us : List Token, us.length ≤ ts.length → Fair 1 (Parser.notExpr fuel) us :=
    fun us le => ih.notExpr us (by omega)
  exact binary_fair rfl (fun us le => binary_fair rfl nots (by omega) le) (by omega)
    (Nat.le_refl _)

theorem ExprFair.notExpr_succ (enough : 4 * ts.length + 3 ≤ fuel + 1) :
    Fair 1 (Parser.notExpr (fuel + 1)) ts := by
  have factors : ∀ us : List Token, us.length ≤ ts.length → Fair 1 (Parser.factor fuel) us :=
    fun us le => ih.factor us (by omega)
  refine .chooseAt nofun (fun op us many => ?_) ?_
  · exact (ih.notExpr us (by omega)).bind fun _ _ _ => .pure
  · refine binary_fair rfl (fun us le => ?_) (by omega) (Nat.le_refl _)
    exact binary_fair rfl (fun us le => binary_fair rfl factors (by omega) le) (by omega) le

theorem ExprFair.factor_succ (enough : 4 * ts.length + 2 ≤ fuel + 1) :
    Fair 1 (Parser.factor (fuel + 1)) ts := by
  refine .choose rfl (fun op us many => ?_) ?_
  · exact (ih.factor us (by omega)).bind fun _ _ _ => .pure
  · refine (ih.primary ts (by omega)).bind fun base us many => ?_
    refine .chooseAt nofun (fun op vs many' => ?_) .pure
    exact (ih.factor vs (by omega)).bind fun _ _ _ => .pure

theorem ExprFair.primary_succ (enough : 4 * ts.length + 1 ≤ fuel + 1) :
    Fair 1 (Parser.primary (fuel + 1)) ts := by
  refine .choose rfl (fun atom us many => ih.calls us _ (by omega)) ?_
  refine .chooseAt nofun (fun left us many => ?_) .reject
  refine (ih.expr us (by omega)).bind fun inner vs many' => ?_
  exact Fair.bind (.want nofun) fun right ws many'' => ih.calls ws _ (by omega)

theorem ExprFair.calls_succ (enough : 4 * ts.length + 4 ≤ fuel + 1) :
    Fair 0 (Parser.calls (fuel + 1) callee) ts := by
  refine .chooseAt nofun (fun left us many => ?_) .pure
  exact (ih.args us (by omega)).bind fun rest vs many' => ih.calls vs _ (by omega)

theorem ExprFair.args_succ (enough : 4 * ts.length + 5 ≤ fuel + 1) :
    Fair 1 (Parser.args (fuel + 1)) ts := by
  refine .chooseAt nofun (fun _ _ _ => .pure) ?_
  refine (ih.expr ts (by omega)).bind fun arg us many => ?_
  refine .chooseAt nofun (fun comma vs many' => ?_) ?_
  · exact (ih.args vs (by omega)).bind fun _ _ _ => .pure
  · exact Fair.bind (.want nofun) fun _ _ _ => .pure

end exprs

theorem exprFair (fuel : Nat) : ExprFair fuel := by
  induction fuel with
  | zero => constructor <;> omega
  | succ fuel ih =>
    exact ⟨fun _ => ih.expr_succ, fun _ => ih.notExpr_succ, fun _ => ih.factor_succ,
      fun _ => ih.primary_succ, fun _ _ => ih.calls_succ, fun _ => ih.args_succ⟩

section lines

variable {fuel : Nat} {ts : List Token}

theorem typeDef_fair (text : lead ≠ .eof) (enough : 4 * ts.length ≤ fuel) :
    Fair 1 (typeDef lead fuel) ts := by
  refine Fair.bind (.want text) fun lead us many => ?_
  exact ((exprFair fuel).expr us (by omega)).bind fun _ _ _ => .pure

theorem typeDef_maybe_fair [Decidable c] {typed : Node → List Node} (text : lead ≠ .eof)
    (enough : 4 * ts.length ≤ fuel) (after : ∀ head us, us.length ≤ ts.length → Fair n (f head) us) :
    Fair n (if c then typeDef lead fuel >>= fun type => pure (typed type) >>= f
      else pure bare >>= f) ts := by
  refine .ite (fun _ => ?_) fun _ => Fair.pure.bind after
  refine (typeDef_fair text enough).bind fun type us many => Fair.pure.bind fun head vs many' => ?_
  exact (after head vs (by omega)).weaken (by omega)

section

variable (enough : 4 * ts.length + 4 ≤ fuel)
include enough

theorem exprOrAssign_fair : Fair 1 (exprOrAssign fuel) ts := by
  refine ((exprFair fuel).expr ts enough).bind fun target us many => ?_
  refine Fair.at? fun t rest split => ?_
  subst split
  refine typeDef_maybe_fair nofun (by omega) fun head vs many' => ?_
  refine .chooseAt nofun (fun sign ws many'' => ?_) (.ite (fun _ => .pure) fun _ => .pure)
  exact ((exprFair fuel).expr ws (by omega)).bind fun _ _ _ => .pure

theorem simpleStmt_fair : Fair 1 (simpleStmt fuel) ts := by
  refine .chooseAt nofun (fun _ _ _ => .pure) ?_
  refine .chooseAt nofun (fun word us many => ?_) (exprOrAssign_fair enough)
  refine Fair.at? fun t rest split => .ite (fun _ => .pure) fun _ => ?_
  subst split
  exact ((exprFair fuel).expr (t :: rest) (by omega)).bind fun _ _ _ => .pure

theorem simpleLine_fair : Fair 1 (simpleLine fuel) ts :=
  (simpleStmt_fair enough).bind fun _ _ _ => .bind (.drop nofun) fun _ _ _ => .pure

end

theorem params_fair (enough : 4 * ts.length + 1 ≤ fuel) : Fair 1 (params fuel) ts := by
  induction fuel generalizing ts with
  | zero => omega
  | succ fuel ih =>
    refine .chooseAt nofun (fun _ _ _ => .pure) ?_
    refine Fair.bind (.want nofun) fun name us many => Fair.at? fun t rest split => ?_
    subst split
    refine typeDef_maybe_fair nofun (by omega) fun param vs many' => ?_
    refine .chooseAt nofun (fun comma ws many'' => ?_) ?_
    · exact (ih (by omega)).bind fun _ _ _ => .pure
    · exact Fair.bind (.want nofun) fun _ _ _ => .pure

theorem paramList_fair (enough : 4 * ts.length ≤ fuel) : Fair 1 (paramList fuel) ts := by
  refine Fair.bind (.want nofun) fun left us many => ?_
  exact (params_fair (by omega)).bind fun _ _ _ => .pure

end lines

/-- There is fuel enough to read a statement. -/
structure StmtFair (fuel : Nat) : Prop where
  stmt : ∀ ts : List Token, 4 * ts.length + 5 ≤ fuel → Fair 1 (stmt fuel) ts
  clauses : ∀ ts : List Token, 4 * ts.length + 1 ≤ fuel → Fair 0 (clauses fuel) ts
  body : ∀ ts : List Token, 4 * ts.length + 1 ≤ fuel → Fair 1 (body fuel) ts
  block : ∀ ts : List Token, 4 * ts.length + 6 ≤ fuel → Fair 1 (block fuel) ts

section stmts

variable {fuel : Nat} {ts : List Token}

variable (ih : StmtFair fuel)
include ih

theorem StmtFair.stmt_succ (enough : 4 * ts.length + 5 ≤ fuel + 1) :
    Fair 1 (Parser.stmt (fuel + 1)) ts := by
  refine .chooseAt nofun (fun word us many => ?_) ?_
  · refine Fair.bind (.want nofun) fun name vs many₁ => ?_
    refine (paramList_fair (by omega)).bind fun params ws many₂ => Fair.at? fun t rest split => ?_
    subst split
    refine typeDef_maybe_fair nofun (by omega) fun returns xs many₃ => ?_
    exact (ih.body xs (by omega)).bind fun _ _ _ => .pure
  refine .chooseAt nofun (fun word us many => ?_) ?_
  · refine ((exprFair fuel).expr us (by omega)).bind fun cond vs many₁ => ?_
    refine (ih.body vs (by omega)).bind fun body ws many₂ => ?_
    exact (ih.clauses ws (by omega)).bind fun _ _ _ => .pure
  refine .chooseAt nofun (fun word us many => ?_) (simpleLine_fair (by omega))
  refine ((exprFair fuel).expr us (by omega)).bind fun cond vs many₁ => ?_
  exact (ih.body vs (by omega)).bind fun _ _ _ => .pure

theorem StmtFair.clauses_succ (enough : 4 * ts.length + 1 ≤ fuel + 1) :
    Fair 0 (Parser.clauses (fuel + 1)) ts := by
  refine .chooseAt nofun (fun word us many => ?_) (.chooseAt nofun (fun word us many => ?_) .pure)
  · refine ((exprFair fuel).expr us (by omega)).bind fun cond vs many₁ => ?_
    refine (ih.body vs (by omega)).bind fun body ws many₂ => ?_
    exact (ih.clauses ws (by omega)).bind fun _ _ _ => .pure
  · exact (ih.body us (by omega)).bind fun _ _ _ => .pure

theorem StmtFair.body_succ (enough : 4 * ts.length + 1 ≤ fuel + 1) :
    Fair 1 (Parser.body (fuel + 1)) ts := by
  refine Fair.bind (.want nofun) fun colon us many => Fair.at? fun t rest split => ?_
  subst split
  refine .ite (fun _ => ?_) fun _ => ?_
  · refine Fair.bind (.drop nofun) fun _ vs many₁ => Fair.bind (.drop nofun) fun _ ws many₂ => ?_
    exact (ih.block ws (by omega)).bind fun _ _ _ => .pure
  · exact (simpleLine_fair (by omega)).bind fun _ _ _ => .pure

theorem StmtFair.block_succ (enough : 4 * ts.length + 6 ≤ fuel + 1) :
    Fair 1 (Parser.block (fuel + 1)) ts := by
  refine (ih.stmt ts (by omega)).bind fun first us many => Fair.at? fun t rest split => ?_
  subst split
  refine .ite (fun _ => ?_) fun _ => ?_
  · exact Fair.bind (.drop nofun) fun _ _ _ => .pure
  · exact (ih.block _ (by omega)).bind fun _ _ _ => .pure

end stmts

theorem stmtFair (fuel : Nat) : StmtFair fuel := by
  induction fuel with
  | zero => constructor <;> omega
  | succ fuel ih =>
    exact ⟨fun _ => ih.stmt_succ, fun _ => ih.clauses_succ, fun _ => ih.body_succ,
      fun _ => ih.block_succ⟩

section file

variable {fuel : Nat} {ts : List Token}

theorem stmts_fair (enough : 4 * ts.length + 6 ≤ fuel) : Fair 0 (stmts fuel) ts := by
  induction fuel generalizing ts with
  | zero => omega
  | succ fuel ih =>
    refine Fair.at? fun t rest split => .ite (fun _ => .pure) fun _ => ?_
    subst split
    refine ((stmtFair fuel).stmt _ (by omega)).bind fun first us many => ?_
    exact (ih (by omega)).bind fun _ _ _ => .pure

theorem file_fair (enough : 4 * ts.length + 6 ≤ fuel) : Fair 0 (file fuel) ts :=
  (stmts_fair enough).bind fun _ _ _ => .pure

theorem fuelFor_fair (ts : List Token) : Fair 0 (file (fuelFor ts)) ts :=
  file_fair (by rw [fuelFor]; omega)

end file

end Parser

/-- Reading a source takes no more steps than it is given, and no block is closed that is not
open. -/
structure ReadsThrough (source : Bytes) : Prop where
  settles : ∀ s, Scanner.Reached source s → s.Fills (s.settle (s.reader.rest.length + 2))
  blocks : ∀ s, Scanner.Reached source s → s.indents.getLast? = some 0
  tokens : (Scanner.ofBytes source).Ends (Scanner.scan source).tokens (Scanner.scan source).fault
  tree : Parser.file (Parser.fuelFor (Scanner.scan source).tokens) (Scanner.scan source).tokens ≠
    .error .outOfFuel

theorem readsThrough (source : Bytes) : ReadsThrough source where
  settles _ _ := Scanner.settle_fills (Nat.le_refl _)
  blocks _ h := by
    obtain ⟨_, kept⟩ := h.kept
    exact kept.blocks
  tokens := Scanner.scan_ends source
  tree := (Parser.fuelFor_fair _).fuelled

/-- A source that is not read has a lexical fault, or a token that cannot stand where it is. -/
theorem Tree.parse_error {source : Bytes} (h : Tree.parse source = .error e) :
    (Scanner.scan source).fault = some e ∨
      ∃ t ∈ (Scanner.scan source).tokens, e = ⟨t.span, .unexpected t⟩ := by
  have fair := Parser.fuelFor_fair (Scanner.scan source).tokens
  simp only [Tree.parse] at h
  split at h
  · cases h
  · rename_i t stop
    cases h
    exact .inr ⟨t, fair.unexpected t stop, rfl⟩
  · rename_i stop
    rcases (Scanner.scan_ends source).fault_or_eof with ⟨e', fault⟩ | ⟨t, ht, eof⟩
    · rw [fault] at h ⊢
      cases h
      exact .inl rfl
    · exact absurd eof (fair.ranOut stop t ht)
  · rename_i stop
    exact absurd stop fair.fuelled

end WordScript
