import WordScript.Proofs.Calls
import WordScript.Proofs.GraphExecution
import WordScript.Proofs.GraphFlow
import WordScript.Proofs.Storage

/-! Control-flow graphs follow evaluation.

A point in the blocks of a function is given by a body that is still being built: it is the place
where the next instruction goes. Building a statement takes one point to another, and running the
finished function from the first with a state that fits the evaluation leads to the second. -/
namespace WordScript
namespace BlockGraph

/-- Blocks that go on from what a body has so far. -/
structure Extends (blocks : List Block) (b : Body) : Prop where
  closed : ∀ k ∈ b.blocks, k.term.isSome = true → k ∈ blocks
  current : ∀ k ∈ b.blocks, k.number = b.current →
    ∃ k' ∈ blocks, k'.number = k.number ∧ k.insts <+: k'.insts

/-- The code that follows the point that a body has come to. -/
def Rest (blocks : List Block) (b : Body) (is : List Inst) (t : Option Terminator) : Prop :=
  ∃ k ∈ b.blocks, k.number = b.current ∧
    ∃ k' ∈ blocks, k'.number = k.number ∧ k'.insts = k.insts ++ is ∧ k'.term = t

section points

variable {blocks : List Block} {b c : Body}

theorem Extends.refl (b : Body) : Extends b.blocks b :=
  ⟨fun _ hk _ => hk, fun k hk _ => ⟨k, hk, rfl, List.prefix_rfl⟩⟩

theorem Extends.of_grows (he : Extends blocks c) (h : Grows base b c) : Extends blocks b where
  closed k hk ht := he.closed k (h.closed k hk ht) ht
  current k hk hn := by
    obtain ⟨k₁, hk₁, hn₁, prefix₁, ended | current⟩ := h.current k hk hn
    · exact ⟨k₁, he.closed k₁ hk₁ ended, hn₁, prefix₁⟩
    · obtain ⟨k₂, hk₂, hn₂, prefix₂⟩ := he.current k₁ hk₁ current
      exact ⟨k₂, hk₂, hn₂.trans hn₁, prefix₁.trans prefix₂⟩

theorem Extends.of_goto (he : Extends blocks (b.goto n)) (hb : b.Ended) : Extends blocks b :=
  ⟨he.closed, fun k hk hn => ⟨k, he.closed k hk (hb k hk hn), rfl, List.prefix_rfl⟩⟩

variable (hd : (blocks.map (·.number)).Nodup)

include hd

theorem Rest.append (he : Extends blocks (b.append i)) (h : Rest blocks b is t) :
    ∃ js, is = i :: js ∧ Rest blocks (b.append i) js t := by
  obtain ⟨k, hk, hn, k', hk', hn', insts, term⟩ := h
  have mem : { k with insts := k.insts ++ [i] } ∈ (b.append i).blocks :=
    Body.mem_onCurrent.2 ⟨k, hk, if_pos hn⟩
  obtain ⟨k'', hk'', hn'', js, hjs⟩ := he.current _ mem hn
  obtain rfl : k'' = k' := List.inj_on_of_nodup_map hd hk'' hk' (hn''.trans hn'.symm)
  refine ⟨js, ?_, _, mem, hn, k'', hk'', hn'', hjs.symm, term⟩
  rw [insts, List.append_assoc, List.append_cancel_left_eq] at hjs
  exact hjs.symm

theorem rest_close (he : Extends blocks (b.close t)) (h : Rest blocks b is t') :
    is = [] ∧ t' = some t := by
  obtain ⟨k, hk, hn, k', hk', hn', insts, term⟩ := h
  have mem : { k with term := some t } ∈ (b.close t).blocks :=
    Body.mem_onCurrent.2 ⟨k, hk, if_pos hn⟩
  have same : { k with term := some t } = k' :=
    List.inj_on_of_nodup_map hd (he.closed _ mem rfl) hk' hn'.symm
  subst same
  exact ⟨(List.self_eq_append_right.1 insts), term.symm⟩

omit hd

theorem rest_of_close (hs : b.Sound) (he : Extends blocks (b.close t)) :
    Rest blocks b [] (some t) := by
  obtain ⟨k, hk, hn⟩ := hs.current
  have mem : { k with term := some t } ∈ (b.close t).blocks :=
    Body.mem_onCurrent.2 ⟨k, hk, if_pos hn⟩
  exact ⟨k, hk, hn, _, he.closed _ mem rfl, rfl, (List.append_nil _).symm, rfl⟩

end points

section leading

variable (m : Module) (f : Func)

/-- From the point that a body has come to, a run leads out of the function. -/
def EndsAt (b : Body) (s : State) (v : Option Word) (t : State) : Prop :=
  ∀ is term, Rest f.blocks b is term → Ends m f is term s v t

/-- From one point with a state, a run leads to another. -/
def Leads (b : Body) (s : State) (c : Body) (t : State) : Prop :=
  ∀ v u, EndsAt m f c t v u → EndsAt m f b s v u

variable {m f} {b c d : Body} {s t u : State} {v : Option Word} {i : Inst}

theorem Leads.refl (b : Body) (s : State) : Leads m f b s b s := fun _ _ h => h

theorem Leads.trans (h : Leads m f b s c t) (k : Leads m f c t d u) : Leads m f b s d u :=
  fun v r hr => h v r (k v r hr)

variable (hd : (f.blocks.map (·.number)).Nodup)

include hd

theorem Leads.append (he : Extends f.blocks (b.append i)) (hi : Does m i s t) :
    Leads m f b s (b.append i) t := by
  intro v u h is term hr
  obtain ⟨js, rfl, hjs⟩ := hr.append hd he
  exact .cons hi (h js term hjs)

theorem Leads.give {inst : Nat → Inst} (he : Extends f.blocks (b.give inst))
    (hi : Does m (inst b.results) s t) : Leads m f b s (b.give inst) t := by
  have longer : Extends f.blocks (b.append (inst b.results)) := ⟨he.closed, he.current⟩
  intro v u h
  exact Leads.append hd longer hi v u h

theorem endsAt_close (he : Extends f.blocks (b.close term)) (h : Ends m f [] (some term) s v t) :
    EndsAt m f b s v t := by
  intro is term' hr
  obtain ⟨rfl, rfl⟩ := rest_close hd he hr
  exact h

theorem EndsAt.enter (he : Extends f.blocks c) (hc : (⟨c.current, [], none⟩ : Block) ∈ c.blocks)
    (h : EndsAt m f c s v t) :
    ∃ block, f.block? c.current = some block ∧ Ends m f block.insts block.term s v t := by
  obtain ⟨block, mem, number, -⟩ := he.current _ hc rfl
  refine ⟨block, ?_, h _ _ ⟨_, hc, rfl, block, mem, number, rfl, rfl⟩⟩
  have found := Simulation.find?_name hd mem
  rw [number] at found
  exact found

end leading

/-- The states of a run and of an evaluation agree on what can be seen from outside. -/
structure Agrees (w : Meaning.State) (s : State) : Prop where
  globals : ∀ x, s.globals x = w.globals.lookup x
  printed : s.printed = w.printed

/-- A state inside a function, and the state of the evaluation that it follows. -/
structure Fits (ctx : Context) (w : Meaning.State) (s : State) : Prop where
  agrees : Agrees w s
  slots : ∀ x id, ctx.slots.lookup x = some id →
    ∃ v, w.frame.lookup x = some v ∧ s.frame.cells id = some (some v)
  hidden : ∀ x, ctx.slots.lookup x = none → w.frame.lookup x = none
  scratch : ∀ id, ctx.scratch = some id → (s.frame.cells id).isSome = true

/-- A context for the code at a place of a program, and a function that the code is part of. -/
structure Site (p : Program) (mode : Arithmetic) (f : Func) (ctx : Context)
    (place : Option FuncDef) : Prop where
  numbers : (f.blocks.map (·.number)).Nodup
  serves : Serves ctx p place
  mode : ctx.mode = mode
  only : ∀ x id, ctx.slots.lookup x = some id → ∃ g, place = some g ∧ x ∈ Rules.slotNames g
  distinct : ∀ x y id, ctx.slots.lookup x = some id → ctx.slots.lookup y = some id → x = y
  scratch : ∀ x id, ctx.slots.lookup x = some id → ctx.scratch ≠ some id

section states

variable {ctx : Context} {w : Meaning.State} {s t : State}

theorem Fits.frame (h : Fits ctx w s) (ha : t.globals = s.globals) (hp : t.printed = s.printed)
    (hc : t.frame.cells = s.frame.cells) : Fits ctx w t where
  agrees := ⟨fun x => by rw [ha, h.agrees.globals x], by rw [hp, h.agrees.printed]⟩
  slots x id hx := by
    rw [hc]
    exact h.slots x id hx
  hidden := h.hidden
  scratch id hid := by
    rw [hc]
    exact h.scratch id hid

theorem Fits.give (h : Fits ctx w s) (id : Nat) (v : Word) : Fits ctx w (s.give id v) :=
  h.frame rfl rfl rfl

theorem Fits.giveBit (h : Fits ctx w s) (id : Nat) (b : Bool) : Fits ctx w (s.giveBit id b) :=
  h.frame rfl rfl rfl

/-- The results below a number and the arguments are the same. -/
structure Keeps (n : Nat) (s t : State) : Prop where
  words : ∀ id < n, t.frame.words id = s.frame.words id
  args : t.frame.args = s.frame.args

namespace Keeps

variable {n k : Nat} {u : State}

theorem refl (n : Nat) (s : State) : Keeps n s s := ⟨fun _ _ => rfl, rfl⟩

theorem trans (h : Keeps n s t) (g : Keeps k t u) (hk : n ≤ k) : Keeps n s u where
  words id hid := (g.words id (Nat.lt_of_lt_of_le hid hk)).trans (h.words id hid)
  args := g.args.trans h.args

theorem give (s : State) (id : Nat) (v : Word) : Keeps id s (s.give id v) where
  words _ hk := Function.update_of_ne (Nat.ne_of_lt hk) _ _
  args := rfl

theorem giveBit (n : Nat) (s : State) (id : Nat) (b : Bool) : Keeps n s (s.giveBit id b) :=
  ⟨fun _ _ => rfl, rfl⟩

theorem value (h : Keeps n s t) (hv : v.Below n) : t.frame.value? v = s.frame.value? v := by
  cases v with
  | const => rfl
  | result id => exact h.words id hv
  | param i => rw [Frame.value?, Frame.value?, h.args]

theorem values (h : Keeps n s t) {vs : List Operand} (hv : ∀ v ∈ vs, v.Below n) :
    vs.mapM t.frame.value? = vs.mapM s.frame.value? := by
  induction vs with
  | nil => rfl
  | cons v rest ih =>
    rw [List.mapM_cons, List.mapM_cons, h.value (hv v List.mem_cons_self),
      ih fun u hu => hv u (List.mem_cons_of_mem _ hu)]

end Keeps

theorem value?_give (s : State) (id : Nat) (v : Word) :
    (s.give id v).frame.value? (.result id) = some v := Function.update_self _ _ _

theorem value?_ofInt (frame : Frame) (n : Int) :
    frame.value? (.ofInt n) = some (BitVec.ofInt 32 n) := rfl

end states

/-- Where a name has its value: in a cell of the function, or as a global that no such cell hides. -/
inductive Located (ctx : Context) (x : String) : Cell → Prop
  | slot {id : Nat} (h : ctx.slots.lookup x = some id) : Located ctx x (.slot id)
  | global (h : ctx.slots.lookup x = none) : Located ctx x (.global x)

section names

variable {p : Program} {mode : Arithmetic} {f : Func} {ctx : Context} {place : Option FuncDef}
  {w : Meaning.State} {s : State} {span : Span} {x : String} {type : Ty} {scope : Scope}
  {cell : Cell} {b : Body}

theorem Site.located (site : Site p mode f ctx place) (hb : Rules.Bound p place x type scope)
    (h : ctx.cell span x scope b = .ok (cell, b)) : Located ctx x cell := by
  obtain ⟨-, ⟨-, id, hid, rfl⟩ | ⟨rfl, -, rfl⟩⟩ := cell_ok h
  · exact .slot hid
  · refine .global ?_
    by_contra hx
    obtain ⟨id, hid⟩ := Option.ne_none_iff_exists'.1 hx
    obtain ⟨g, hg, mem⟩ := site.only x id hid
    cases hb with
    | global _ _ visible => exact visible g hg mem

theorem Fits.read (h : Fits ctx w s) (hv : w.value? x = some v) (hc : Located ctx x cell) :
    s.read? cell = some v := by
  cases hc with
  | slot hid =>
    obtain ⟨u, hu, stored⟩ := h.slots x _ hid
    simp only [Meaning.State.value?, hu, Option.some_or] at hv
    rw [State.read?, stored, hv]
    rfl
  | global hx =>
    simp only [Meaning.State.value?, h.hidden x hx, Option.none_or] at hv
    rw [State.read?, h.agrees.globals, hv]

theorem Fits.write (site : Site p mode f ctx place) (h : Fits ctx w s)
    (hx : (w.value? x).isSome = true) (v : Word) (hc : Located ctx x cell) :
    ∃ t, s.write? v cell = some t ∧ Fits ctx (w.update x v) t := by
  cases hc with
  | @slot id hid =>
    obtain ⟨u, hu, stored⟩ := h.slots x id hid
    have update : w.update x v = { w with frame := Meaning.assign x v w.frame } := by
      simp [Meaning.State.update, hu]
    refine ⟨s.setCell id (some v), by rw [State.write?, stored]; rfl, ?_⟩
    rw [update]
    refine ⟨⟨h.agrees.globals, h.agrees.printed⟩, fun y k hk => ?_, fun y hy => ?_, fun k hk => ?_⟩
    · rw [Simulation.lookup_assign]
      by_cases hy : y = x
      · subst hy
        obtain rfl := Option.some.inj (hid.symm.trans hk)
        exact ⟨v, by rw [if_pos rfl, hu]; rfl, Function.update_self _ _ _⟩
      · rw [if_neg hy]
        have apart : k ≠ id := by
          rintro rfl
          exact hy (site.distinct y x k hk hid)
        obtain ⟨u', hu', stored'⟩ := h.slots y k hk
        exact ⟨u', hu', (Function.update_of_ne apart _ _).trans stored'⟩
    · rw [Simulation.lookup_assign, if_neg, h.hidden y hy]
      rintro rfl
      rw [hid] at hy
      cases hy
    · have apart : k ≠ id := by
        rintro rfl
        exact site.scratch x k hid hk
      have same : (s.setCell id (some v)).frame.cells k = s.frame.cells k :=
        Function.update_of_ne apart _ _
      rw [same]
      exact h.scratch k hk
  | global hn =>
    have hidden := h.hidden x hn
    have update : w.update x v = { w with globals := Meaning.assign x v w.globals } := by
      simp [Meaning.State.update, hidden]
    have there : (w.globals.lookup x).isSome = true := by
      simpa [Meaning.State.value?, hidden] using hx
    obtain ⟨u, hu⟩ := Option.isSome_iff_exists.1 there
    have stored : s.globals x = some u := (h.agrees.globals x).trans hu
    refine ⟨s.setGlobal x v, by rw [State.write?, stored]; rfl, ?_⟩
    rw [update]
    refine ⟨⟨fun y => ?_, h.agrees.printed⟩, h.slots, h.hidden, h.scratch⟩
    rw [Simulation.lookup_assign]
    by_cases hy : y = x
    · subst hy
      rw [if_pos rfl, hu]
      exact Function.update_self _ _ _
    · rw [if_neg hy]
      exact (Function.update_of_ne hy _ _).trans (h.agrees.globals y)

end names

/-- A run from one point to another has computed the value of an operand. -/
structure Computed (m : Module) (f : Func) (ctx : Context) (w : Meaning.State) (b : Body)
    (s : State) (c : Body) (op : Operand) (v : Word) (t : State) : Prop where
  fits : Fits ctx w t
  value : t.frame.value? op = some v
  keeps : Keeps b.results s t
  leads : Leads m f b s c t

/-- A run from one point to another has computed the values of operands. -/
structure ComputedAll (m : Module) (f : Func) (ctx : Context) (w : Meaning.State) (b : Body)
    (s : State) (c : Body) (ops : List Operand) (vs : List Word) (t : State) : Prop where
  fits : Fits ctx w t
  values : ops.mapM t.frame.value? = some vs
  keeps : Keeps b.results s t
  leads : Leads m f b s c t

section expressions

variable {m : Module} {f : Func} {ctx : Context} {w w' : Meaning.State} {b c d : Body}
  {s t u : State} {op l r : Operand} {v x y : Word}
variable {inst : Nat → Inst}

theorem Lengthens.extends {blocks : List Block} (h : Lengthens b c) (ho : b.Open)
    (he : Extends blocks c) : Extends blocks b := by
  have grows : Grows 0 b c := h.grows ho
  exact he.of_grows grows

variable (hd : (f.blocks.map (·.number)).Nodup)
include hd

section

variable (he : Extends f.blocks (d.give inst))
include he

theorem Computed.of_give (leads : Leads m f b s d t) (keeps : Keeps b.results s t)
    (le : b.results ≤ d.results) (does : Does m (inst d.results) t (u.give d.results v))
    (fits : Fits ctx w u) (kept : Keeps d.results t u) :
    Computed m f ctx w b s (d.give inst) (.result d.results) v (u.give d.results v) where
  fits := fits.give _ _
  value := value?_give _ _ _
  keeps := (keeps.trans kept le).trans (.give u d.results v) le
  leads := leads.trans (.give hd he does)

theorem Computed.step (h : Computed m f ctx w b s d op x t) (le : b.results ≤ d.results)
    (step : (inst d.results).step? t = some (t.give d.results v)) :
    Computed m f ctx w b s (d.give inst) (.result d.results) v (t.give d.results v) :=
  .of_give hd he h.leads h.keeps le (.step step) h.fits (.refl _ _)

theorem unary_computed (hi : ∀ id, unaryInst uop op id = some (inst id))
    (h : Computed m f ctx w b s d op x t) (le : b.results ≤ d.results)
    (hu : (Meaning.unary uop x).run w = (.ok v, w)) :
    Computed m f ctx w b s (d.give inst) (.result d.results) v (t.give d.results v) := by
  refine h.step hd he le ?_
  cases uop with
  | neg =>
    cases hu
    rw [← Option.some.inj (hi d.results)]
    simp only [Inst.step?, h.value, value?_ofInt, Option.bind_eq_bind, Option.bind_some, arith?,
      Meaning.neg_eq]
    rfl
  | not =>
    cases hu
    rw [← Option.some.inj (hi d.results)]
    simp only [Inst.step?, h.value, ]
    rfl
  | other code => cases hi d.results

end

theorem binary_computed (h : binary o l r d = .ok (op, c)) (ho : d.Open) (he : Extends f.blocks c)
    (fits : Fits ctx w t) (keeps : Keeps b.results s t) (leads : Leads m f b s d t)
    (le : b.results ≤ d.results) (hl : t.frame.value? l = some x) (hr : t.frame.value? r = some y)
    (applies : Meaning.Applies o x y v) : ∃ u, Computed m f ctx w b s c op v u := by
  rcases binary_ok h with ⟨comparison, rfl, rfl⟩ | ⟨arithmetic, rfl, rfl⟩
  · obtain ⟨bit, compares, widens⟩ := compare?_of_applies applies comparison
    have first : Extends f.blocks (d.give fun id => .compare id o l r) :=
      (Lengthens.give _ _).extends ((Lengthens.give _ _).opened ho) he
    have compare : Does m (.compare d.results o l r) t (t.giveBit d.results bit) := by
      refine .step ?_
      simp only [Inst.step?, hl, hr, Option.bind_eq_bind, Option.bind_some, compares]
      rfl
    have known : (t.giveBit d.results bit).frame.bits d.results = some bit :=
      Function.update_self _ _ _
    have widen : Does m (.widen (d.results + 1) d.results) (t.giveBit d.results bit)
        ((t.giveBit d.results bit).give (d.results + 1) v) := by
      refine .step ?_
      simp only [Inst.step?, known, Option.bind_eq_bind, Option.bind_some, widens]
      rfl
    exact ⟨_, .of_give hd he (leads.trans (.give hd first compare))
      (keeps.trans (.giveBit _ _ _ _) (Nat.le_refl _)) (Nat.le_succ_of_le le) widen
      (fits.giveBit _ _) (.refl _ _)⟩
  · have arith : Does m (.arith d.results o l r) t (t.give d.results v) := by
      refine .step ?_
      simp only [Inst.step?, hl, hr, Option.bind_eq_bind, Option.bind_some,
        arith?_of_applies applies arithmetic]
      rfl
    exact ⟨_, .of_give hd he leads keeps le arith fits (.refl _ _)⟩

theorem condition_computed (h : condition ctx e b = .ok (bit, c)) (ho : b.Open)
    (he : Extends f.blocks c)
    (value : ∀ {d op}, expr ctx e b = .ok (op, d) → Extends f.blocks d → ∃ t, Computed m f ctx w b s d op v t) :
    ∃ t, Fits ctx w t ∧ t.frame.bits bit = some (v != 0) ∧ Leads m f b s c t := by
  obtain ⟨op, d, hexpr, rfl, rfl⟩ := condition_ok h
  have opened := (expr_lengthens e hexpr).1.opened ho
  obtain ⟨t, computed⟩ := value hexpr ((Lengthens.give _ _).extends opened he)
  have compare : Does m (.compare d.results .ne op (.ofInt 0)) t
      (t.giveBit d.results (v != 0)) := by
    refine .step ?_
    simp only [Inst.step?, computed.value, ]
    rfl
  exact ⟨_, computed.fits.giveBit _ _, Function.update_self _ _ _,
    computed.leads.trans (.give hd he compare)⟩

end expressions

/-- How a run leaves the code of a statement: it comes to the point after it, or it leaves the
function. -/
inductive Goes (m : Module) (f : Func) (ctx : Context) (b : Body) (s : State) (c : Body)
    (w : Meaning.State) : Meaning.Flow → Prop
  | next {t : State} (opened : c.Open) (fits : Fits ctx w t) (leads : Leads m f b s c t) :
      Goes m f ctx b s c w .next
  | ret {v : Word} {t : State} (agrees : Agrees w t) (ends : EndsAt m f b s (some v) t) :
      Goes m f ctx b s c w (.ret v)

/-- How a run leaves clauses whose exit has a number: it jumps there, or it leaves the function. -/
inductive Exits (m : Module) (f : Func) (ctx : Context) (exit : Nat) (reached : Bool) (b : Body)
    (s : State) (w : Meaning.State) : Meaning.Flow → Prop
  | next {t : State} (jumps : reached = true) (fits : Fits ctx w t)
      (leads : ∀ v u, Ends m f [] (some (.jump exit)) t v u → EndsAt m f b s v u) :
      Exits m f ctx exit reached b s w .next
  | ret {v : Word} {t : State} (agrees : Agrees w t) (ends : EndsAt m f b s (some v) t) :
      Exits m f ctx exit reached b s w (.ret v)

section statements

variable {m : Module} {f : Func} {ctx : Context} {w : Meaning.State} {b c d g : Body}
  {s t : State} {flow : Meaning.Flow} {exit yes no base target bit : Nat} {reached : Bool}

theorem Goes.after (leads : Leads m f b s d t) (h : Goes m f ctx d t c w flow) :
    Goes m f ctx b s c w flow := by
  cases h with
  | next opened fits leads' => exact .next opened fits (leads.trans leads')
  | ret agrees ends => exact .ret agrees (leads _ _ ends)

theorem Exits.after (leads : Leads m f b s d t) (h : Exits m f ctx exit reached d t w flow) :
    Exits m f ctx exit reached b s w flow := by
  cases h with
  | next jumps fits leads' => exact .next jumps fits fun v u hu => leads v u (leads' v u hu)
  | ret agrees ends => exact .ret agrees (leads _ _ ends)

theorem Exits.mono (h : Exits m f ctx exit reached b s w flow)
    (hr : reached = true → reached' = true) : Exits m f ctx exit reached' b s w flow := by
  cases h with
  | next jumps fits leads => exact .next (hr jumps) fits leads
  | ret agrees ends => exact .ret agrees ends

theorem Leads.grow (b : Body) (s : State) : Leads m f b s b.grow s := by
  rintro v u h is term ⟨k, hk, hn, rest⟩
  exact h is term ⟨k, List.mem_append_left _ hk, hn, rest⟩

theorem Leads.of_grow (hs : b.Sound) (s : State) : Leads m f b.grow s b s := by
  rintro v u h is term ⟨k, hk, hn, rest⟩
  rcases List.mem_append.1 hk with hk | hk
  · exact h is term ⟨k, hk, hn, rest⟩
  · have current := hs.current_le
    rw [List.mem_singleton.1 hk] at hn
    change b.made + 1 = b.current at hn
    omega

section

variable (hd : (f.blocks.map (·.number)).Nodup)

include hd

theorem exits_of_goes (he : Extends f.blocks (g.jump exit)) (h : Goes m f ctx b s g w flow) :
    Exits m f ctx exit g.isOpen b s w flow := by
  cases h with
  | next opened fits leads =>
    have isOpen := Body.isOpen_iff.2 opened
    rw [Body.jump, Body.settle, if_pos isOpen] at he
    exact .next isOpen fits fun v u hu => leads v u (endsAt_close hd he hu)
  | ret agrees ends => exact .ret agrees ends

theorem goes_of_exits (hs : g.Sound) (hw : (g.jump exit).Waits exit)
    (hc : reached = true → c = (g.jump exit).goto exit) (he : Extends f.blocks c)
    (h : Exits m f ctx exit reached b s w flow) : Goes m f ctx b s c w flow := by
  cases h with
  | next jumps fits leads =>
    rw [hc jumps] at he ⊢
    refine .next ((hs.settle _).goto_open hw) fits fun v u hu => leads v u ?_
    obtain ⟨block, found, ends⟩ := hu.enter hd he hw.mem
    exact .jump found ends
  | ret agrees ends => exact .ret agrees ends

end

/-- A condition that was built in finished blocks, with the body after the code that runs if it
holds. That code goes on at the block `target`. -/
structure Forked (blocks : List Block) (base : Nat) (d : Body) (bit yes no : Nat) (g : Body)
    (target : Nat) : Prop where
  forks : Forks base d yes no
  builds : Builds ((d.close (.branch bit yes no)).goto yes) g
  whole : Extends blocks ((g.jump target).goto no)

namespace Forked

variable {blocks : List Block}

section

variable (h : Forked blocks base d bit yes no g target)
include h

theorem extends_jump :
    Extends blocks (g.jump target) := h.whole.of_goto (h.builds.sound.settle_ended _)

theorem extends_body : Extends blocks g :=
  h.whole.of_grows (h.forks.after_grows h.builds target)

theorem extends_inside : Extends blocks ((d.close (.branch bit yes no)).goto yes) :=
  h.extends_body.of_grows (h.forks.body_grows h.builds)

theorem extends_test : Extends blocks d :=
  h.extends_inside.of_grows (h.forks.inside_grows _)

end

variable (hd : (f.blocks.map (·.number)).Nodup) (h : Forked f.blocks base d bit yes no g target)
include hd h

theorem leads_yes (hb : s.frame.bits bit = some true) :
    Leads m f d s ((d.close (.branch bit yes no)).goto yes) s := by
  intro v u hu
  obtain ⟨block, found, ends⟩ := hu.enter hd h.extends_inside (h.forks.waitsYes.close _).mem
  exact endsAt_close hd (h.extends_inside.of_goto (Body.Ended.close _ _)) (.branch hb found ends)

theorem leads_no (hb : s.frame.bits bit = some false) :
    Leads m f d s ((g.jump target).goto no) s := by
  intro v u hu
  obtain ⟨block, found, ends⟩ := hu.enter hd h.whole (h.forks.after_waits h.builds target).mem
  exact endsAt_close hd (h.extends_inside.of_goto (Body.Ended.close _ _)) (.branch hb found ends)

end Forked

end statements

end BlockGraph
end WordScript
