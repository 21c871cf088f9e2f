import WordScript.Proofs.GraphSimulation

/-! Runs of the functions of a program.

What is built for each construct follows it if what is built for its parts does. So a whole
evaluation is followed by induction on how it comes to its end, through calls as well. -/
namespace WordScript
namespace BlockGraph

open Rules (Carries CarriesScope)

/-- A module that knows the functions of the host and of a program. -/
structure Linked (m : Module) (p : Program) (mode : Arithmetic) : Prop where
  typed : Rules.WellTyped p
  annotated : Rules.Annotated p
  host : ∀ i ∈ StackCode.hosts,
    m.func? (.outer i.1) = some ⟨.outer i.1, List.replicate i.2.reads "", true, []⟩
  user : ∀ d ∈ p.funcs, ∃ results body,
    funcBody (contextOf mode p) d.params.length d (Body.empty results) = .ok ((), body) ∧
      m.func? (.user d.name) =
        some ⟨.user d.name, d.params.map (·.name), true, body.blocks⟩

section goals

variable (m : Module) (p : Program) (mode : Arithmetic)

/-- The code of an expression computes its value. -/
def ExprRuns (e : Expr) (w : Meaning.State) (v : Word) (w' : Meaning.State) : Prop :=
  ∀ {f ctx place b c op s}, Site p mode f ctx place → e.All (Carries p place) →
    expr ctx e b = .ok (op, c) → b.Open → Extends f.blocks c → Fits ctx w s →
    ∃ t, Computed m f ctx w' b s c op v t

def ArgumentsRun (args : List Expr) (w : Meaning.State) (vs : List Word) (w' : Meaning.State) :
    Prop :=
  ∀ {f ctx place b c ops s}, Site p mode f ctx place → Expr.AllIn (Carries p place) args →
    arguments ctx args b = .ok (ops, c) → b.Open → Extends f.blocks c → Fits ctx w s →
    ∃ t, ComputedAll m f ctx w' b s c ops vs t

/-- The function that a name stands for replies as the evaluation of its call does. -/
def CallRuns (name : String) (vs : List Word) (w : Meaning.State) (v : Word)
    (w' : Meaning.State) : Prop :=
  ∀ {ctx : Context} {callee s}, ctx.funcs = p.funcs.map (·.name) → ctx.callee? name = some callee →
    Agrees w s → ∃ t, Replies m callee vs s v t ∧ Agrees w' t ∧ t.frame = s.frame ∧
      w'.frame = w.frame

def StmtRuns (st : Stmt) (w : Meaning.State) (flow : Meaning.Flow) (w' : Meaning.State) : Prop :=
  ∀ {f ctx place b c s}, Site p mode f ctx place → st.All (Carries p place) (CarriesScope p place) →
    stmt ctx st b = .ok ((), c) → b.Sound → b.Open → Extends f.blocks c → Fits ctx w s →
    Goes m f ctx b s c w' flow

def BlockRuns (ss : List Stmt) (w : Meaning.State) (flow : Meaning.Flow) (w' : Meaning.State) :
    Prop :=
  ∀ {f ctx place b c s}, Site p mode f ctx place →
    Stmt.AllIn (Carries p place) (CarriesScope p place) ss →
    stmts ctx ss b = .ok ((), c) → b.Sound → b.Open → Extends f.blocks c → Fits ctx w s →
    Goes m f ctx b s c w' flow

def ClausesRun (es : List Elif) (otherwise : List Stmt) (w : Meaning.State) (flow : Meaning.Flow)
    (w' : Meaning.State) : Prop :=
  ∀ {f ctx place b d g s exit others}, Site p mode f ctx place →
    Stmt.AllInElifs (Carries p place) (CarriesScope p place) es →
    Stmt.AllIn (Carries p place) (CarriesScope p place) otherwise →
    elifs ctx exit es b = .ok (others, d) → stmts ctx otherwise d = .ok ((), g) →
    b.Sound → b.Open → Extends f.blocks (g.jump exit) → Fits ctx w s →
    Exits m f ctx exit (others || g.isOpen) b s w' flow

end goals

section cases

variable {m : Module} {p : Program} {mode : Arithmetic} {w w₁ w₂ w₃ : Meaning.State} {span : Span}
  {type : Option Ty} {e lhs rhs : Expr} {v x y : Word} {vs : List Word} {flow : Meaning.Flow}
variable {name : String} {ctx : Context} {s t : State} {f : Func} {callee : Symbol}
  {host : Machine.HostFunc} {place : Option FuncDef}

theorem literal_runs (l : Literal) (w : Meaning.State) :
    ExprRuns m p mode (.literal l) w (Meaning.literal l) w := by
  intro f ctx place b c op s site _ h _ _ fits
  cases h
  refine ⟨s, fits, ?_, .refl _ _, .refl _ _⟩
  rw [value?_ofInt, Literal.ofInt_encode]

theorem name_runs (value : w.value? name = some v) :
    ExprRuns m p mode (.name span type name scope) w v w := by
  intro f ctx place b c op s site carries h _ he fits
  obtain ⟨ty, -, -, bound⟩ := carries
  obtain ⟨cell, hcell, rfl, rfl⟩ := expr_name_ok h
  have read := fits.read value (site.located (bound span type name scope rfl) hcell)
  have load : Does m (.load b.results cell) s (s.give b.results v) := by
    refine .step ?_
    simp only [Inst.step?, read, ]
    rfl
  exact ⟨_, .of_give site.numbers he (.refl b s) (.refl _ s) (Nat.le_refl _) load fits (.refl _ s)⟩

theorem unary_runs (operand : ExprRuns m p mode e w x w₁)
    (applies : (Meaning.unary op x).run w₁ = (.ok v, w₁)) :
    ExprRuns m p mode (.unary span type op e) w v w₁ := by
  intro f ctx place b c out s site carries h ho he fits
  obtain ⟨u, d, inst, hexpr, rfl, rfl, hi⟩ := expr_unary_ok h
  have longer := (expr_lengthens e hexpr).1
  obtain ⟨t, computed⟩ := operand site carries.2 hexpr ho
    ((Lengthens.give _ _).extends (longer.opened ho) he) fits
  exact ⟨_, unary_computed site.numbers he hi computed longer.results applies⟩

theorem binary_runs (left : ExprRuns m p mode lhs w x w₁) (right : ExprRuns m p mode rhs w₁ y w₂)
    (operation : op.wordOp? mode = some o) (applies : Meaning.Applies o x y v) :
    ExprRuns m p mode (.binary span type op lhs rhs) w v w₂ := by
  intro f ctx place b c out s site carries h ho he fits
  obtain ⟨l, r, d, d', o', hl, hr, ho', hb⟩ := expr_binary_ok h
  rw [site.mode, operation] at ho'
  obtain rfl := Option.some.inj ho'
  obtain ⟨longer₁, below⟩ := expr_lengthens lhs hl
  have longer₂ := (expr_lengthens rhs hr).1
  have open₁ := longer₁.opened ho
  have open₂ := longer₂.opened open₁
  have extends₂ := (binary_lengthens hb).1.extends open₂ he
  obtain ⟨t, first⟩ := left site carries.2.1 hl ho (longer₂.extends open₁ extends₂) fits
  obtain ⟨u, second⟩ := right site carries.2.2 hr open₁ extends₂ first.fits
  have kept : u.frame.value? l = some x := (second.keeps.value below).trans first.value
  exact binary_computed site.numbers hb open₂ he second.fits
    (first.keeps.trans second.keeps longer₁.results) (first.leads.trans second.leads)
    (Nat.le_trans longer₁.results longer₂.results) kept second.value applies

theorem arguments_nil_run (w : Meaning.State) : ArgumentsRun m p mode [] w [] w := by
  intro f ctx place b c ops s site _ h _ _ fits
  cases h
  exact ⟨s, fits, rfl, .refl _ _, .refl _ _⟩

theorem arguments_cons_run (head : ExprRuns m p mode e w v w₁)
    (tail : ArgumentsRun m p mode rest w₁ vs w₂) :
    ArgumentsRun m p mode (e :: rest) w (v :: vs) w₂ := by
  intro f ctx place b c ops s site carries h ho he fits
  obtain ⟨op, ops', d, hexpr, hrest, rfl⟩ := arguments_cons_ok h
  obtain ⟨longer₁, below⟩ := expr_lengthens e hexpr
  have longer₂ := (arguments_lengthen rest hrest).1
  have open₁ := longer₁.opened ho
  obtain ⟨t, first⟩ := head site carries.1 hexpr ho (longer₂.extends open₁ he) fits
  obtain ⟨u, others⟩ := tail site carries.2 hrest open₁ he first.fits
  refine ⟨u, others.fits, ?_, first.keeps.trans others.keeps longer₁.results,
    first.leads.trans others.leads⟩
  rw [List.mapM_cons, others.keeps.value below, first.value, others.values]
  rfl

theorem Fits.replied (h : Fits ctx w s) (agrees : Agrees w₁ t) (frame : t.frame = s.frame)
    (same : w₁.frame = w.frame) : Fits ctx w₁ t where
  agrees := agrees
  slots := by
    rw [frame, same]
    exact h.slots
  hidden := by
    rw [same]
    exact h.hidden
  scratch := by
    rw [frame]
    exact h.scratch

theorem call_computed (hd : (f.blocks.map (·.number)).Nodup)
    (he : Extends f.blocks (d.give fun id => .call id callee ops))
    (h : ComputedAll m f ctx w b s d ops vs t) (le : b.results ≤ d.results)
    (replies : Replies m callee vs t v u) (agrees : Agrees w₁ u) (frame : u.frame = t.frame)
    (same : w₁.frame = w.frame) :
    Computed m f ctx w₁ b s (d.give fun id => .call id callee ops) (.result d.results) v
      (u.give d.results v) := by
  refine .of_give hd he h.leads h.keeps le (.call h.values replies)
    (h.fits.replied agrees frame same) ?_
  exact ⟨fun id _ => by rw [frame], by rw [frame]⟩

theorem callee?_outer (hf : ctx.funcs = p.funcs.map (·.name)) (free : ∀ d ∈ p.funcs, d.name ≠ name)
    (h : ctx.callee? name = some callee) : callee = .outer name := by
  have absent : ¬ ctx.funcs.contains name = true := by
    rw [hf, List.contains_iff_mem]
    intro mem
    obtain ⟨d, hd, heq⟩ := List.mem_map.1 mem
    exact free d hd heq
  rw [Context.callee?, if_neg absent] at h
  split at h
  · exact (Option.some.inj h).symm
  · cases h

theorem callee?_user (hf : ctx.funcs = p.funcs.map (·.name)) (hd : d ∈ p.funcs)
    (h : ctx.callee? d.name = some callee) : callee = .user d.name := by
  have present : ctx.funcs.contains d.name = true := by
    rw [hf, List.contains_iff_mem]
    exact List.mem_map_of_mem hd
  rw [Context.callee?, if_pos present] at h
  exact (Option.some.inj h).symm

theorem hosts_reply : ∀ i ∈ StackCode.hosts,
    Machine.HostFunc.names.lookup (Machine.keyword i.1) = some i.2 := by
  decide

theorem host_replies (hl : Linked m p mode) (hi : i ∈ StackCode.hosts) (hn : i.2.reads = vs.length)
    (hr : i.2.reply? vs = some reply) (s : State) :
    Replies m (.outer i.1) vs s reply.value
      { s with printed := reply.line.toList ++ s.printed } := by
  refine .host (hl.host i hi) (by simpa using hn) rfl ?_
  rw [hostReply?, hosts_reply i hi]
  exact hr

theorem hosts_of_hostFunc (h : Meaning.hostFunc? name = some host) :
    (name, host) ∈ StackCode.hosts := by
  unfold Meaning.hostFunc? at h
  split at h <;> cases h <;> decide

theorem hostCall_runs (hl : Linked m p mode) (free : ∀ d ∈ p.funcs, d.name ≠ name)
    (found : Meaning.hostFunc? name = some host) (arity : host.reads = vs.length)
    (replies : host.reply? vs = some reply) : CallRuns m p name vs w reply.value w := by
  intro ctx callee s hf hcallee agrees
  obtain rfl := callee?_outer hf free hcallee
  refine ⟨_, host_replies hl (hosts_of_hostFunc found) arity replies s, ?_, rfl, rfl⟩
  rw [Simulation.line_eq_none found replies]
  exact agrees

theorem print_runs (hl : Linked m p mode) (argument : ExprRuns m p mode e w v w₁)
    (typed : e.type = some ty) :
    ExprRuns m p mode (.call span type "print" [e]) w v
      { w₁ with printed := Meaning.line ty v :: w₁.printed } := by
  intro f ctx place b c op s site carries h ho he fits
  obtain ⟨ops, d, name, callee, hargs, named, hcallee, rfl, rfl⟩ := expr_call_ok h
  have printer : printer? e.type = some name := by
    cases named with
    | print printer => exact printer
    | other _ other => exact absurd rfl other
  rw [typed] at printer
  obtain ⟨host, mem, reads, reply⟩ := Simulation.printer_host printer
  have reserved : name ∈ Rules.hostNames := by
    cases ty <;> cases printer <;> decide
  have free : ∀ d ∈ p.funcs, d.name ≠ name := by
    rintro d hd rfl
    exact hl.typed.notHost d hd reserved
  obtain rfl := callee?_outer site.serves.funcs free hcallee
  have longer := (arguments_lengthen [e] hargs).1
  obtain ⟨t, computed⟩ := arguments_cons_run argument (arguments_nil_run _) site carries.2 hargs ho
    ((Lengthens.give _ _).extends (longer.opened ho) he) fits
  refine ⟨_, call_computed site.numbers he computed longer.results
    (host_replies hl mem (by simpa using reads) (reply v) t) ?_ rfl rfl⟩
  exact ⟨computed.fits.agrees.globals, congrArg (_ :: ·) computed.fits.agrees.printed⟩

theorem call_runs (arguments : ArgumentsRun m p mode args w vs w₁) (other : name ≠ "print")
    (answer : CallRuns m p name vs w₁ v w₂) :
    ExprRuns m p mode (.call span type name args) w v w₂ := by
  intro f ctx place b c op s site carries h ho he fits
  obtain ⟨ops, d, target, callee, hargs, named, hcallee, rfl, rfl⟩ := expr_call_ok h
  have same : target = name := by
    cases named with
    | print => exact absurd rfl other
    | other => rfl
  subst same
  have longer := (arguments_lengthen args hargs).1
  obtain ⟨t, computed⟩ := arguments site carries.2 hargs ho
    ((Lengthens.give _ _).extends (longer.opened ho) he) fits
  obtain ⟨u, replies, agrees, frame, same⟩ := answer site.serves.funcs hcallee computed.fits.agrees
  exact ⟨_, call_computed site.numbers he computed longer.results replies agrees frame same⟩

theorem pass_runs (span : Span) (w : Meaning.State) :
    StmtRuns m p mode (.pass span) w .next w := by
  intro f ctx place b c s site _ h _ ho _ fits
  cases h
  exact .next ho fits (.refl b s)

theorem assign_runs (value : ExprRuns m p mode e w v w₁) (bound : (w₁.value? name).isSome = true) :
    StmtRuns m p mode (.assign span name scope e) w .next (w₁.update name v) := by
  intro f ctx place b c s site carries h _ ho he fits
  obtain ⟨ty, target⟩ := carries.1 span name scope e rfl
  obtain ⟨cell, op, d, hcell, hexpr, rfl⟩ := stmt_assign_ok h
  have opened := (expr_lengthens e hexpr).1.opened ho
  have longer := Lengthens.append d (.store op cell)
  obtain ⟨t, computed⟩ := value site carries.2 hexpr ho (longer.extends opened he) fits
  obtain ⟨u, writes, fits'⟩ := computed.fits.write site bound v (site.located target hcell)
  have store : Does m (.store op cell) t u := by
    refine .step ?_
    simp [Inst.step?, computed.value, writes]
  exact .next (longer.opened opened) fits' (computed.leads.trans (.append site.numbers he store))

theorem Fits.setScratch {id : Nat} (site : Site p mode f ctx place) (h : Fits ctx w s)
    (hid : ctx.scratch = some id) (v : Word) :
    s.write? v (.slot id) = some (s.setCell id (some v)) ∧ Fits ctx w (s.setCell id (some v)) := by
  obtain ⟨u, hu⟩ := Option.isSome_iff_exists.1 (h.scratch id hid)
  refine ⟨by rw [State.write?, hu]; rfl, ⟨h.agrees.globals, h.agrees.printed⟩, ?_, h.hidden, ?_⟩
  · intro x k hk
    have apart : k ≠ id := by
      rintro rfl
      exact site.scratch x k hk hid
    obtain ⟨u', hu', stored⟩ := h.slots x k hk
    exact ⟨u', hu', (Function.update_of_ne apart _ _).trans stored⟩
  · intro k hk
    obtain rfl := Option.some.inj (hid.symm.trans hk)
    have stored : (s.setCell id (some v)).frame.cells id = some (some v) :=
      Function.update_self _ _ _
    rw [stored]
    rfl

section

variable (value : ExprRuns m p mode e w v w₁)
include value

theorem kept_runs {id : Nat} (site : Site p mode f ctx place) (carries : e.All (Carries p place))
    (h : stmt ctx (.expr span e) b = .ok ((), c)) (ho : b.Open) (he : Extends f.blocks c)
    (fits : Fits ctx w s) (hid : ctx.scratch = some id) :
    ∃ t, c.Open ∧ Fits ctx w₁ t ∧ Leads m f b s c t ∧ t.frame.cells id = some (some v) := by
  obtain ⟨op, d, hexpr, rfl⟩ := stmt_expr_ok h
  have opened := (expr_lengthens e hexpr).1.opened ho
  have longer := Lengthens.append d (.store op (.slot id))
  rw [hid] at he ⊢
  obtain ⟨t, computed⟩ := value site carries hexpr ho (longer.extends opened he) fits
  obtain ⟨writes, fits'⟩ := computed.fits.setScratch site hid v
  have store : Does m (.store op (.slot id)) t (t.setCell id (some v)) := by
    refine .step ?_
    simp [Inst.step?, computed.value, writes]
  exact ⟨_, longer.opened opened, fits', computed.leads.trans (.append site.numbers he store),
    Function.update_self _ _ _⟩

theorem expr_runs : StmtRuns m p mode (.expr span e) w .next w₁ := by
  intro f ctx place b c s site carries h _ ho he fits
  cases hs : ctx.scratch with
  | some id =>
    obtain ⟨t, opened, fits', leads, -⟩ := kept_runs value site carries.2 h ho he fits hs
    exact .next opened fits' leads
  | none =>
    obtain ⟨op, d, hexpr, rfl⟩ := stmt_expr_ok h
    rw [hs] at he ⊢
    obtain ⟨t, computed⟩ := value site carries.2 hexpr ho he fits
    exact .next ((expr_lengthens e hexpr).1.opened ho) computed.fits computed.leads

theorem ret_runs : StmtRuns m p mode (.ret span e) w (.ret v) w₁ := by
  intro f ctx place b c s site carries h _ ho he fits
  obtain ⟨op, d, hexpr, rfl⟩ := stmt_ret_ok h
  have opened := (expr_lengthens e hexpr).1.opened ho
  have last : Grows 0 d (d.close (.ret (some op))) := .close opened _
  obtain ⟨t, computed⟩ := value site carries.2 hexpr ho (he.of_grows last) fits
  exact .ret computed.fits.agrees
    (computed.leads _ _ (endsAt_close site.numbers he (.ret computed.value)))

end

theorem block_nil_runs (w : Meaning.State) : BlockRuns m p mode [] w .next w := by
  intro f ctx place b c s site _ h _ ho _ fits
  cases h
  exact .next ho fits (.refl b s)

theorem head_leads (head : StmtRuns m p mode st w .next w₁) (site : Site p mode f ctx place)
    (carries : st.All (Carries p place) (CarriesScope p place))
    (h : stmts ctx (st :: rest) b = .ok ((), c)) (hs : b.Sound) (ho : b.Open)
    (he : Extends f.blocks c) (fits : Fits ctx w s) :
    ∃ d t, stmts ctx rest d = .ok ((), c) ∧ d.Sound ∧ d.Open ∧ Fits ctx w₁ t ∧
      Leads m f b s d t := by
  obtain ⟨d, hd, ⟨hopen, hrest⟩ | ⟨hclosed, rfl⟩⟩ := stmts_cons_ok h
  · have first := stmt_builds hd hs ho
    have others := stmts_build hrest first.sound (Body.isOpen_iff.1 hopen)
    cases head site carries hd hs ho (he.of_grows others.grows) fits with
    | next opened fits' leads => exact ⟨d, _, hrest, first.sound, opened, fits', leads⟩
  · cases head site carries hd hs ho he fits with
    | next opened fits' leads =>
      rw [Body.isOpen_iff.2 opened] at hclosed
      cases hclosed

theorem block_cons_runs (head : StmtRuns m p mode st w .next w₁)
    (tail : BlockRuns m p mode rest w₁ flow w₂) : BlockRuns m p mode (st :: rest) w flow w₂ := by
  intro f ctx place b c s site carries h hs ho he fits
  obtain ⟨d, t, hrest, sound, opened, fits', leads⟩ :=
    head_leads head site carries.1 h hs ho he fits
  exact (tail site carries.2 hrest sound opened he fits').after leads

theorem block_left_runs (head : StmtRuns m p mode st w (.ret v) w₁) (rest : List Stmt) :
    BlockRuns m p mode (st :: rest) w (.ret v) w₁ := by
  intro f ctx place b c s site carries h hs ho he fits
  obtain ⟨d, hd, ⟨hopen, hrest⟩ | ⟨-, rfl⟩⟩ := stmts_cons_ok h
  · have first := stmt_builds hd hs ho
    have others := stmts_build hrest first.sound (Body.isOpen_iff.1 hopen)
    cases head site carries.1 hd hs ho (he.of_grows others.grows) fits with
    | ret agrees ends => exact .ret agrees ends
  · cases head site carries.1 hd hs ho he fits with
    | ret agrees ends => exact .ret agrees ends

section loops

variable {body : List Stmt} {f : Func} {ctx : Context} {place : Option FuncDef} {b c d g : Body}
  {s t u : State} {bit : Nat} {r : Option Word}

/-- The point at the header of a loop that starts after a body. -/
def header (b : Body) : Body :=
  (b.grow.grow.grow.close (.jump (b.made + 1))).goto (b.made + 1)

/-- The point inside a loop whose condition was built. -/
def inside (b d : Body) (bit : Nat) : Body :=
  (d.close (.branch bit (b.made + 2) (b.made + 3))).goto (b.made + 2)

/-- A loop that was built, with the bodies after its condition and after its statements. -/
structure Looped (blocks : List Block) (ctx : Context) (e : Expr) (body : List Stmt) (b : Body)
    (bit : Nat) (d g c : Body) : Prop where
  test : condition ctx e (header b) = .ok (bit, d)
  pass : stmts ctx body (inside b d bit) = .ok ((), g)
  after : c = (g.jump (b.made + 1)).goto (b.made + 3)
  fork : Forked blocks b.made d bit (b.made + 2) (b.made + 3) g (b.made + 1)

theorem looped (h : stmt ctx (.while span e body) b = .ok ((), c)) (hs : b.Sound)
    (he : Extends blocks c) : ∃ bit d g, Looped blocks ctx e body b bit d g c := by
  obtain ⟨bit, d, g, test, pass, rfl⟩ := stmt_while_ok h
  have forks := (Forks.loop hs).lengthens (condition_lengthens test)
  exact ⟨bit, d, g, test, pass, rfl, forks,
    stmts_build pass (forks.inside_sound _) (forks.inside_open _), he⟩

theorem Looped.extends_header (h : Looped blocks ctx e body b bit d g c) (hs : b.Sound) :
    Extends blocks (header b) :=
  (condition_lengthens h.test).extends (Forks.loop hs).opened h.fork.extends_test

theorem leads_header (hd : (f.blocks.map (·.number)).Nodup) (hs : b.Sound)
    (he : Extends f.blocks (header b)) : Leads m f b s (header b) s := by
  have entered := ((Body.Waits.new hs).grow.grow).close (.jump (b.made + 1))
  refine (Leads.grow b s).trans ((Leads.grow _ s).trans ((Leads.grow _ s).trans ?_))
  intro v u hu
  obtain ⟨block, found, ends⟩ := hu.enter hd he entered.mem
  exact endsAt_close hd (he.of_goto (Body.Ended.close _ _)) (.jump found ends)

theorem ends_header (hs : b.Sound) (he : Extends f.blocks (header b))
    (h : EndsAt m f b s r u) : Ends m f [] (some (.jump (b.made + 1))) s r u := by
  have before : EndsAt m f b.grow.grow.grow s r u :=
    Leads.of_grow hs.grow.grow s _ _ (Leads.of_grow hs.grow s _ _ (Leads.of_grow hs s _ _ h))
  exact before _ _ (rest_of_close hs.grow.grow.grow (he.of_goto (Body.Ended.close _ _)))

theorem test_leads (site : Site p mode f ctx place) (h : Looped f.blocks ctx e body b bit d g c)
    (hs : b.Sound) (carries : e.All (Carries p place)) (test : ExprRuns m p mode e w v w₁)
    (fits : Fits ctx w s) :
    ∃ t, Fits ctx w₁ t ∧ t.frame.bits bit = some (v != 0) ∧ Leads m f b s d t := by
  have opened := (Forks.loop hs).opened
  obtain ⟨t, fits', known, leads⟩ := condition_computed site.numbers h.test opened
    h.fork.extends_test fun hexpr he => test site carries hexpr opened he fits
  exact ⟨t, fits', known, (leads_header site.numbers hs (h.extends_header hs)).trans leads⟩

theorem stop_runs (test : ExprRuns m p mode e w 0 w₁) :
    StmtRuns m p mode (.while span e body) w .next w₁ := by
  intro f ctx place b c s site carries h hs ho he fits
  obtain ⟨bit, d, g, loop⟩ := looped h hs he
  obtain ⟨t, fits', known, leads⟩ := test_leads site loop hs carries.2.1 test fits
  rw [loop.after]
  exact .next (loop.fork.forks.after_open loop.fork.builds _) fits'
    (leads.trans (loop.fork.leads_no site.numbers known))

theorem pass_leads (site : Site p mode f ctx place) (h : Looped f.blocks ctx e body b bit d g c)
    (hs : b.Sound) (carries : e.All (Carries p place)) (test : ExprRuns m p mode e w v w₁)
    (holds : v ≠ 0) (fits : Fits ctx w s) :
    ∃ t, Fits ctx w₁ t ∧ Leads m f b s (inside b d bit) t := by
  obtain ⟨t, fits', known, leads⟩ := test_leads site h hs carries test fits
  have yes : t.frame.bits bit = some true := by rw [known, bne_iff_ne.2 holds]
  exact ⟨t, fits', leads.trans (h.fork.leads_yes site.numbers yes)⟩

variable (test : ExprRuns m p mode e w v w₁) (holds : v ≠ 0)
include test holds

theorem again_runs (pass : BlockRuns m p mode body w₁ .next w₂)
    (rest : StmtRuns m p mode (.while span e body) w₂ flow w₃) :
    StmtRuns m p mode (.while span e body) w flow w₃ := by
  intro f ctx place b c s site carries h hs ho he fits
  obtain ⟨bit, d, g, loop⟩ := looped h hs he
  obtain ⟨t, fits', leads⟩ := pass_leads site loop hs carries.2.1 test holds fits
  have forks := loop.fork.forks
  cases pass site carries.2.2 loop.pass (forks.inside_sound _) (forks.inside_open _)
    loop.fork.extends_body fits' with
  | next opened fits'' leads' =>
    -- The jump at the end leads back to the point before the loop.
    refine (rest site carries h hs ho he fits'').after ((leads.trans leads').trans ?_)
    have jumps := loop.fork.extends_jump
    rw [Body.jump, Body.settle, if_pos (Body.isOpen_iff.2 opened)] at jumps
    intro r u hu
    exact endsAt_close site.numbers jumps (ends_header hs (loop.extends_header hs) hu)

theorem leave_runs (pass : BlockRuns m p mode body w₁ (.ret x) w₂) :
    StmtRuns m p mode (.while span e body) w (.ret x) w₂ := by
  intro f ctx place b c s site carries h hs ho he fits
  obtain ⟨bit, d, g, loop⟩ := looped h hs he
  obtain ⟨t, fits', leads⟩ := pass_leads site loop hs carries.2.1 test holds fits
  have forks := loop.fork.forks
  cases pass site carries.2.2 loop.pass (forks.inside_sound _) (forks.inside_open _)
    loop.fork.extends_body fits' with
  | ret agrees ends => exact .ret agrees (leads _ _ ends)

end loops

theorem clauses_last_run (body : BlockRuns m p mode otherwise w flow w₁) :
    ClausesRun m p mode [] otherwise w flow w₁ := by
  intro f ctx place b d g s exit others site _ carries h hlast hs ho he fits
  cases h
  have before : Extends f.blocks g := he.of_grows (Grows.settle 0 (.jump exit) g)
  exact exits_of_goes site.numbers he (body site carries hlast hs ho before fits)

section branches

variable {body otherwise : List Stmt} {rest : List Elif} {f : Func} {ctx : Context}
  {place : Option FuncDef} {b c d g last : Body} {s t u : State} {bit exit : Nat}
  {first others : Bool}

/-- A clause that was built, with the bodies after its condition and after its statements. -/
structure Branched (blocks : List Block) (ctx : Context) (exit : Nat) (e : Expr)
    (body : List Stmt) (b : Body) (reached : Bool) (bit : Nat) (d g c : Body) : Prop where
  test : condition ctx e b.grow.grow = .ok (bit, d)
  pass : stmts ctx body ((d.close (.branch bit (b.made + 1) (b.made + 2))).goto (b.made + 1)) =
    .ok ((), g)
  reached : reached = g.isOpen
  after : c = (g.jump exit).goto (b.made + 2)
  fork : Forked blocks b.made d bit (b.made + 1) (b.made + 2) g exit

theorem branched (h : branch ctx exit e (stmts ctx body) b = .ok (first, c)) (hs : b.Sound)
    (ho : b.Open) (he : Extends blocks c) :
    ∃ bit d g, Branched blocks ctx exit e body b first bit d g c := by
  obtain ⟨bit, d, g, test, pass, reached, rfl⟩ := branch_ok h
  have forks := (Forks.branch hs ho).lengthens (condition_lengthens test)
  exact ⟨bit, d, g, test, pass, reached, rfl, forks,
    stmts_build pass (forks.inside_sound _) (forks.inside_open _), he⟩

theorem choice_leads (site : Site p mode f ctx place)
    (h : Branched f.blocks ctx exit e body b first bit d g c) (ho : b.Open)
    (carries : e.All (Carries p place)) (test : ExprRuns m p mode e w v w₁) (fits : Fits ctx w s) :
    ∃ t, Fits ctx w₁ t ∧ t.frame.bits bit = some (v != 0) ∧ Leads m f b s d t := by
  obtain ⟨t, fits', known, leads⟩ := condition_computed site.numbers h.test ho.grow.grow
    h.fork.extends_test fun hexpr he => test site carries hexpr ho.grow.grow he fits
  exact ⟨t, fits', known, (Leads.grow b s).trans ((Leads.grow _ s).trans leads)⟩

/-- The clauses after the first one and the last statements go on from where the first one was
built. -/
theorem extends_after (hothers : elifs ctx exit rest c = .ok (others, last))
    (hlast : stmts ctx otherwise last = .ok ((), g)) (hs : c.Sound) (ho : c.Open)
    (he : Extends blocks (g.jump exit)) : Extends blocks c := by
  have two := elifs_branch rest hothers hs ho
  have three := stmts_build hlast two.sound two.opened
  have before : Extends blocks g := he.of_grows (Grows.settle 0 (.jump exit) g)
  exact (before.of_grows three.grows).of_grows two.grows

theorem clauses_yes_run (test : ExprRuns m p mode e w v w₁) (holds : v ≠ 0)
    (taken : BlockRuns m p mode body w₁ flow w₂) :
    ClausesRun m p mode (.mk span e body :: rest) otherwise w flow w₂ := by
  intro f ctx place b d g s exit reached site carries _ h hlast hs ho he fits
  obtain ⟨first, others, c, hfirst, hothers, rfl⟩ := elifs_cons_ok h
  have one := branch_branches (stmts_woven body) hfirst hs ho
  obtain ⟨bit, d', g', clause⟩ := branched hfirst hs ho
    (extends_after hothers hlast one.sound one.opened he)
  obtain ⟨t, fits', known, leads⟩ := choice_leads site clause ho carries.1 test fits
  have yes : t.frame.bits bit = some true := by rw [known, bne_iff_ne.2 holds]
  have goes := taken site carries.2.1 clause.pass (clause.fork.forks.inside_sound _)
    (clause.fork.forks.inside_open _) clause.fork.extends_body fits'
  have exits := exits_of_goes site.numbers clause.fork.extends_jump goes
  refine (exits.after (leads.trans (clause.fork.leads_yes site.numbers yes))).mono fun hr => ?_
  rw [clause.reached, hr]
  rfl

theorem clauses_no_run (test : ExprRuns m p mode e w 0 w₁)
    (others : ClausesRun m p mode rest otherwise w₁ flow w₂) :
    ClausesRun m p mode (.mk span e body :: rest) otherwise w flow w₂ := by
  intro f ctx place b d g s exit reached site carries carries' h hlast hs ho he fits
  obtain ⟨first, others', c, hfirst, hothers, rfl⟩ := elifs_cons_ok h
  have one := branch_branches (stmts_woven body) hfirst hs ho
  obtain ⟨bit, d', g', clause⟩ := branched hfirst hs ho
    (extends_after hothers hlast one.sound one.opened he)
  obtain ⟨t, fits', known, leads⟩ := choice_leads site clause ho carries.1 test fits
  have exits := others site carries.2.2 carries' hothers hlast one.sound one.opened he fits'
  have after := clause.after
  subst after
  refine (exits.after (leads.trans (clause.fork.leads_no site.numbers known))).mono fun hr => ?_
  rw [Bool.or_assoc, hr, Bool.or_true]

theorem cond_runs (chosen : ClausesRun m p mode (.mk span e body :: clauses) otherwise w flow w₁) :
    StmtRuns m p mode (.cond span e body clauses otherwise) w flow w₁ := by
  intro f ctx place b c s site carries h hs ho he fits
  obtain ⟨first, others, d, d', g, hfirst, hothers, hlast, rfl⟩ := stmt_cond_ok h
  have clauses : elifs ctx (b.made + 1) (.mk span e body :: clauses) b.grow =
      .ok (first || others, d') := by
    rw [elifs, build_bind_run hfirst, build_bind_run hothers]
    rfl
  have one := elifs_branch _ clauses hs.grow ho.grow
  have two := stmts_build hlast one.sound one.opened
  -- The exit waits while the clauses are built.
  have waits := two.waits one.sound (one.waits hs.grow (.new hs))
  have exit := (Grows.settle (b.made + 1) (.jump (b.made + 1)) g).waits waits (Nat.le_refl _)
  obtain ⟨-, last⟩ := exit_builds two.sound waits (Nat.lt_succ_self b.made)
    (first || others || g.isOpen)
  have exits := chosen site ⟨carries.2.1, carries.2.2.1, carries.2.2.2.1⟩ carries.2.2.2.2 clauses
    hlast hs.grow ho.grow (he.of_grows last) fits
  refine (goes_of_exits site.numbers two.sound exit (fun hr => ?_) he exits).after (.grow b s)
  rw [if_pos hr]

end branches

end cases

end BlockGraph
end WordScript
