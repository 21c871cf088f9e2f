import WordScript.Proofs.Representation

/-! What words stand for at every point of a run.

A task of generated code starts only tasks of generated code, in states that keep what words stand
for. -/
namespace WordScript
namespace StackCode

open Machine (Control Point Starts Reaches)
open Simulation (Scoped)

/-- The function of a program whose code runs; at the top level it is the entry. -/
inductive Running (p : Program) : Option FuncDef → Machine.Func Machine.HostFunc → Prop
  | user {f : FuncDef} (mem : f ∈ p.funcs) (body : List Instr) :
      Running p (some f) (loaded (funcOf f body))
  | start (code : List Instr) : Running p none (loaded (startOf p.stmts code))

/-- The machine is inside the code of a function, in a state that keeps what words stand for. The
parameters of the function are set, and at the depth `n` all its slots are. -/
structure Inside (r : Ty → Word → Prop) (p : Program) (n : Nat) (place : Option FuncDef)
    (set : List String) (d : Nat) (g : Option (Machine.Func Machine.HostFunc)) (s : Machine.State) :
    Prop where
  running : ∃ f, g = some f ∧ Running p place f
  names : Scoped p place
  kept : Kept r p place set s
  given : ∀ f, place = some f → f.params.map (·.name) ⊆ set
  above : n ≤ d
  full : n = d → ∀ f, place = some f → Rules.slotNames f ⊆ set

/-- The points of runs of generated code, at the depth `n` and below. -/
inductive Sound (r : Ty → Word → Prop) (p : Program) (env : Machine.Env) (n : Nat) : Point → Prop
  | seq {d : Nat} {g : Option (Machine.Func Machine.HostFunc)} {s : Machine.State}
      {place : Option FuncDef} {labels set set' : List String} {is : List Instr}
      {before after : Layout} {ws base : List Word} (inside : Inside r p n place set d g s)
      (safe : CodeSafe r p place labels set is before set' after) (fits : before.Fits ws)
      (live : s.stack.live = ws ++ base) : Sound r p env n ⟨d, g, .seq (Instr.sexprs is), s⟩
  | instr {d : Nat} {g : Option (Machine.Func Machine.HostFunc)} {s : Machine.State}
      {place : Option FuncDef} {labels set set' : List String} {i : Instr} {before after : Layout}
      {ws base : List Word} (inside : Inside r p n place set d g s)
      (safe : InstrSafe r p place labels set i before set' after) (fits : before.Fits ws)
      (live : s.stack.live = ws ++ base) : Sound r p env n ⟨d, g, .instr i.sexpr, s⟩
  | passes {d : Nat} {g : Option (Machine.Func Machine.HostFunc)} {s : Machine.State}
      {place : Option FuncDef} {labels set set' : List String} {body : List Instr} {l : String}
      {isLoop : Bool} {height : Nat} (inside : Inside r p n place set d g s)
      (safe : CodeSafe r p place (l :: labels) set body [] set' [])
      (live : s.stack.live.length = height) :
      Sound r p env n ⟨d, g, .passes isLoop (some (key l)) height (Instr.sexprs body), s⟩
  | call {d : Nat} {g : Option (Machine.Func Machine.HostFunc)} {s : Machine.State}
      {place : Option FuncDef} {set : List String} {f : String} {types : List Ty} {result : Ty}
      {callee : Machine.Func Machine.HostFunc} {base args : List Word}
      (inside : Inside r p n place set d g s) (callable : Rules.Callable p f types result)
      (found : env.funcs.find? (·.name == key f) = some callee)
      (called : Called r types base args s) : Sound r p env n ⟨d, g, .call callee, s⟩
  | print {d : Nat} {g : Option (Machine.Func Machine.HostFunc)} {s : Machine.State}
      {place : Option FuncDef} {set : List String} {type : Ty} {target : String}
      {host : Machine.HostFunc} {v : Word} {base : List Word}
      (inside : Inside r p n place set d g s) (printer : printer? (some type) = some target)
      (mem : (target, host) ∈ hosts) (holds : r type v) (live : s.stack.live = v :: base) :
      Sound r p env n ⟨d, g, .call (linkedImport (target, host)), s⟩
  | start {s : Machine.State} {code : List Instr} {set : List String} {after : Layout}
      (globals : GlobalsKept r p s.globals) (names : Scoped p none)
      (safe : CodeSafe r p none [] [] (startOf p.stmts code).body [] set after) :
      Sound r p env n ⟨n, none, .call (loaded (startOf p.stmts code)), s⟩

section points

variable {r : Ty → Word → Prop} {p : Program} {mode : Arithmetic} {env : Machine.Env}
  {place : Option FuncDef} {labels set set' : List String} {before after : Layout} {n d : Nat}
  {g : Option (Machine.Func Machine.HostFunc)} {s t : Machine.State} {ws base : List Word}
  {y : Point}

section

variable (h : Inside r p n place set d g s)
include h

theorem Inside.keeps (hk : Machine.Keeps s t) :
    Inside r p n place set d g t := { h with kept := h.kept.keeps hk }

theorem Inside.grows (kept : Kept r p place set' t) (sub : set ⊆ set') :
    Inside r p n place set' d g t :=
  { h with
    kept
    given := fun f hf _ hx => sub (h.given f hf hx)
    full := fun hn f hf _ hx => sub (h.full hn f hf hx) }

theorem Inside.idle : Sound r p env n ⟨d, g, .seq [], s⟩ := by
  have safe : CodeSafe r p place [] set [] [] set [] := .nil
  exact .seq h safe .nil rfl

end

theorem sound_seq (hg : Guarded r p mode env) (inside : Inside r p n place set d g s)
    (safe : CodeSafe r p place labels set is before set' after) (fits : before.Fits ws)
    (live : s.stack.live = ws ++ base) (h : Starts env ⟨d, g, .seq (Instr.sexprs is), s⟩ y) :
    Sound r p env n y := by
  cases safe with
  | nil => cases h
  | cons head tail =>
    cases h with
    | first => exact .instr inside head fits live
    | rest done =>
      cases (runs_keep hg _).instr head inside.names inside.kept fits live done with
      | next kept fits' live' => exact .seq (inside.grows kept head.grows) tail fits' live'

def Instr.Plain : Instr → Prop
  | .call _ | .block _ _ | .loop _ _ | .cond _ _ => False
  | _ => True

theorem starts_plain {i : Instr} (hi : i.Plain) (h : Starts env ⟨d, g, .instr i.sexpr, s⟩ y) :
    y = ⟨d, g, .seq [], s⟩ := by
  cases i with
  | nop => exact Machine.starts_simple .nop [] (by decide) h
  | ret => exact Machine.starts_simple .ret [] (by decide) h
  | const v => exact Machine.starts_simple .const [_] (by decide) h
  | get pl x => cases pl with
    | global => exact Machine.starts_simple .globalGet [_] (by decide) h
    | slot => exact Machine.starts_simple .localGet [_] (by decide) h
  | set pl x => cases pl with
    | global => exact Machine.starts_simple .globalSet [_] (by decide) h
    | slot => exact Machine.starts_simple .localSet [_] (by decide) h
  | op o => exact Machine.starts_simple (.op o) [] (Machine.ofName?_op o) h
  | br l => exact Machine.starts_simple .br [_] (by decide) h
  | brIf l => exact Machine.starts_simple .brIf [_] (by decide) h
  | call _ => exact hi.elim
  | block _ _ => exact hi.elim
  | loop _ _ => exact hi.elim
  | cond _ _ => exact hi.elim

theorem sound_plain {i : Instr} (inside : Inside r p n place set d g s)
    (h : Starts env ⟨d, g, .instr i.sexpr, s⟩ y) (hi : i.Plain) : Sound r p env n y := by
  rw [starts_plain hi h]
  exact inside.idle

theorem sound_instr (hg : Guarded r p mode env) (inside : Inside r p n place set d g s)
    (safe : InstrSafe r p place labels set i before set' after) (fits : before.Fits ws)
    (live : s.stack.live = ws ++ base) (h : Starts env ⟨d, g, .instr i.sexpr, s⟩ y) :
    Sound r p env n y := by
  cases safe with
  | nop | const | getSlot | getScratch | getGlobal | setSlot | setScratch | setGlobal | op | ret | br
  | brIf => exact sound_plain inside h trivial
  | call callee means meets =>
    rcases Machine.starts_call h with rfl | ⟨callee', found, rfl⟩
    · exact inside.idle
    · obtain ⟨args, us, called, -⟩ := called_of_fits means fits live
      exact .call inside callee found called
  | print printer means meets =>
    obtain ⟨host, mem, -, -⟩ := Simulation.printer_host printer
    rcases Machine.starts_call h with rfl | ⟨callee, found, rfl⟩
    · exact inside.idle
    · cases (hg.host _ mem).symm.trans found
      cases fits with
      | cons holds fits => exact .print inside printer mem (means _ holds) live
  | block body =>
    rw [Machine.starts_passes false Machine.ofName_block h]
    exact .passes inside body rfl
  | loop body =>
    rw [Machine.starts_passes true Machine.ofName_loop h]
    exact .passes inside body rfl
  | cond yes no =>
    rcases Machine.starts_cond h with rfl | ⟨v, u, pops, rfl⟩
    · exact inside.idle
    · cases fits with
      | cons holds fits =>
        obtain ⟨u', pops', keeps, live'⟩ := Machine.run_pop live
        cases pops.symm.trans pops'
        split
        · exact .seq (inside.keeps keeps) no .nil live'
        · exact .seq (inside.keeps keeps) yes .nil live'

theorem sound_call (hg : Guarded r p mode env) (callable : Rules.Callable p f types result)
    (found : env.funcs.find? (·.name == key f) = some callee) (called : Called r types base args s)
    (inside : Inside r p n place set d g s) (h : Starts env ⟨d, g, .call callee, s⟩ y) :
    Sound r p env n y := by
  cases h with
  | enter code pops =>
    cases callable with
    | abs =>
      cases (hg.host ("abs", .abs) (by decide)).symm.trans found
      cases code
    | max =>
      cases (hg.host ("max", .max) (by decide)).symm.trans found
      cases code
    | min =>
      cases (hg.host ("min", .min) (by decide)).symm.trans found
      cases code
    | pow =>
      cases (hg.host ("pow", .pow) (by decide)).symm.trans found
      cases code
    | @user f _ _ mem params returns =>
      obtain ⟨body, found', safe⟩ := hg.user f mem
      cases found'.symm.trans found
      obtain ⟨set', safe⟩ := safe result returns
      cases code
      obtain ⟨rfl, keeps, live⟩ := called.pops params pops
      have entered := kept_entered (hg.names f mem) params called.holds
        (keeps.globals.symm ▸ inside.kept.globals) body
      refine .seq ⟨⟨_, rfl, .user mem body⟩, hg.names f mem, entered, ?_, ?_, ?_⟩ safe .nil rfl
      · rintro _ ⟨⟩ _ hx
        exact hx
      · exact Nat.le_succ_of_le inside.above
      · exact fun hn => absurd inside.above (by omega)

theorem kept_start (globals : GlobalsKept r p s.globals) :
    Kept r p none [] { s with
      locals := Machine.initialLocals (loaded (startOf p.stmts code)) [key scratch] args } :=
  ⟨globals, nofun, 0, by simp [Machine.initialLocals]⟩

variable (hg : Guarded r p mode env) (hx : Sound r p env n x)
include hg hx

theorem Sound.step (h : Starts env x y) : Sound r p env n y := by
  cases hx with
  | seq inside safe fits live => exact sound_seq hg inside safe fits live h
  | instr inside safe fits live => exact sound_instr hg inside safe fits live h
  | passes inside safe live =>
    cases h with
    | pass checks =>
      obtain ⟨keeps, stack⟩ := Machine.check_ok env checks
      exact .seq (inside.keeps keeps) safe .nil rfl
    | again checks done cuts =>
      obtain ⟨keeps, stack⟩ := Machine.check_ok env checks
      have entered := inside.keeps keeps
      have ends := (runs_keep hg _).seq safe entered.names entered.kept .nil rfl done
      generalize branch : Control.branch _ = c at ends
      cases ends with
      | next => cases branch
      | ret => cases branch
      | branch mem kept live' =>
        obtain ⟨v, cuts', keeps', live''⟩ := Machine.run_cut live'
        rw [← live, ← stack] at cuts
        cases cuts.symm.trans cuts'
        refine .passes { entered with kept := kept.keeps keeps' } safe ?_
        rw [live'', stack, live]
  | call inside callable found called => exact sound_call hg callable found called inside h
  | print inside printer mem holds live =>
    cases h with
    | enter code => cases code
  | start globals names safe =>
    cases h with
    | enter code pops =>
      cases code
      have popped := (Machine.calm_popMany _).tame.same pops
      exact .seq ⟨⟨_, rfl, .start _⟩, names, kept_start (popped.symm ▸ globals), nofun,
        Nat.le_succ n, fun _ => nofun⟩ safe .nil rfl

theorem Sound.reaches (h : Reaches env x y) : Sound r p env n y := by
  induction h with
  | refl => exact hx
  | tail _ step ih => exact ih.step hg step

end points

end StackCode
end WordScript
