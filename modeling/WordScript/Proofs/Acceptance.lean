import Mathlib.Data.List.Nodup
import WordScript.Proofs.TypeCheck

/-! Checking accepts exactly the well-typed programs.

The declarations of a program build the environments that its bodies are checked in. These
environments match the rules, so what was shown of expressions and statements carries over to
whole programs. -/
namespace WordScript

variable {β α : Type}
variable {r : α → β → Prop} {as : List α} {bs : List β}

theorem lookup_eq_some_iff_mem {l : List (String × β)} (hn : (l.map (·.1)).Nodup) :
    l.lookup k = some v ↔ (k, v) ∈ l := by
  induction l with
  | nil => simp
  | cons entry rest ih =>
    obtain ⟨k', v'⟩ := entry
    rw [List.map_cons, List.nodup_cons] at hn
    rw [List.lookup_cons]
    by_cases h : k = k'
    · subst h
      have absent : (k, v) ∉ rest := fun hv => hn.1 (List.mem_map.2 ⟨(k, v), hv, rfl⟩)
      simp [absent, eq_comm]
    · have hb : (k == k') = false := by simpa using h
      simp [hb, h, ih hn.2]

theorem forall₂_mem_right (h : List.Forall₂ r as bs) (hb : b ∈ bs) : ∃ a ∈ as, r a b := by
  induction h with
  | nil => cases hb
  | cons head _ ih =>
    rcases List.mem_cons.1 hb with rfl | hb
    · exact ⟨_, List.mem_cons_self, head⟩
    · obtain ⟨a, ha, hr⟩ := ih hb
      exact ⟨a, List.mem_cons_of_mem _ ha, hr⟩

theorem forall₂_mem_left (h : List.Forall₂ r as bs) (ha : a ∈ as) : ∃ b ∈ bs, r a b :=
  forall₂_mem_right (r := flip r) h.flip ha

theorem forall₂_map_eq {γ : Type} (g : α → γ) (k : β → γ) (h : List.Forall₂ r as bs)
    (hg : ∀ a ∈ as, ∀ b, r a b → k b = g a) : bs.map k = as.map g := by
  induction h with
  | nil => rfl
  | cons head _ ih =>
    rw [List.map_cons, List.map_cons, hg _ List.mem_cons_self _ head,
      ih fun a ha => hg a (List.mem_cons_of_mem _ ha)]

theorem forall₂_of_forall_exists (h : ∀ a ∈ as, ∃ b, r a b) : ∃ bs, List.Forall₂ r as bs := by
  induction as with
  | nil => exact ⟨[], .nil⟩
  | cons a rest ih =>
    obtain ⟨b, hb⟩ := h a List.mem_cons_self
    obtain ⟨bs, hbs⟩ := ih fun a' ha' => h a' (List.mem_cons_of_mem _ ha')
    exact ⟨b :: bs, .cons hb hbs⟩

namespace Typing

variable {env env' : Env} {scope : Scope}

def entry (f : FuncDef) : String × Signature := (f.name, signature f)

theorem declare_cons :
    declare env (f :: rest) =
      if Builtin.isReserved f.name then fault f.span (.reservedFunction f.name)
      else if (env.func? f.name).isSome then fault f.span (.duplicateFunction f.name)
      else declare { env with funcs := entry f :: env.funcs } rest := rfl

theorem declare_ok :
    declare env fs = .ok env' ↔
      (∀ f ∈ fs, Builtin.isReserved f.name = false) ∧ (∀ f ∈ fs, env.func? f.name = none) ∧
      (fs.map (·.name)).Nodup ∧
        env' = { env with funcs := (fs.map entry).reverse ++ env.funcs } := by
  induction fs generalizing env with
  | nil =>
    constructor
    · rintro ⟨⟩
      simp
    · rintro ⟨_, _, _, rfl⟩
      rfl
  | cons f rest ih =>
    rw [declare_cons]
    by_cases hr : Builtin.isReserved f.name = true
    · simp [hr, fault]
    by_cases hs : (env.func? f.name).isSome = true
    · have : env.func? f.name ≠ none := Option.isSome_iff_ne_none.1 hs
      simp [hr, hs, fault, this]
    have hnone : env.func? f.name = none := by simpa using hs
    have hlookup : ∀ g : FuncDef,
        ({ env with funcs := entry f :: env.funcs } : Env).func? g.name = none ↔
          g.name ≠ f.name ∧ env.func? g.name = none := by
      intro g
      simp only [Env.func?, entry]
      by_cases hg : g.name = f.name
      · simp [hg]
      · have : (g.name == f.name) = false := by simpa using hg
        simp [hg, this]
    rw [if_neg hr, if_neg hs, ih]
    simp only [hlookup, List.mem_cons, List.map_cons, List.nodup_cons, List.mem_map,
      forall_eq_or_imp, hnone, Bool.not_eq_true] at hr ⊢
    constructor
    · rintro ⟨hres, hnew, hn, rfl⟩
      refine ⟨⟨hr, hres⟩, ⟨trivial, fun g hg => (hnew g hg).2⟩, ⟨?_, hn⟩, ?_⟩
      · rintro ⟨g, hg, heq⟩
        exact (hnew g hg).1 heq
      · simp
    · rintro ⟨⟨_, hres⟩, ⟨_, hnew⟩, ⟨hf, hn⟩, heq⟩
      subst heq
      refine ⟨hres, fun g hg => ⟨fun heq => hf ⟨g, hg, heq⟩, hnew g hg⟩, hn, ?_⟩
      simp

def binding (scope : Scope) (name : String) (type : Option Ty) : String × Binding :=
  (name, ⟨type, scope⟩)

theorem taken_define (hs : scope = .global ∨ scope = .slot) :
    (env.define x type scope).taken scope y = false ↔ y ≠ x ∧ env.taken scope y = false := by
  by_cases h : y = x
  · rcases hs with rfl | rfl <;> simp [Env.taken, Env.define, Env.var?, h]
  · have hb : (y == x) = false := by simpa using h
    simp [Env.taken, Env.define, Env.var?, List.lookup_cons, hb, h]

theorem params_ok :
    params env f ps = .ok env' ↔
      (∀ a ∈ ps, env.taken .slot a.name = false) ∧ (ps.map (·.name)).Nodup ∧
      env' = { env with
        vars := (ps.map fun a => binding .slot a.name a.type).reverse ++ env.vars } := by
  induction ps generalizing env with
  | nil =>
    constructor
    · rintro ⟨⟩
      simp
    · rintro ⟨_, _, rfl⟩
      rfl
  | cons a rest ih =>
    rw [params]
    by_cases ht : env.taken .slot a.name = true
    · simp [ht, fault]
    rw [if_neg ht, ih]
    simp only [taken_define (.inr rfl), List.mem_cons, List.map_cons, List.nodup_cons,
      List.mem_map, forall_eq_or_imp, Bool.not_eq_true] at ht ⊢
    constructor
    · rintro ⟨hnew, hn, rfl⟩
      refine ⟨⟨ht, fun b hb => (hnew b hb).2⟩, ⟨?_, hn⟩, by simp [Env.define, binding]⟩
      rintro ⟨b, hb, heq⟩
      exact (hnew b hb).1 heq
    · rintro ⟨⟨_, hnew⟩, ⟨ha, hn⟩, rfl⟩
      exact ⟨fun b hb => ⟨fun heq => ha ⟨b, hb, heq⟩, hnew b hb⟩, hn,
        by simp [Env.define, binding]⟩

def declared (v : VarDecl) : VarDecl := { v with init := literal v.init }

theorem varDecl_ok :
    varDecl env scope v = .ok (v', env') ↔
      env.taken scope v.name = false ∧ literalType v.init.kind = v.type ∧ v' = declared v ∧
        env' = env.define v.name v.type scope := by
  rw [varDecl]
  by_cases ht : env.taken scope v.name = true
  · simp [ht, fault]
  by_cases hl : (literal v.init).type = v.type
  · have hl' : literalType v.init.kind = v.type := hl
    rw [if_neg ht, if_pos hl]
    simp only [Except.ok.injEq, Prod.mk.injEq, ht, hl', true_and]
    exact and_congr eq_comm eq_comm
  · have hl' : literalType v.init.kind ≠ v.type := hl
    simp [ht, hl, hl', fault]

theorem varDecls_ok (hs : scope = .global ∨ scope = .slot) :
    varDecls env scope vs = .ok (vs', env') ↔
      (∀ v ∈ vs, env.taken scope v.name = false) ∧ (vs.map (·.name)).Nodup ∧
      (∀ v ∈ vs, literalType v.init.kind = v.type) ∧ vs' = vs.map declared ∧
      env' = { env with
        vars := (vs.map fun v => binding scope v.name v.type).reverse ++ env.vars } := by
  induction vs generalizing env vs' with
  | nil =>
    constructor
    · rintro ⟨⟩
      simp
    · rintro ⟨_, _, _, rfl, rfl⟩
      rfl
  | cons v rest ih =>
    rw [varDecls]
    simp only [bind_eq_ok, pure_eq_ok, Prod.exists, Prod.mk.injEq, varDecl_ok, List.mem_cons,
      forall_eq_or_imp, List.map_cons, List.nodup_cons, List.mem_map]
    constructor
    · rintro ⟨_, _, ⟨ht, hl, rfl, rfl⟩, rest', env'', hr, rfl, rfl⟩
      obtain ⟨hnew, hn, hi, rfl, rfl⟩ := ih.1 hr
      simp only [taken_define hs] at hnew
      refine ⟨⟨ht, fun b hb => (hnew b hb).2⟩, ⟨?_, hn⟩, ⟨hl, hi⟩, rfl,
        by simp [Env.define, binding]⟩
      rintro ⟨b, hb, heq⟩
      exact (hnew b hb).1 heq
    · rintro ⟨⟨ht, hnew⟩, ⟨ha, hn⟩, ⟨hl, hi⟩, rfl, rfl⟩
      refine ⟨_, _, ⟨ht, hl, rfl, rfl⟩, _, _,
        ih.2 ⟨?_, hn, hi, rfl, by simp [Env.define, binding]⟩, rfl, rfl⟩
      intro b hb
      exact (taken_define hs).2 ⟨fun heq => ha ⟨b, hb, heq⟩, hnew b hb⟩

def globalEnv (p : Program) : Env :=
  ⟨(p.funcs.map entry).reverse ++ Env.initial.funcs,
    (p.vars.map fun v => binding .global v.name v.type).reverse, none⟩

/-- What a function adds to the variables in sight. -/
def slotBindings (f : FuncDef) : List (String × Binding) :=
  (f.locals.map fun v => binding .slot v.name v.type).reverse
    ++ (f.params.map fun a => binding .slot a.name a.type).reverse

def funcEnv (p : Program) (f : FuncDef) : Env :=
  ⟨(globalEnv p).funcs, slotBindings f ++ (globalEnv p).vars, some f.returns⟩

theorem taken_slot (env : Env) (hg : ∀ b ∈ env.vars, b.2.scope ≠ .slot) (x : String)
    (bs : List (String × Option Ty)) :
    ({ env with vars := (bs.map fun b => binding .slot b.1 b.2).reverse ++ env.vars } : Env).taken
      .slot x = false ↔ x ∉ bs.map (·.1) := by
  simp only [Env.taken, Env.var?, List.lookup_append]
  cases h : ((bs.map fun b => binding .slot b.1 b.2).reverse).lookup x with
  | none =>
    have absent : x ∉ bs.map (·.1) := by
      rw [List.lookup_eq_none_iff] at h
      intro hx
      obtain ⟨b, hb, rfl⟩ := List.mem_map.1 hx
      have := h (binding .slot b.1 b.2) (List.mem_reverse.2 (List.mem_map_of_mem hb))
      simp [binding] at this
    simp only [absent, not_false_eq_true, iff_true]
    cases hv : env.vars.lookup x with
    | none => rfl
    | some b =>
      obtain ⟨l₁, l₂, heq, -⟩ := List.lookup_eq_some_iff.1 hv
      simpa using hg (x, b) (heq ▸ by simp)
  | some b =>
    obtain ⟨l₁, l₂, heq, -⟩ := List.lookup_eq_some_iff.1 h
    have hm : (x, b) ∈ (bs.map fun b => binding .slot b.1 b.2).reverse := heq ▸ by simp
    rw [List.mem_reverse, List.mem_map] at hm
    obtain ⟨b', hb', hbx⟩ := hm
    cases hbx
    have present : b'.1 ∈ bs.map (·.1) := List.mem_map_of_mem hb'
    simp only [present, ]
    simp

theorem globalEnv_scope (p : Program) : ∀ b ∈ (globalEnv p).vars, b.2.scope ≠ .slot := by
  intro b hb
  rw [globalEnv, List.mem_reverse, List.mem_map] at hb
  obtain ⟨v, -, rfl⟩ := hb
  simp [binding]

theorem taken_params (p : Program) (f : FuncDef) (x : String) :
    ({ (globalEnv p).enter f.returns with
      vars := (f.params.map fun a => binding .slot a.name a.type).reverse ++ (globalEnv p).vars } :
      Env).taken .slot x = false ↔ x ∉ f.params.map (·.name) := by
  have h := taken_slot ((globalEnv p).enter f.returns) (globalEnv_scope p) x
    (f.params.map fun a => (a.name, a.type))
  simp only [List.map_map] at h
  exact h

theorem funcDef_ok :
    funcDef (globalEnv p) f = .ok f' ↔
      (f.params.map (·.name) ++ f.locals.map (·.name)).Nodup ∧
      (∀ v ∈ f.locals, literalType v.init.kind = v.type) ∧
      (f.returns ≠ some .unit → Stmt.anyReturns f.body = true) ∧
      ∃ body, stmts (funcEnv p f) f.body = .ok body ∧
        f' = { f with locals := f.locals.map declared, body } := by
  have fresh : ∀ a : Param, ((globalEnv p).enter f.returns).taken .slot a.name = false := by
    intro a
    have h := taken_slot ((globalEnv p).enter f.returns) (globalEnv_scope p) a.name []
    simpa using h
  rw [funcDef]
  simp only [bind_eq_ok, params_ok, fresh, implies_true, true_and, Prod.exists,
    varDecls_ok (Or.inr rfl)]
  constructor
  · rintro ⟨_, ⟨hp, rfl⟩, _, _, ⟨hnew, hl, hi, rfl, rfl⟩, body, hb, h⟩
    split at h
    · simp [fault] at h
    · rename_i hret
      refine ⟨?_, hi, ?_, body, ?_, (pure_eq_ok.1 h).symm⟩
      · refine List.Nodup.append hp hl ?_
        intro x hx hx'
        obtain ⟨v, hv, rfl⟩ := List.mem_map.1 hx'
        exact (taken_params p f v.name).1 (hnew v hv) hx
      · intro hne
        by_contra hno
        exact hret ⟨hne, by simpa using hno⟩
      · rw [← hb, funcEnv, slotBindings, List.append_assoc]
        rfl
  · rintro ⟨hn, hi, hret, body, hb, rfl⟩
    rw [List.nodup_append'] at hn
    obtain ⟨hp, hl, hd⟩ := hn
    refine ⟨_, ⟨hp, rfl⟩, _, _, ⟨?_, hl, hi, rfl, rfl⟩, body, ?_, ?_⟩
    · intro v hv
      exact (taken_params p f v.name).2 fun hx => hd hx (List.mem_map_of_mem hv)
    · rw [← hb, funcEnv, slotBindings, List.append_assoc]
      rfl
    · rw [if_neg]
      · rfl
      · rintro ⟨hne, hno⟩
        simp [hret hne] at hno

theorem funcDefs_ok :
    funcDefs env fs = .ok fs' ↔ List.Forall₂ (fun f f' => funcDef env f = .ok f') fs fs' := by
  induction fs generalizing fs' with
  | nil =>
    constructor
    · rintro ⟨⟩
      exact .nil
    · rintro ⟨⟩
      rfl
  | cons f rest ih =>
    simp only [funcDefs, bind_eq_ok, pure_eq_ok, List.forall₂_cons_left_iff]
    constructor
    · rintro ⟨f', hf, rest', hr, rfl⟩
      exact ⟨f', rest', hf, ih.1 hr, rfl⟩
    · rintro ⟨f', rest', hf, hr, rfl⟩
      exact ⟨f', hf, rest', ih.2 hr, rfl⟩

end Typing

open Typing

theorem check_ok :
    p.check = .ok t ↔
      (∀ f ∈ p.funcs, Builtin.isReserved f.name = false) ∧
      (∀ f ∈ p.funcs, Env.initial.func? f.name = none) ∧ (p.funcs.map (·.name)).Nodup ∧
      (p.vars.map (·.name)).Nodup ∧ (∀ v ∈ p.vars, literalType v.init.kind = v.type) ∧
      ∃ fs ss, List.Forall₂ (fun f f' => funcDef (globalEnv p) f = .ok f') p.funcs fs ∧
        Typing.stmts (globalEnv p) p.stmts = .ok ss ∧ t = ⟨p.vars.map declared, fs, ss⟩ := by
  have fresh : ∀ (funcs : List (String × Signature)) (x : String),
      ({ Env.initial with funcs } : Env).taken .global x = false := fun _ _ => rfl
  simp only [Program.check, bind_eq_ok, pure_eq_ok, declare_ok, Prod.exists,
    varDecls_ok (Or.inl rfl), funcDefs_ok]
  constructor
  · rintro ⟨_, ⟨hr, hi, hn, rfl⟩, _, _, ⟨-, hg, hl, rfl, rfl⟩, fs, hf, ss, hs, rfl⟩
    exact ⟨hr, hi, hn, hg, hl, fs, ss, by simpa [globalEnv, Env.initial] using hf,
      by simpa [globalEnv, Env.initial] using hs, rfl⟩
  · rintro ⟨hr, hi, hn, hg, hl, fs, ss, hf, hs, rfl⟩
    refine ⟨_, ⟨hr, hi, hn, rfl⟩, _, _, ⟨fun v _ => fresh _ v.name, hg, hl, rfl, rfl⟩, fs, ?_, ss,
      ?_, rfl⟩
    · simpa [globalEnv, Env.initial] using hf
    · simpa [globalEnv, Env.initial] using hs

namespace Rules

variable {p : Program}
variable {f f' : FuncDef} {t : Program}

theorem notHost_iff (f : FuncDef) :
    (Builtin.isReserved f.name = false ∧ Env.initial.func? f.name = none) ↔
      f.name ∉ hostNames := by
  simp [Builtin.isReserved, Env.initial, Env.func?, hostNames, and_assoc]

theorem map_some_of_isSome (h : ∀ t ∈ l, t.isSome) : ∃ types : List Ty, l = types.map some := by
  induction l with
  | nil => exact ⟨[], rfl⟩
  | cons t rest ih =>
    obtain ⟨types, rfl⟩ := ih fun t ht => h t (List.mem_cons_of_mem _ ht)
    obtain ⟨type, rfl⟩ := Option.isSome_iff_exists.1 (h t List.mem_cons_self)
    exact ⟨type :: types, rfl⟩

/-- Declarations that build an environment: all of them have types, names of functions are
distinct and not taken by the host, and names of globals are distinct. -/
structure Declarable (p : Program) : Prop where
  vars : ∀ v ∈ p.vars, v.type.isSome
  params : ∀ f ∈ p.funcs, ∀ a ∈ f.params, a.type.isSome
  returns : ∀ f ∈ p.funcs, f.returns.isSome
  funcNames : (p.funcs.map (·.name)).Nodup
  notHost : ∀ f ∈ p.funcs, f.name ∉ hostNames
  globals : (p.vars.map (·.name)).Nodup

section

variable (hd : Declarable p)
include hd

theorem Declarable.func_keys : ((globalEnv p).funcs.map (·.1)).Nodup := by
  have names : (p.funcs.map entry).map (·.1) = p.funcs.map (·.name) := by
    simp [entry]
  rw [globalEnv, List.map_append, List.map_reverse, names]
  refine List.Nodup.append (List.nodup_reverse.2 hd.funcNames) (by decide) ?_
  intro x hx hx'
  obtain ⟨f, hf, rfl⟩ := List.mem_map.1 (List.mem_reverse.1 hx)
  refine hd.notHost f hf ?_
  tauto

theorem Declarable.func_iff (f : String) (s : Signature) :
    (globalEnv p).func? f = some s ↔
      ∃ types result, s = ⟨types.map some, some result⟩ ∧ Callable p f types result := by
  rw [Env.func?, lookup_eq_some_iff_mem hd.func_keys, globalEnv, List.mem_append,
    List.mem_reverse, List.mem_map]
  constructor
  · rintro (⟨g, hg, heq⟩ | h)
    · cases heq
      have typed : ∀ t ∈ g.params.map (·.type), t.isSome := by
        intro t ht
        obtain ⟨a, ha, rfl⟩ := List.mem_map.1 ht
        exact hd.params g hg a ha
      obtain ⟨types, ht⟩ := map_some_of_isSome typed
      obtain ⟨result, hr⟩ := Option.isSome_iff_exists.1 (hd.returns g hg)
      exact ⟨types, result, by rw [signature, ht, hr], .user hg ht hr⟩
    · simp only [Env.initial, List.mem_cons, List.not_mem_nil, or_false] at h
      rcases h with ⟨rfl, rfl⟩ | ⟨rfl, rfl⟩ | ⟨rfl, rfl⟩ | ⟨rfl, rfl⟩
      · exact ⟨[.int], .int, rfl, .abs⟩
      · exact ⟨[.int, .int], .int, rfl, .max⟩
      · exact ⟨[.int, .int], .int, rfl, .min⟩
      · exact ⟨[.int, .int], .int, rfl, .pow⟩
  · rintro ⟨types, result, rfl, h⟩
    cases h with
    | abs => simp [Env.initial]
    | max => simp [Env.initial]
    | min => simp [Env.initial]
    | pow => simp [Env.initial]
    | user mem params returns =>
      left
      exact ⟨_, mem, by rw [entry, signature, params, returns]⟩

theorem Declarable.no_print :
    (globalEnv p).func? "print" = none := by
  cases h : (globalEnv p).func? "print" with
  | none => rfl
  | some s =>
    obtain ⟨types, result, -, hc⟩ := (hd.func_iff _ s).1 h
    generalize hx : "print" = x at hc
    cases hc with
    | user mem params returns =>
      exact absurd (by simp [← hx, hostNames]) (hd.notHost _ mem)
    | _ => simp at hx

theorem globalEnv_var_iff (x : String) (b : Binding) :
    (globalEnv p).vars.lookup x = some b ↔
      ∃ v ∈ p.vars, v.name = x ∧ b = ⟨v.type, .global⟩ := by
  have names : (p.vars.map fun v => binding .global v.name v.type).map (·.1)
      = p.vars.map (·.name) := by simp [binding]
  have keys : ((globalEnv p).vars.map (·.1)).Nodup := by
    rw [globalEnv, List.map_reverse, names]
    exact List.nodup_reverse.2 hd.globals
  rw [lookup_eq_some_iff_mem keys, globalEnv, ]
  simp [binding, eq_comm]

theorem matches_globalEnv : Matches (globalEnv p) p none where
  var x b := by
    rw [Env.var?, globalEnv_var_iff hd]
    constructor
    · rintro ⟨v, hv, rfl, rfl⟩
      obtain ⟨type, ht⟩ := Option.isSome_iff_exists.1 (hd.vars v hv)
      exact ⟨type, ht, .global hv ht nofun⟩
    · rintro ⟨type, ht, bound⟩
      cases hb : b.scope with
      | slot => rw [hb] at bound; cases bound with
        | slot within _ => cases within
      | global => rw [hb] at bound; cases bound with
        | global mem declared visible =>
          obtain ⟨t, s⟩ := b
          cases hb
          exact ⟨_, mem, rfl, by rw [declared, ← ht]⟩
      | _ => rw [hb] at bound; cases bound
  func := hd.func_iff
  print := hd.no_print
  returns := rfl

end

theorem slotBindings_keys (f : FuncDef) :
    (slotBindings f).map (·.1) = (slotNames f).reverse := by
  simp [slotBindings, slotNames, Function.comp_def, binding]

theorem slotBindings_iff (hn : (slotNames f).Nodup) (x : String) (b : Binding) :
    (slotBindings f).lookup x = some b ↔
      ∃ t, b = ⟨t, .slot⟩ ∧ ((∃ a ∈ f.params, a.name = x ∧ a.type = t) ∨
        ∃ v ∈ f.locals, v.name = x ∧ v.type = t) := by
  have keys : ((slotBindings f).map (·.1)).Nodup := by
    rw [slotBindings_keys]
    exact List.nodup_reverse.2 hn
  rw [lookup_eq_some_iff_mem keys, slotBindings, List.mem_append, List.mem_reverse,
    List.mem_reverse, List.mem_map, List.mem_map]
  constructor
  · rintro (⟨v, hv, heq⟩ | ⟨a, ha, heq⟩)
    · cases heq
      exact ⟨v.type, rfl, .inr ⟨v, hv, rfl, rfl⟩⟩
    · cases heq
      exact ⟨a.type, rfl, .inl ⟨a, ha, rfl, rfl⟩⟩
  · rintro ⟨t, rfl, ⟨a, ha, rfl, rfl⟩ | ⟨v, hv, rfl, rfl⟩⟩
    · exact .inr ⟨a, ha, rfl⟩
    · exact .inl ⟨v, hv, rfl⟩

theorem slotBindings_none (x : String) : (slotBindings f).lookup x = none ↔ x ∉ slotNames f := by
  have mem : x ∈ slotNames f ↔ ∃ b ∈ slotBindings f, b.1 = x := by
    rw [← List.mem_reverse, ← slotBindings_keys, List.mem_map]
  rw [List.lookup_eq_none_iff, mem]
  constructor
  · rintro h ⟨b, hb, rfl⟩
    simpa using h b hb
  · intro h b hb
    simpa using fun heq => h ⟨b, hb, heq.symm⟩

theorem matches_funcEnv (hd : Declarable p) (hn : (slotNames f).Nodup)
    (hp : ∀ a ∈ f.params, a.type.isSome) (hl : ∀ v ∈ f.locals, v.type.isSome) :
    Matches (funcEnv p f) p (some f) where
  var x b := by
    rw [Env.var?, funcEnv, List.lookup_append, Option.or_eq_some_iff, slotBindings_iff hn,
      slotBindings_none, globalEnv_var_iff hd]
    constructor
    · rintro (⟨t, rfl, ⟨a, ha, rfl, rfl⟩ | ⟨v, hv, rfl, rfl⟩⟩ | ⟨hx, v, hv, rfl, rfl⟩)
      · obtain ⟨type, ht⟩ := Option.isSome_iff_exists.1 (hp a ha)
        exact ⟨type, ht, .slot rfl (.param ha ht)⟩
      · obtain ⟨type, ht⟩ := Option.isSome_iff_exists.1 (hl v hv)
        exact ⟨type, ht, .slot rfl (.var hv ht)⟩
      · obtain ⟨type, ht⟩ := Option.isSome_iff_exists.1 (hd.vars v hv)
        exact ⟨type, ht, .global hv ht fun g hg => Option.some.inj hg ▸ hx⟩
    · obtain ⟨t, s⟩ := b
      rintro ⟨type, ht, bound⟩
      subst ht
      cases bound with
      | slot within declared =>
        cases within
        cases declared with
        | param mem declared => exact .inl ⟨_, rfl, .inl ⟨_, mem, rfl, declared⟩⟩
        | var mem declared => exact .inl ⟨_, rfl, .inr ⟨_, mem, rfl, declared⟩⟩
      | global mem declared visible =>
        exact .inr ⟨visible f rfl, _, mem, rfl, by rw [declared]⟩
  func := hd.func_iff
  print := hd.no_print
  returns := rfl

theorem initialized_iff (v : VarDecl) (hk : v.Known) :
    Initialized p v ↔ literalType v.init.kind = v.type := by
  obtain ⟨type, ht⟩ := Option.isSome_iff_exists.1 hk.1
  rw [Initialized, ht]
  constructor
  · rintro ⟨type', heq, h⟩
    cases heq
    cases h with
    | int kind => rw [kind]; rfl
    | truth kind => rcases kind with kind | kind <;> rw [kind] <;> rfl
    | unit kind => rw [kind]; rfl
  · intro h
    refine ⟨type, rfl, ?_⟩
    cases hkind : v.init.kind with
    | int => rw [hkind] at h; cases h; exact .int hkind
    | isTrue => rw [hkind] at h; cases h; exact .truth (.inl hkind)
    | isFalse => rw [hkind] at h; cases h; exact .truth (.inr hkind)
    | unit => rw [hkind] at h; cases h; exact .unit hkind
    | other n => exact (hkind ▸ hk.2 : LiteralKind.Known (.other n)).elim

theorem WellTyped.declarable (hw : WellTyped p) (hk : p.Known) : Declarable p where
  vars v hv := (hk.vars v hv).1
  params f hf := (hk.funcs f hf).params
  returns f hf := (hk.funcs f hf).returns
  funcNames := hw.funcNames
  notHost := hw.notHost
  globals := hw.globals

theorem check_complete (hk : p.Known) (hw : WellTyped p) : ∃ t, p.check = .ok t := by
  have hd := hw.declarable hk
  have host := fun f hf => (notHost_iff f).2 (hw.notHost f hf)
  have accepted : ∀ f ∈ p.funcs, ∃ f', funcDef (globalEnv p) f = .ok f' := by
    intro f hf
    have hft := hw.funcs f hf
    have hkf := hk.funcs f hf
    have hm := matches_funcEnv hd hft.slots hkf.params fun v hv => (hkf.locals v hv).1
    obtain ⟨body, hb⟩ := block_complete hm hft.body
    refine ⟨_, funcDef_ok.2 ⟨hft.slots, ?_, ?_, body, hb, rfl⟩⟩
    · exact fun v hv => (initialized_iff v (hkf.locals v hv)).1 (hft.inits v hv)
    · exact fun hne => (anyReturns_iff f.body).2 (hft.returns hne)
  obtain ⟨fs, hfs⟩ := forall₂_of_forall_exists accepted
  obtain ⟨ss, hss⟩ := block_complete (matches_globalEnv hd) hw.stmts
  exact ⟨_, check_ok.2 ⟨fun f hf => (host f hf).1, fun f hf => (host f hf).2, hw.funcNames,
    hw.globals, fun v hv => (initialized_iff v (hk.vars v hv)).1 (hw.inits v hv), fs, ss, hfs, hss,
    rfl⟩⟩

/-- What is known of a program that checking accepts: it has the declarations and the shape of the
checked one, which is well typed and carries all types and scopes. -/
structure Checked (p t : Program) : Prop where
  before : WellTyped p
  after : WellTyped t
  annotated : Annotated t
  same : t.erase = p.erase

theorem funcDef_same (h : funcDef (globalEnv p) f = .ok f') :
    ∃ body, f' = { f with locals := f.locals.map declared, body } := by
  obtain ⟨-, -, -, body, -, rfl⟩ := funcDef_ok.1 h
  exact ⟨body, rfl⟩

theorem slotNames_eq (h : funcDef (globalEnv p) f = .ok f') : slotNames f' = slotNames f := by
  obtain ⟨body, rfl⟩ := funcDef_same h
  simp [slotNames, declared]

theorem funcDef_sound (hkf : f.Known) (h : funcDef (globalEnv p) f = .ok f')
    (hm : Matches (funcEnv p f) q (some g)) :
    BlockElaborated q (some g) f.body f'.body ∧
      ∀ v ∈ f'.locals, Carries q (some g) (.literal v.init) := by
  obtain ⟨-, -, -, body, hb, rfl⟩ := funcDef_ok.1 h
  refine ⟨block_sound hm f.body hkf.body hb, ?_⟩
  intro v' hv'
  obtain ⟨v, hv, rfl⟩ := List.mem_map.1 hv'
  obtain ⟨type, he⟩ := literal_sound hm (hkf.locals v hv).2
  exact he.all.self

theorem initialized_declared (h : Initialized p v) (q : Program) : Initialized q (declared v) := by
  obtain ⟨type, ht, hl⟩ := h
  refine ⟨type, ht, ?_⟩
  cases hl with
  | int kind => exact .int kind
  | truth kind => exact .truth kind
  | unit kind => exact .unit kind

theorem check_declarable (hk : p.Known) (h : p.check = .ok t) :
    Declarable p ∧ Declarable t ∧ globalEnv t = globalEnv p := by
  obtain ⟨hr, hi, hn, hg, -, fs, ss, hfs, -, rfl⟩ := check_ok.1 h
  have host : ∀ f ∈ p.funcs, f.name ∉ hostNames := fun f hf => (notHost_iff f).1 ⟨hr f hf, hi f hf⟩
  have hd : Declarable p := ⟨fun v hv => (hk.vars v hv).1, fun f hf => (hk.funcs f hf).params,
    fun f hf => (hk.funcs f hf).returns, hn, host, hg⟩
  have entries : fs.map entry = p.funcs.map entry := by
    refine forall₂_map_eq _ _ hfs fun f _ f' hf => ?_
    obtain ⟨body, rfl⟩ := funcDef_same hf
    rfl
  have names : fs.map (·.name) = p.funcs.map (·.name) := by
    simpa [Function.comp_def, entry] using congrArg (List.map (·.1)) entries
  -- The declarations of a checked function are those of the function it was made from.
  have kept : ∀ f' ∈ fs, ∃ f ∈ p.funcs, f'.name = f.name ∧ f'.params = f.params ∧
      f'.returns = f.returns := by
    intro f' hf'
    obtain ⟨f, hf, hff⟩ := forall₂_mem_right hfs hf'
    obtain ⟨body, rfl⟩ := funcDef_same hff
    exact ⟨f, hf, rfl, rfl, rfl⟩
  refine ⟨hd, ⟨?_, ?_, ?_, names ▸ hn, ?_, ?_⟩, ?_⟩
  · simpa [declared] using hd.vars
  · intro f' hf'
    obtain ⟨f, hf, -, hp, -⟩ := kept f' hf'
    exact hp ▸ hd.params f hf
  · intro f' hf'
    obtain ⟨f, hf, -, -, hr⟩ := kept f' hf'
    exact hr ▸ hd.returns f hf
  · intro f' hf'
    obtain ⟨f, hf, hname, -, -⟩ := kept f' hf'
    exact hname ▸ host f hf
  · simpa [Function.comp_def, declared] using hg
  · simp [globalEnv, entries, declared]

theorem check_funcs (h : p.check = .ok t) :
    List.Forall₂ (fun f f' => funcDef (globalEnv p) f = .ok f') p.funcs t.funcs ∧
      Typing.stmts (globalEnv p) p.stmts = .ok t.stmts ∧ t.vars = p.vars.map declared := by
  obtain ⟨-, -, -, -, -, fs, ss, hfs, hss, rfl⟩ := check_ok.1 h
  exact ⟨hfs, hss, rfl⟩

variable (hk : p.Known) (h : p.check = .ok t)
include hk h

theorem check_funcs_typed : ∀ f ∈ p.funcs, FuncTyped p f ∧ Matches (funcEnv p f) p (some f) := by
  obtain ⟨hd, -, -⟩ := check_declarable hk h
  intro f hf
  obtain ⟨f', -, hff⟩ := forall₂_mem_left (check_funcs h).1 hf
  obtain ⟨hs, hi, hret, -⟩ := funcDef_ok.1 hff
  have hkf := hk.funcs f hf
  have hm := matches_funcEnv hd hs hkf.params fun v hv => (hkf.locals v hv).1
  exact ⟨⟨hs, fun v hv => (initialized_iff v (hkf.locals v hv)).2 (hi v hv),
    (funcDef_sound hkf hff hm).1.before, fun hne => (anyReturns_iff f.body).1 (hret hne)⟩, hm⟩

theorem check_funcs_annotated :
    ∀ f' ∈ t.funcs, FuncTyped t f' ∧
      Stmt.AllIn (Carries t (some f')) (CarriesScope t (some f')) f'.body ∧
      ∀ v ∈ f'.locals, Carries t (some f') (.literal v.init) := by
  obtain ⟨-, hd', henv⟩ := check_declarable hk h
  intro f' hf'
  obtain ⟨f, hf, hff⟩ := forall₂_mem_right (check_funcs h).1 hf'
  have hft := (check_funcs_typed hk h f hf).1
  have hkf := hk.funcs f hf
  have hslots := slotNames_eq hff
  have hlocals : ∀ v' ∈ f'.locals, ∃ v ∈ f.locals, v' = declared v := by
    obtain ⟨body, rfl⟩ := funcDef_same hff
    intro v' hv'
    obtain ⟨v, hv, rfl⟩ := List.mem_map.1 hv'
    exact ⟨v, hv, rfl⟩
  -- The environment the function was checked in is also that of the checked function.
  have hfenv : funcEnv t f' = funcEnv p f := by
    obtain ⟨body, rfl⟩ := funcDef_same hff
    simp [funcEnv, henv, slotBindings, declared]
  have hm : Matches (funcEnv p f) t (some f') := by
    rw [← hfenv]
    refine matches_funcEnv hd' (hslots ▸ hft.slots) (hd'.params f' hf') ?_
    intro v' hv'
    obtain ⟨v, hv, rfl⟩ := hlocals v' hv'
    exact (hkf.locals v hv).1
  obtain ⟨hbody, hcarried⟩ := funcDef_sound hkf hff hm
  refine ⟨⟨hslots ▸ hft.slots, ?_, hbody.after, ?_⟩, hbody.all, hcarried⟩
  · intro v' hv'
    obtain ⟨v, hv, rfl⟩ := hlocals v' hv'
    exact initialized_declared (hft.inits v hv) t
  · have hret : f'.returns = f.returns := by
      obtain ⟨body, rfl⟩ := funcDef_same hff
      rfl
    rw [hret, ← anyReturns_iff, ← anyReturns_erase, hbody.same, anyReturns_erase, anyReturns_iff]
    exact hft.returns

theorem check_same : t.erase = p.erase := by
  obtain ⟨hfs, hss, hvars⟩ := check_funcs h
  obtain ⟨hd, -, -⟩ := check_declarable hk h
  have funcs : t.funcs.map FuncDef.erase = p.funcs.map FuncDef.erase := by
    refine forall₂_map_eq _ _ hfs fun f hf f' hff => ?_
    have hm := (check_funcs_typed hk h f hf).2
    have hbody := (funcDef_sound (hk.funcs f hf) hff hm).1.same
    obtain ⟨body, rfl⟩ := funcDef_same hff
    simp only [FuncDef.erase, hbody, List.map_map]
    rfl
  have stmts := (block_sound (matches_globalEnv hd) p.stmts hk.stmts hss).same
  simp only [Program.erase, funcs, stmts, hvars, List.map_map]
  rfl

theorem check_sound : Checked p t := by
  obtain ⟨hd, hd', henv⟩ := check_declarable hk h
  obtain ⟨-, hss, hvars⟩ := check_funcs h
  have hl : ∀ v ∈ p.vars, literalType v.init.kind = v.type := (check_ok.1 h).2.2.2.2.1
  have hmt := matches_globalEnv hd'
  have hbefore := block_sound (matches_globalEnv hd) p.stmts hk.stmts hss
  have hafter := block_sound (henv ▸ hmt) p.stmts hk.stmts hss
  have inits : ∀ v ∈ p.vars, Initialized p v :=
    fun v hv => (initialized_iff v (hk.vars v hv)).2 (hl v hv)
  have funcs := check_funcs_annotated hk h
  refine ⟨⟨hd.funcNames, hd.notHost, hd.globals, inits,
    fun f hf => (check_funcs_typed hk h f hf).1, hbefore.before⟩,
    ⟨hd'.funcNames, hd'.notHost, hd'.globals, ?_, fun f hf => (funcs f hf).1, hafter.after⟩,
    ⟨?_, fun f hf => (funcs f hf).2.2, fun f hf => (funcs f hf).2.1, hafter.all⟩,
    check_same hk h⟩
  · intro v' hv'
    rw [hvars] at hv'
    obtain ⟨v, hv, rfl⟩ := List.mem_map.1 hv'
    exact initialized_declared (inits v hv) t
  · intro v' hv'
    rw [hvars] at hv'
    obtain ⟨v, hv, rfl⟩ := List.mem_map.1 hv'
    obtain ⟨type, he⟩ := literal_sound hmt (hk.vars v hv).2
    exact he.all.self

end Rules

/-- Checking accepts exactly the well-typed programs. The checked program is the given one with
every expression carrying the type that the rules derive for it, and no other, and every name and
assignment carrying its scope. -/
theorem check_accepts_iff_wellTyped (p : Program) (hk : p.Known) :
    ((∃ t, p.check = .ok t) ↔ Rules.WellTyped p) ∧
      ∀ t, p.check = .ok t → t.erase = p.erase ∧ Rules.WellTyped t ∧ Rules.Annotated t := by
  refine ⟨⟨?_, Rules.check_complete hk⟩, ?_⟩
  · rintro ⟨t, h⟩
    exact (Rules.check_sound hk h).before
  · intro t h
    have hc := Rules.check_sound hk h
    exact ⟨hc.same, hc.after, hc.annotated⟩

/-- A program with a loop, a recursive function, and a variable that hides a global. -/
def factorial : Program :=
  let s : Span := default
  let int (n : Int) : Expr := .literal ⟨s, none, .int, n⟩
  let name (x : String) : Expr := .name s none x .unresolved
  { vars := [⟨s, "x", some .int, ⟨s, none, .int, 9⟩⟩]
    funcs := [{
      span := s, name := "fact", params := [⟨s, "n", some .int⟩], returns := some .int
      locals := [⟨s, "x", some .int, ⟨s, none, .int, 1⟩⟩]
      body := [.cond s (.binary s none .le (name "n") (int 1)) [.ret s (name "x")] []
        [.ret s (.binary s none .mul (name "n")
          (.call s none "fact" [.binary s none .sub (name "n") (int 1)]))]] }]
    stmts := [
      .while s (.binary s none .gt (name "x") (int 5))
        [.assign s "x" .unresolved (.binary s none .sub (name "x") (int 1))],
      .expr s (.call s none "print" [.call s none "fact" [name "x"]]), .expr s (name "x")] }

theorem factorial_known : factorial.Known where
  vars := by simp [factorial, VarDecl.Known, LiteralKind.Known]
  funcs := by
    intro f hf
    cases List.mem_singleton.1 hf
    constructor <;> simp [VarDecl.Known, LiteralKind.Known, BinaryOp.Known, Stmt.AllIn, Stmt.All,
      Stmt.AllInElifs, Stmt.KnownNode, Expr.All, Expr.AllIn, Expr.KnownNode]
  stmts := by
    simp [factorial, LiteralKind.Known, BinaryOp.Known, Stmt.AllIn, Stmt.All, Stmt.KnownNode,
      Expr.All, Expr.AllIn, Expr.KnownNode]

theorem factorial_wellTyped : factorial.Known ∧ Rules.WellTyped factorial ∧
    ∃ t, factorial.check = .ok t ∧ t.erase = factorial.erase ∧ Rules.Annotated t := by
  have h := check_accepts_iff_wellTyped factorial factorial_known
  exact ⟨factorial_known, h.1.1 ⟨_, rfl⟩, _, rfl, (h.2 _ rfl).1, (h.2 _ rfl).2.2⟩

end WordScript
