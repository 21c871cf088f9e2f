import WordScript.Proofs.RepresentationRuns

/-! The word that stands for `None`.

A call of `print` is of type `None` and yields its argument. If no such value of another type is
used, all that has the type `None` is one and the same word. -/
namespace WordScript

open Machine (Image Instance Point Starts Reaches)
open Simulation (Scoped)

namespace Machine

variable {env : Env} {x y : Point}

theorem Starts.deeper (h : Starts env x y) :
    x.depth ≤ y.depth ∧ (y.depth = x.depth → y.func = x.func) := by
  cases h with
  | enter => exact ⟨Nat.le_succ _, fun h => absurd h (Nat.succ_ne_self _)⟩
  | _ => exact ⟨Nat.le_refl _, fun _ => rfl⟩

theorem reaches_deeper (h : Reaches env x y) :
    x.depth ≤ y.depth ∧ (y.depth = x.depth → y.func = x.func) := by
  induction h with
  | refl => exact ⟨Nat.le_refl _, fun _ => rfl⟩
  | tail _ step ih =>
    obtain ⟨below, same⟩ := step.deeper
    refine ⟨ih.1.trans below, fun h => ?_⟩
    have level := Nat.le_antisymm (h ▸ below) ih.1
    rw [same (h.trans level.symm), ih.2 level]

end Machine

namespace StackCode

/-- The points of the body of a function that was called, once its variables have their initial
values. -/
def InBody (p : Program) (mode : Arithmetic) (env : Machine.Env) (x : Point) (f : FuncDef)
    (y : Point) : Prop :=
  ∃ body z fuel s, stmts (contextAt mode p (some f)) 0 f.body = .ok body ∧
    x.task = .call (loaded (funcOf f body)) ∧ Starts env x z ∧
    (Machine.seq env fuel z.depth (Instr.sexprs (f.locals.flatMap initCode))).run z.state =
      (.ok .next, s) ∧
    Reaches env ⟨z.depth, z.func, .seq (Instr.sexprs (bodyCode f body)), s⟩ y ∧ y.depth = z.depth

section bodies

variable {r : Ty → Word → Prop} {d : Ty → Prop} {p : Program} {mode : Arithmetic}
  {env : Machine.Env} {x y : Point} {f : FuncDef}

theorem InBody.inside (h : InBody p mode env x f y) (hg : Guarded r p mode env)
    (hf : Faithful r d p) (hx : Sound r p env 0 x) (mem : f ∈ p.funcs) :
    ∃ set, Kept r p (some f) set y.state ∧ Rules.slotNames f ⊆ set := by
  obtain ⟨body, z, fuel, s, hb, task, enter, inits, reach, level⟩ := h
  obtain ⟨u, rfl, kept, type, returns⟩ := hx.enters hf mem task enter
  obtain ⟨set, set', safe⟩ :=
    func_safe hf.represents hf.prints hf.typed hf.annotated hf.only mem returns hb
  have names := hf.scoped mem
  cases (runs_keep hg fuel).seq safe.inits names kept .nil rfl inits with
  | next kept' fits live =>
    have begins : Inside r p (x.depth + 1) (some f) set (x.depth + 1)
        (some (loaded (funcOf f body))) s := by
      refine ⟨⟨_, rfl, .user mem body⟩, names, kept', ?_, Nat.le_refl _, fun _ => ?_⟩
      · rintro _ ⟨⟩
        exact safe.inits.grows
      · rintro _ ⟨⟩
        exact safe.full
    have sound : Sound r p env (x.depth + 1) _ := .seq begins safe.body .nil rfl
    have here : At (some f) y := by
      refine ⟨loaded (funcOf f body), (Machine.reaches_deeper reach).2 level, ?_⟩
      exact if_neg (hf.legible.named f mem)
    obtain ⟨set'', inside⟩ := (sound.reaches hg reach).at hf (by rintro _ ⟨⟩; exact mem) here
    exact ⟨set'', inside.kept, inside.full level.symm f rfl⟩

end bodies

end StackCode

end WordScript
