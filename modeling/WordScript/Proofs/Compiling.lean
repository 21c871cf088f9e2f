import WordScript.Pipeline
import WordScript.Proofs.Building
import WordScript.Proofs.ReadingEnds
import WordScript.Proofs.StackLowering
import WordScript.Proofs.Storage

/-! Compiling a source, from end to end.

Every source is compiled, or the compilation ends at a fault of the source in one of the first three
stages. Every position that a stage gives is a position in the source. -/
namespace WordScript
open Program (ofTree ofTree_builds render)
open Tree (parse)
open Utf8 (encode)

theorem render_succeeds {p : Program} (hk : p.Known) (h : p.check = .ok typed) (target : Target)
    (mode : Arithmetic) : ∃ text, typed.render target mode = .ok text := by
  have checked := Rules.check_sound hk h
  cases target with
  | wat =>
    obtain ⟨m, made⟩ : ∃ m, typed.toStackCode mode = .ok m :=
      StackCode.toStackCode_succeeds checked.after checked.annotated
    exact ⟨m.render, by rw [render, made]; rfl⟩
  | llvm =>
    obtain ⟨g, made⟩ := BlockGraph.toBlockGraph_succeeds mode checked.after checked.annotated
    exact ⟨g.render, by rw [render, made]; rfl⟩

namespace Compilation

variable {α β : Type} {s : Stage} {f : α → Compilation β} {log : List Ended}

theorem stage_ok : (stage s (.ok a) >>= f).run.run log = (f a).run.run (log ++ [⟨s, true⟩]) := rfl

end Compilation

/-- How a compilation ends, with the stages that have ended. -/
inductive Concludes (target : Target) (mode : Arithmetic) (source : Bytes) :
    Except Failure String × List Ended → Prop
  | unread {e : SyntaxError} (stops : Tree.parse source = .error e) :
      Concludes target mode source
        (.error (.diagnostic ⟨.reading, e.problem.message, some e.span⟩), [⟨.reading, false⟩])
  | unbuilt {tree : Tree} {span : Span} {cause : BuildProblem} (read : Tree.parse source = .ok tree)
      (stops : Program.ofTree tree = .error (.fault span cause)) :
      Concludes target mode source
        (.error (.diagnostic ⟨.building, cause.message, some span⟩),
          [⟨.reading, true⟩, ⟨.building, false⟩])
  | unchecked {tree : Tree} {p : Program} {span : Span} {cause : TypeProblem}
      (read : Tree.parse source = .ok tree) (built : Program.ofTree tree = .ok p)
      (stops : p.check = .error (.fault span cause)) :
      Concludes target mode source
        (.error (.diagnostic ⟨.checking, cause.message, some span⟩),
          [⟨.reading, true⟩, ⟨.building, true⟩, ⟨.checking, false⟩])
  | compiled {tree : Tree} {p typed : Program} {text : String}
      (read : Tree.parse source = .ok tree) (built : Program.ofTree tree = .ok p)
      (checked : p.check = .ok typed) (generated : typed.render target mode = .ok text) :
      Concludes target mode source
        (.ok text,
          [⟨.reading, true⟩, ⟨.building, true⟩, ⟨.checking, true⟩, ⟨.generating, true⟩])

/-- Every source is compiled, or the compilation stops at the first stage that finds a fault. -/
theorem compilation_concludes (target : Target) (mode : Arithmetic) (source : Bytes) :
    ReadsThrough source ∧ Concludes target mode source (compile target mode source).outcome := by
  refine ⟨readsThrough source, ?_⟩
  simp only [Compilation.outcome, compile, analyze, bind_assoc]
  cases read : parse source with
  | error e => exact .unread read
  | ok tree =>
    simp only [Except.mapError, Compilation.stage_ok]
    rcases (ofTree_builds read).cases with ⟨p, built, builds⟩ | ⟨span, cause, stops, -⟩
    · rw [built]
      simp only [Compilation.stage_ok]
      rcases (p.check_safe builds.known builds.spanned).cases with
        ⟨typed, checked, -⟩ | ⟨span, cause, stops, -⟩
      · obtain ⟨text, generated⟩ := render_succeeds builds.known checked target mode
        rw [checked]
        simp only [Compilation.stage_ok, generated]
        exact .compiled read built checked generated
      · rw [stops]
        exact .unchecked read built stops
    · rw [stops]
      exact .unbuilt read stops

/-- Every token and every node of a tree or a program stands where the text it was read from stands,
and every fault is told at such a place. -/
theorem positions_in_source (source : Bytes) :
    (∀ t ∈ (Scanner.scan source).tokens, t.start ≤ t.stop ∧ t.stop ≤ source.length ∧
      t.span = .ofRange source t.start t.stop) ∧
    (∀ e, Tree.parse source = .error e → e.span.Selects source) ∧
    ∀ tree, Tree.parse source = .ok tree →
      (∀ n : Node, n.Part tree.root → (∀ name, n ≠ .branch name []) →
        ∃ a b, n.Covers source a b) ∧
      (∀ span cause, Program.ofTree tree = .error (.fault span cause) → span.Selects source) ∧
      ∀ p, Program.ofTree tree = .ok p → p.Spanned (Span.Selects source) ∧
        (∀ span cause, p.check = .error (.fault span cause) → span.Selects source) ∧
        ∀ typed, p.check = .ok typed → typed.Spanned (Span.Selects source) := by
  have placed : ∀ t ∈ (Scanner.scan source).tokens, t.Placed source :=
    fun _ => Scanner.scan_placed
  refine ⟨fun t ht => ⟨(placed t ht).order, (placed t ht).bound, (placed t ht).span⟩,
    fun e stops => ?_, fun tree read => ?_⟩
  · rcases Tree.parse_error stops with fault | ⟨t, ht, rfl⟩
    · exact Scanner.scan_fault_selects fault
    · exact (placed t ht).selects
  have builds := ofTree_builds read
  refine ⟨fun n => Tree.covers_of_parse read, fun span cause stops => ?_, fun p built => ?_⟩
  · rw [stops] at builds
    exact builds
  rw [built] at builds
  have checks := Program.check_safe builds.known builds.spanned
  refine ⟨builds.spanned, fun span cause stops => ?_, fun typed checked => ?_⟩
  · rw [stops] at checks
    exact checks
  · rw [checked] at checks
    exact checks

/-- A source with a letter of two bytes and a tab, and three sources with a fault: in the text, in a
target and in a name. -/
theorem sample_positions :
    let source := encode "é:\tint = 1\né\n"
    (∃ t ∈ (Scanner.scan source).tokens, t.start = 4 ∧ t.stop = 7 ∧ t.span = ⟨⟨0, 6⟩, ⟨0, 9⟩⟩) ∧
    (∃ tree p typed, parse source = .ok tree ∧ ofTree tree = .ok p ∧
      p.check = .ok typed ∧ tree.root.Covers source 0 14 ∧ p.Spanned (Span.Selects source) ∧
      typed.Spanned (Span.Selects source)) ∧
    (∃ e, parse (encode "x = (\n") = .error e ∧
      e.span.Selects (encode "x = (\n")) ∧
    (∃ tree span cause, parse (encode "1 = 2\n") = .ok tree ∧
      ofTree tree = .error (.fault span cause) ∧
      span.Selects (encode "1 = 2\n")) ∧
    ∃ tree p span cause, parse (encode "\ny\n") = .ok tree ∧
      ofTree tree = .ok p ∧ p.check = .error (.fault span cause) ∧
      span.Selects (encode "\ny\n") := by
  intro source
  obtain ⟨tokens, -, stages⟩ := positions_in_source source
  refine ⟨?_, ?_, ?_, ?_, ?_⟩
  · have found : (Scanner.scan source).tokens.any (fun t => t.start = 4 ∧ t.stop = 7) = true := by
      decide +kernel
    obtain ⟨t, ht, here⟩ := List.any_eq_true.1 found
    obtain ⟨start, stop⟩ := of_decide_eq_true here
    refine ⟨t, ht, start, stop, ?_⟩
    rw [(tokens t ht).2.2, start, stop]
    decide +kernel
  · have accepted : ((parse source).toOption.bind fun tree =>
        (ofTree tree).toOption.bind fun p => p.check.toOption).isSome = true := by
      decide +kernel
    have range : ((parse source).toOption.map fun tree =>
        (tree.root.start?, tree.root.stop?)) = some (some 0, some 14) := by
      decide +kernel
    cases read : parse source with
    | error e => simp [read, Except.toOption] at range
    | ok tree =>
      cases built : ofTree tree with
      | error stop => simp [read, built, Except.toOption] at accepted
      | ok p =>
        cases checked : p.check with
        | error stop => simp [read, built, checked, Except.toOption] at accepted
        | ok typed =>
          simp only [read, Except.toOption, Option.map_some, Option.some.injEq,
            Prod.mk.injEq] at range
          obtain ⟨nodes, -, rest⟩ := stages tree read
          obtain ⟨spanned, -, kept⟩ := rest p built
          obtain ⟨a, b, covers⟩ := nodes tree.root .self (by
            intro name root
            simp [root, Node.start?] at range)
          cases range.1.symm.trans covers.start
          cases range.2.symm.trans covers.stop
          exact ⟨tree, p, typed, rfl, built, checked, covers, spanned, kept typed checked⟩
  · have fails : (parse (encode "x = (\n")).isOk = false := by decide +kernel
    cases stops : parse (encode "x = (\n") with
    | ok tree => simp [stops, Except.isOk, Except.toBool] at fails
    | error e => exact ⟨e, rfl, (positions_in_source _).2.1 e stops⟩
  · have fails : ((parse (encode "1 = 2\n")).toOption.map fun tree =>
        (ofTree tree).isOk) = some false := by
      decide +kernel
    cases read : parse (encode "1 = 2\n") with
    | error e => simp [read, Except.toOption] at fails
    | ok tree =>
      obtain ⟨-, faults, -⟩ := (positions_in_source _).2.2 tree read
      rcases (ofTree_builds read).cases with ⟨p, built, -⟩ | ⟨span, cause, stops, -⟩
      · simp [read, built, Except.toOption, Except.isOk, Except.toBool] at fails
      · exact ⟨tree, span, cause, rfl, stops, faults span cause stops⟩
  · have fails : ((parse (encode "\ny\n")).toOption.bind fun tree =>
        (ofTree tree).toOption.map fun p => p.check.isOk) = some false := by
      decide +kernel
    cases read : parse (encode "\ny\n") with
    | error e => simp [read, Except.toOption] at fails
    | ok tree =>
      obtain ⟨-, -, programs⟩ := (positions_in_source _).2.2 tree read
      rcases (ofTree_builds read).cases with ⟨p, built, builds⟩ | ⟨span, cause, stops, -⟩
      · obtain ⟨-, faults, -⟩ := programs p built
        rcases (p.check_safe builds.known builds.spanned).cases with
          ⟨typed, checked, -⟩ | ⟨span, cause, stops, -⟩
        · simp [read, built, checked, Except.toOption, Except.isOk, Except.toBool] at fails
        · exact ⟨tree, p, span, cause, rfl, built, stops, faults span cause stops⟩
      · simp [read, stops, Except.toOption] at fails

end WordScript
