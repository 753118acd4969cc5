import Mathlib
import Bytescript.Proofs.Gates

/-!
# Strict compilations

In a strict compilation warnings are above the threshold too. The main statement compares it with
the lenient one of the same program: it stops no later, and where it does not stop it gives the same
script.
-/
namespace Bytescript

theorem Issue.anyAtLeast_warning_iff {issues : List Issue} :
    anyAtLeast .warning issues = true ↔
      anyAtLeast .error issues = true ∨ ∃ i ∈ issues, i.severity = .warning := by
  simp only [anyAtLeast, List.any_eq_true, decide_eq_true_eq, ← exists_or, ← and_or_left]
  refine exists_congr fun i => and_congr_right fun _ => ?_
  cases i.severity <;> decide

/-- A list of issues stops both compilations, or a warning in it stops the strict one alone, or it
stops neither and has no warning. -/
theorem Issue.gates (issues : List Issue) :
    (anyAtLeast .warning issues = true ∧ anyAtLeast .error issues = true) ∨
    (anyAtLeast .warning issues = true ∧ anyAtLeast .error issues = false ∧
      ∃ i ∈ issues, i.severity = .warning) ∨
    (anyAtLeast .warning issues = false ∧ anyAtLeast .error issues = false ∧
      ∀ i ∈ issues, i.severity ≠ .warning) := by
  have iff : anyAtLeast .warning issues = true ↔ _ := anyAtLeast_warning_iff
  cases he : anyAtLeast .error issues with
  | true => exact .inl ⟨iff.mpr (.inl he), rfl⟩
  | false =>
    by_cases hw : ∃ i ∈ issues, i.severity = .warning
    · exact .inr (.inl ⟨iff.mpr (.inr hw), rfl, hw⟩)
    · have past : anyAtLeast .warning issues = false := by
        rw [← Bool.not_eq_true, iff]
        simp [he, hw]
      exact .inr (.inr ⟨past, rfl, fun i hi h => hw ⟨i, hi, h⟩⟩)

namespace Program

variable {catalog : Catalog} {p : Program} {env : Environment} {issues : List Issue}

theorem link_time (env : Environment) (notes : Notes) (p : Program) (time later : Int64) :
    p.link env notes time = (p.link env notes later).map fun s =>
      { s with header := { s.header with compiledAt := time } } := by
  simp only [link]
  cases Generate.ofProgram env notes p with
  | error e => rfl
  | ok a =>
    simp only [Script.assemble, bind, Except.bind]
    cases Script.addName a.pool (some env.home) with
    | error q => rfl
    | ok r => cases h : r.2.toBytes <;> simp [h, Except.map, Except.mapError, pure, Except.pure]

theorem compile_of_severe (options : CompileOptions) (time : Int64)
    (he : Environment.ofProgram catalog options.automatic p = (some env, issues))
    (sized : env.panic? = none) (severe : Issue.anyAtLeast options.threshold issues = true) :
    p.compile options catalog time = ⟨none, issues, none⟩ := by
  simp [compile, he, sized, severe]

def linked (issues : List Issue) : Except Generate.Failure Script → Compilation
  | .ok script => ⟨some script, issues, none⟩
  | .error .disagreement => ⟨none, issues, none⟩
  | .error (.panic q) => ⟨none, issues, some q⟩

theorem issues_linked (issues : List Issue) (r : Except Generate.Failure Script) :
    (linked issues r).issues = issues := by
  rcases r with (_ | _) | _ <;> rfl

theorem script_linked (issues : List Issue) (r : Except Generate.Failure Script) :
    (linked issues r).script = r.toOption := by
  rcases r with (_ | _) | _ <;> rfl

theorem compile_of_passed (options : CompileOptions) (time : Int64)
    (he : Environment.ofProgram catalog options.automatic p = (some env, issues))
    (sized : env.panic? = none) (passed : Issue.anyAtLeast options.threshold issues = false) :
    p.compile options catalog time =
      let all := issues ++ (Typing.ofProgram env p).issues
      if Issue.anyAtLeast options.threshold all then ⟨none, all, none⟩
      else linked all (p.link env (Typing.ofProgram env p).notes time) := by
  simp only [compile, he, sized, passed, Option.isSome_none, Bool.false_eq_true, if_false]
  split
  · rfl
  · rcases p.link env (Typing.ofProgram env p).notes time with (_ | _) | _ <;> rfl

/-- The issues of the strict compilation are a front part of those of the lenient one. The strict
compilation gives a script exactly if the lenient one does and has no warning, and the two scripts
differ only in their time. -/
theorem compile_strict_lenient (catalog : Catalog) (automatic : Bool) (time later : Int64)
    (p : Program) :
    let strict := p.compile ⟨true, automatic⟩ catalog time
    let lenient := p.compile ⟨false, automatic⟩ catalog later
    strict.issues <+: lenient.issues ∧
    (strict.script.isSome ↔
      lenient.script.isSome ∧ ∀ i ∈ lenient.issues, i.severity ≠ .warning) ∧
    ∀ s ∈ strict.script, ∀ l ∈ lenient.script,
      s = { l with header := { l.header with compiledAt := s.header.compiledAt } } := by
  intro strict lenient
  rcases he : Environment.ofProgram catalog automatic p with ⟨_ | env, issues⟩
  · -- no environment: each shows why, and stops
    have hs : strict = ⟨none, issues, none⟩ := by simp [strict, compile, he]
    have hl : lenient = ⟨none, issues, none⟩ := by simp [lenient, compile, he]
    simp [hs, hl]
  cases sized : env.panic? with
  | some q =>
    have hs : strict = ⟨none, issues, some q⟩ := by simp [strict, compile, he, sized]
    have hl : lenient = ⟨none, issues, some q⟩ := by simp [lenient, compile, he, sized]
    simp [hs, hl]
  | none =>
  rcases Issue.gates issues with ⟨ws, es⟩ | ⟨ws, es, i, hi, hw⟩ | ⟨ws, es, -⟩
  · have hs : strict = ⟨none, issues, none⟩ := compile_of_severe ⟨true, automatic⟩ time he sized ws
    have hl : lenient = ⟨none, issues, none⟩ :=
      compile_of_severe ⟨false, automatic⟩ later he sized es
    simp [hs, hl]
  · -- the warning stays among the issues of the lenient compilation
    have hs : strict = ⟨none, issues, none⟩ := compile_of_severe ⟨true, automatic⟩ time he sized ws
    have shown : issues <+: lenient.issues := by
      simp only [lenient, compile_of_passed ⟨false, automatic⟩ later he sized es]
      split
      · exact List.prefix_append issues _
      · rw [issues_linked]
        exact List.prefix_append issues _
    have warned : ¬ ∀ i ∈ lenient.issues, i.severity ≠ .warning :=
      fun all => all i (shown.subset hi) hw
    refine ⟨by rw [hs]; exact shown, ?_, ?_⟩
    · simp [hs, warned]
    · simp [hs]
  · have hs : strict = _ := compile_of_passed ⟨true, automatic⟩ time he sized ws
    have hl : lenient = _ := compile_of_passed ⟨false, automatic⟩ later he sized es
    rw [link_time env _ p time later] at hs
    simp only [CompileOptions.threshold, if_true, Bool.false_eq_true, if_false] at hs hl
    generalize issues ++ (Typing.ofProgram env p).issues = all at hs hl
    generalize p.link env (Typing.ofProgram env p).notes later = r at hs hl
    rw [hs, hl]
    rcases Issue.gates all with ⟨w, e⟩ | ⟨w, e, i, hi, hw⟩ | ⟨w, e, quiet⟩
    · simp [w, e]
    · have warned : ¬ ∀ i ∈ all, i.severity ≠ .warning := fun quiet => quiet i hi hw
      simp only [w, e, if_true, Bool.false_eq_true, if_false, issues_linked]
      exact ⟨List.prefix_rfl, by simp [warned], by simp⟩
    · simp only [w, e, Bool.false_eq_true, if_false, issues_linked, script_linked]
      refine ⟨List.prefix_rfl, ?_, ?_⟩
      · rw [and_iff_left quiet]
        cases r <;> simp [Except.map, Except.toOption]
      · intro s hs l hl
        cases r with
        | error e => cases hl
        | ok script =>
          cases hs
          cases hl
          rfl

end Program

end Bytescript
