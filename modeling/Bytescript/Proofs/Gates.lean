import Mathlib
import Bytescript.Proofs.Agreement

/-!
# When there is a script

A compilation gives a script exactly if no issue reaches the threshold, nothing panics and no
expression is unconvertible. None is unconvertible if the unsigned literal types of the catalog are
primitives.
-/
namespace Bytescript

namespace Typing

theorem Fits.unsigned_of_unconvertible {env : Environment} {scopes : Scopes} {notes : Notes}
    {e : Expr} {target : Ty} (h : Fits env notes scopes e target) {n : Expr} (hn : n ∈ e.nodes)
    (hs : Unconvertible notes n) :
    ∃ q ∈ Primitive.unsignedTypes, (env.core.primitive q).primitive? = none := by
  obtain ⟨note, c, ⟨noted, filed⟩, hc⟩ := h
  rcases Expr.mem_nodes.mp hn with hn | rfl
  · exact absurd hs (noted.parts_not_unconvertible n hn)
  · obtain ⟨filedNote, hf, hk, hp⟩ := hs
    cases filed.symm.trans hf
    obtain ⟨k, rfl⟩ := Option.isSome_iff_exists.mp hk
    obtain ⟨t, ht⟩ := Option.isSome_iff_exists.mp ((coercionTo_primitive hc).2 hp)
    obtain ⟨⟨q, hq, hty⟩, -⟩ := noted.secondary t ht
    exact ⟨q, hq, hty ▸ hp⟩

theorem unsigned_of_unconvertible_all (env : Environment) (notes : Notes) :
    (∀ stmt scopes after, Accepted env notes scopes stmt after → ∀ e ∈ stmt.nodes,
      Unconvertible notes e →
        ∃ q ∈ Primitive.unsignedTypes, (env.core.primitive q).primitive? = none) ∧
    ∀ body scopes after, AcceptedAll env notes scopes body after → ∀ e ∈ Stmt.nodesAll body,
      Unconvertible notes e →
        ∃ q ∈ Primitive.unsignedTypes, (env.core.primitive q).primitive? = none := by
  have cases : Stmt.Cases
      (fun stmt => ∀ scopes after, Accepted env notes scopes stmt after → ∀ e ∈ stmt.nodes,
        Unconvertible notes e →
        ∃ q ∈ Primitive.unsignedTypes, (env.core.primitive q).primitive? = none)
      (fun body => ∀ scopes after, AcceptedAll env notes scopes body after →
        ∀ e ∈ Stmt.nodesAll body, Unconvertible notes e →
        ∃ q ∈ Primitive.unsignedTypes, (env.core.primitive q).primitive? = none) := {
    declare := by
      intro position name ty value scopes after h e he hs
      obtain ⟨t, hi, -⟩ := h
      match ty, value with
      | none, none => exact hi.elim
      | none, some value =>
        obtain ⟨note, hn, -⟩ := hi
        exact absurd hs (hn.not_unconvertible e he)
      | some written, none => simp [Stmt.nodes] at he
      | some written, some value => exact (hi.2 value rfl).unsigned_of_unconvertible he hs
    assign := by
      intro position target value scopes after h e he hs
      obtain ⟨⟨t, -, hf⟩, -⟩ := h
      exact hf.unsigned_of_unconvertible he hs
    discard := by
      intro position value scopes after h e he hs
      obtain ⟨⟨note, hn⟩, -⟩ := h
      exact absurd hs (hn.not_unconvertible e he)
    block := by
      intro position body ih scopes after h e he hs
      obtain ⟨⟨inner, hb⟩, -⟩ := h
      exact ih _ inner hb e he hs
    branch := by
      intro position c body ih scopes after h e he hs
      obtain ⟨⟨note, hn, -⟩, ⟨inner, hb⟩, -⟩ := h
      simp only [Stmt.nodes, List.append_nil, List.mem_append] at he
      rcases he with he | he
      · exact absurd hs (hn.not_unconvertible e he)
      · exact ih _ inner hb e he hs
    branchElse := by
      intro position c body otherwise ihb iho scopes after h e he hs
      obtain ⟨⟨note, hn, -⟩, ⟨inner, hb⟩, ⟨outer, ho⟩, -⟩ := h
      simp only [Stmt.nodes, List.mem_append] at he
      rcases he with (he | he) | he
      · exact absurd hs (hn.not_unconvertible e he)
      · exact ihb _ inner hb e he hs
      · exact iho _ outer ho e he hs
    loop := by
      intro position c body ih scopes after h e he hs
      obtain ⟨⟨note, hn, -⟩, ⟨inner, hb⟩, -⟩ := h
      simp only [Stmt.nodes, List.mem_append] at he
      rcases he with he | he
      · exact absurd hs (hn.not_unconvertible e he)
      · exact ih _ inner hb e he hs
    halt := by
      intro position code scopes after h e he
      simp [Stmt.nodes] at he
    debug := by
      intro position scopes after h e he
      simp [Stmt.nodes] at he
    nil := by
      intro scopes after h e he
      simp [Stmt.nodesAll] at he
    cons := by
      intro stmt rest ihs ihr scopes after h e he hs
      obtain ⟨middle, hm, hr⟩ := h
      rcases List.mem_append.mp he with he | he
      · exact ihs scopes middle hm e he hs
      · exact ihr middle after hr e he hs }
  exact ⟨cases.one, cases.all⟩

end Typing

open Typing

/-- Some expression of a program has a coercion from a type that is not primitive. -/
def Program.HasUnconvertible (env : Environment) (p : Program) : Prop :=
  ∃ e ∈ Stmt.nodesAll p.body, Unconvertible (Typing.ofProgram env p).notes e

theorem Lowering.statements_isSome_iff {env : Environment} {p : Program} (hd : p.Distinct)
    (hc : Clean (Typing.ofProgram env p)) :
    (Lowering.statements env (Typing.ofProgram env p).notes Assembly.start.scene p.body).isSome ↔
      ¬ p.HasUnconvertible env := by
  obtain ⟨after, ha⟩ := ofProgram_accepted hd hc
  rw [(lowers_iff_all env _).2 p.body [[]] after _ ha Agree.start]
  simp [Program.HasUnconvertible]

theorem Program.not_hasUnconvertible {env : Environment} {p : Program} (hd : p.Distinct)
    (hc : Clean (Typing.ofProgram env p))
    (hu : ∀ q ∈ Primitive.unsignedTypes, (env.core.primitive q).primitive?.isSome) :
    ¬ p.HasUnconvertible env := by
  rintro ⟨e, he, hs⟩
  obtain ⟨after, ha⟩ := ofProgram_accepted hd hc
  obtain ⟨q, hq, hn⟩ := (unsigned_of_unconvertible_all env _).2 p.body [[]] after ha e he hs
  have := hu q hq
  simp [hn] at this

theorem anyAtLeast_error {options : CompileOptions} {issues : List Issue}
    (h : Issue.anyAtLeast options.threshold issues = false) :
    Issue.anyAtLeast .error issues = false := by
  simp only [Issue.anyAtLeast, List.any_eq_false, decide_eq_true_eq] at h ⊢
  intro i hi he
  refine h i hi (le_trans ?_ he)
  unfold CompileOptions.threshold
  split <;> decide

namespace Program

variable {options : CompileOptions} {catalog : Catalog} {p : Program} {time : Int64}

inductive Compiles (options : CompileOptions) (catalog : Catalog) (time : Int64) (p : Program) :
    Compilation → Prop
  | noCore (resolved : Environment.ofProgram catalog options.automatic p =
        (none, [Problem.noCoreModule.issueAt ⟨0, 0⟩])) :
      Compiles options catalog time p ⟨none, [Problem.noCoreModule.issueAt ⟨0, 0⟩], none⟩
  | oversized {env : Environment} {issues : List Issue} {q : Panic}
      (resolved : Environment.ofProgram catalog options.automatic p = (some env, issues))
      (panic : env.panic? = some q) : Compiles options catalog time p ⟨none, issues, some q⟩
  | unresolved {env : Environment} {issues : List Issue}
      (resolved : Environment.ofProgram catalog options.automatic p = (some env, issues))
      (severe : Issue.anyAtLeast options.threshold issues = true) :
      Compiles options catalog time p ⟨none, issues, none⟩
  | untyped {env : Environment} {issues : List Issue}
      (resolved : Environment.ofProgram catalog options.automatic p = (some env, issues))
      (severe : Issue.anyAtLeast options.threshold
        (issues ++ (Typing.ofProgram env p).issues) = true) :
      Compiles options catalog time p ⟨none, issues ++ (Typing.ofProgram env p).issues, none⟩
  | linked {env : Environment} {issues : List Issue} {script : Script}
      (resolved : Environment.ofProgram catalog options.automatic p = (some env, issues))
      (passed : Issue.anyAtLeast options.threshold
        (issues ++ (Typing.ofProgram env p).issues) = false)
      (link : p.link env (Typing.ofProgram env p).notes time = .ok script) :
      Compiles options catalog time p
        ⟨some script, issues ++ (Typing.ofProgram env p).issues, none⟩
  | disagreed {env : Environment} {issues : List Issue}
      (resolved : Environment.ofProgram catalog options.automatic p = (some env, issues))
      (passed : Issue.anyAtLeast options.threshold
        (issues ++ (Typing.ofProgram env p).issues) = false)
      (link : p.link env (Typing.ofProgram env p).notes time = .error .disagreement) :
      Compiles options catalog time p ⟨none, issues ++ (Typing.ofProgram env p).issues, none⟩
  | panicked {env : Environment} {issues : List Issue} {q : Panic}
      (resolved : Environment.ofProgram catalog options.automatic p = (some env, issues))
      (passed : Issue.anyAtLeast options.threshold
        (issues ++ (Typing.ofProgram env p).issues) = false)
      (link : p.link env (Typing.ofProgram env p).notes time = .error (.panic q)) :
      Compiles options catalog time p ⟨none, issues ++ (Typing.ofProgram env p).issues, some q⟩

theorem compiles_compile (options : CompileOptions) (catalog : Catalog) (time : Int64)
    (p : Program) : Compiles options catalog time p (p.compile options catalog time) := by
  unfold compile
  split
  · next issues he =>
    have hc : issues = [Problem.noCoreModule.issueAt ⟨0, 0⟩] := by
      unfold Environment.ofProgram at he
      split at he
      · cases he
        rfl
      · cases he
    subst hc
    exact .noCore he
  · next env issues he =>
    split
    · next hp =>
      obtain ⟨q, hq⟩ := Option.isSome_iff_exists.mp hp
      rw [hq]
      exact .oversized he hq
    · split
      · next hi => exact .unresolved he hi
      · dsimp only
        split
        · next hi => exact .untyped he hi
        · next hi =>
          have passed := Bool.eq_false_of_not_eq_true hi
          split
          · next hl => exact .linked he passed hl
          · next hl => exact .disagreed he passed hl
          · next hl => exact .panicked he passed hl

theorem clean_of_passed {env : Environment} {issues : List Issue}
    (h : Issue.anyAtLeast options.threshold (issues ++ (Typing.ofProgram env p).issues) = false) :
    Clean (Typing.ofProgram env p) := by
  have he := anyAtLeast_error h
  simp only [Issue.anyAtLeast, List.any_append, Bool.or_eq_false_iff] at he
  exact he.2

theorem link_eq_ok_iff {env : Environment} {notes : Notes} {script : Script} :
    p.link env notes time = .ok script ↔ ∃ a, Generate.ofProgram env notes p = .ok a ∧
      Script.assemble a.pool a.code (some env.home) time = .ok script := by
  rw [link, bind_eq_ok_iff]
  simp only [mapError_eq_ok_iff]

/-- A script has the code of statements that were accepted, and this code fits. -/
theorem exists_of_compile {script : Script} (distinct : p.Distinct)
    (compiled : (p.compile options catalog time).script = some script) :
    ∃ env issues b after,
      Environment.ofProgram catalog options.automatic p = (some env, issues) ∧
      Typing.AcceptedAll env (Typing.ofProgram env p).notes [[]] p.body after ∧
      Lowering.statements env (Typing.ofProgram env p).notes Assembly.start.scene p.body = some b ∧
      Assembly.start.Fits b.1 b.2.pool ∧
      Script.assemble b.2.pool b.1.toArray (some env.home) time = .ok script := by
  have compiles := compiles_compile options catalog time p
  generalize p.compile options catalog time = c at compiles compiled
  cases compiles with
  | @linked env issues _ resolved passed link =>
    cases compiled
    obtain ⟨after, accepted⟩ := Typing.ofProgram_accepted distinct (clean_of_passed passed)
    obtain ⟨a, ha, hs⟩ := link_eq_ok_iff.mp link
    obtain ⟨b, hb, fits, rfl⟩ := Generate.ofProgram_eq_ok_iff.mp ha
    refine ⟨env, issues, b, after, resolved, accepted, hb, fits, ?_⟩
    simpa [Assembly.withBody, Assembly.start] using hs
  | _ => cases compiled

end Program

end Bytescript
