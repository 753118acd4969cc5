import Mathlib
import Bytescript.Proofs.Strictness
import Bytescript.Proofs.Universe

/-!
# The order in which modules are registered

A compilation uses a catalog in two ways: it finds the module of a name, and it lists the automatic
modules in the order of their names. So neither the order in which the modules were registered nor
the order in which the catalog keeps them makes a difference. Where several automatic modules have a
type of one name, every program sees the type of the module whose name comes first.
-/
namespace Bytescript

namespace Module

theorem find?_eq_some_iff {ms : List Module} (distinct : (ms.map Module.name).Nodup)
    {name : String} {m : Module} :
    (ms.find? fun k => k.name == name) = some m ↔ m ∈ ms ∧ m.name = name := by
  constructor
  · intro found
    exact ⟨List.mem_of_find?_eq_some found, by simpa using List.find?_some found⟩
  · rintro ⟨hm, rfl⟩
    obtain ⟨k, hk⟩ : ∃ k, (ms.find? fun k => k.name == m.name) = some k :=
      Option.isSome_iff_exists.mp (List.find?_isSome.mpr ⟨m, hm, beq_self_eq_true m.name⟩)
    have named : k.name = m.name := by simpa using List.find?_some hk
    rw [hk, List.inj_on_of_nodup_map distinct (List.mem_of_find?_eq_some hk) hm named]

theorem find?_eq_of_perm {ms ns : List Module} (distinct : (ms.map Module.name).Nodup)
    (perm : ms.Perm ns) (name : String) :
    (ms.find? fun k => k.name == name) = ns.find? fun k => k.name == name := by
  ext m
  rw [find?_eq_some_iff distinct, find?_eq_some_iff ((perm.map _).nodup_iff.mp distinct),
    perm.mem_iff]

end Module

namespace Catalog

variable {c d : Catalog}

theorem find?_eq_some_iff {name : String} {m : Module} :
    c.find? name = some m ↔ m ∈ c.modules ∧ m.name = name :=
  Module.find?_eq_some_iff c.distinct

theorem mem_modules_iff {m : Module} : m ∈ c.modules ↔ c.find? m.name = some m := by
  rw [find?_eq_some_iff, and_iff_left rfl]

theorem sorted_place (m : Module) {ms : List Module}
    (sorted : ms.Pairwise fun m n => m.name ≤ n.name) :
    (place m ms).Pairwise fun m n => m.name ≤ n.name := by
  induction ms with
  | nil => exact List.pairwise_singleton _ m
  | cons n ms ih =>
    obtain ⟨least, rest⟩ := List.pairwise_cons.mp sorted
    rw [place]
    split
    · next before =>
      refine List.pairwise_cons.mpr ⟨fun k hk => ?_, ih rest⟩
      rcases List.mem_cons.mp ((perm_place m ms).mem_iff.mp hk) with rfl | hk
      · exact before.le
      · exact least k hk
    · next behind =>
      have le : m.name ≤ n.name := not_lt.mp behind
      refine List.pairwise_cons.mpr ⟨fun k hk => ?_, sorted⟩
      rcases List.mem_cons.mp hk with rfl | hk
      · exact le
      · exact le.trans (least k hk)

theorem sorted_sort (ms : List Module) : (sort ms).Pairwise fun m n => m.name ≤ n.name := by
  induction ms with
  | nil => exact .nil
  | cons m ms ih => exact sorted_place m ih

theorem mem_automatic {m : Module} : m ∈ c.automatic ↔ m ∈ c.modules ∧ m.automatic = true := by
  rw [automatic, mem_sort, List.mem_filter]

/-- The automatic modules are the same whatever the order in which a catalog keeps its modules. -/
theorem automatic_eq_of_perm (perm : c.modules.Perm d.modules) : c.automatic = d.automatic := by
  have listed : c.automatic.Perm d.automatic :=
    (perm_sort _).trans ((perm.filter _).trans (perm_sort _).symm)
  refine listed.eq_of_pairwise (fun m n hm hn le ge => ?_) (sorted_sort _) (sorted_sort _)
  have hm : m ∈ c.modules := (mem_automatic.mp hm).1
  have hn : n ∈ c.modules := perm.mem_iff.mpr (mem_automatic.mp hn).1
  exact List.inj_on_of_nodup_map c.distinct hm hn (le_antisymm le ge)

theorem sorted_automatic (c : Catalog) : c.automatic.Pairwise fun m n => m.name < n.name := by
  have names : (c.automatic.map Module.name).Nodup :=
    ((perm_sort _).map _).nodup_iff.mpr (c.distinct.sublist (List.filter_sublist.map _))
  exact ((sorted_sort _).and (List.pairwise_map.mp names)).imp fun h => lt_of_le_of_ne h.1 h.2

def ofModules (ms : List Module) : Catalog := ms.foldl register empty

theorem find?_register (c : Catalog) (m : Module) (name : String) :
    (c.register m).find? name = if m.name = name then some m else c.find? name := by
  ext k
  rw [find?_eq_some_iff]
  simp only [register, List.mem_append, List.mem_filter, List.mem_singleton, bne_iff_ne]
  split_ifs with same
  · constructor
    · rintro ⟨⟨-, other⟩ | rfl, named⟩
      · exact absurd (named.trans same.symm) other
      · rfl
    · rintro ⟨⟩
      exact ⟨.inr rfl, same⟩
  · rw [find?_eq_some_iff]
    constructor
    · rintro ⟨⟨hk, -⟩ | rfl, named⟩
      · exact ⟨hk, named⟩
      · exact absurd named same
    · rintro ⟨hk, rfl⟩
      exact ⟨.inl ⟨hk, Ne.symm same⟩, rfl⟩

/-- After modules of distinct names are registered, each of them is found under its name. -/
theorem find?_foldl_register {ms : List Module} (distinct : (ms.map Module.name).Nodup)
    (c : Catalog) (name : String) :
    (ms.foldl register c).find? name =
      (ms.find? fun k => k.name == name).or (c.find? name) := by
  induction ms generalizing c with
  | nil => rfl
  | cons m ms ih =>
    rw [List.map_cons, List.nodup_cons] at distinct
    rw [List.foldl_cons, ih distinct.2, find?_register]
    by_cases same : m.name = name
    · have missing : (ms.find? fun k => k.name == name) = none := by
        rw [List.find?_eq_none]
        intro k hk named
        exact distinct.1 (List.mem_map.mpr ⟨k, hk, (beq_iff_eq.mp named).trans same.symm⟩)
      simp [same, missing]
    · simp [same]

theorem perm_of_find? (same : ∀ name, c.find? name = d.find? name) :
    c.modules.Perm d.modules := by
  refine (List.perm_ext_iff_of_nodup c.distinct.of_map d.distinct.of_map).mpr fun m => ?_
  rw [mem_modules_iff, mem_modules_iff, same]

theorem ofProgram_eq_of_perm (perm : c.modules.Perm d.modules) (automatic : Bool) (p : Program) :
    Environment.ofProgram c automatic p = Environment.ofProgram d automatic p := by
  have find : c.find? = d.find? := funext (Module.find?_eq_of_perm c.distinct perm)
  have core : c.coreTypes? = d.coreTypes? := by rw [coreTypes?, coreTypes?, find]
  have imports (scope : TypeScope) (is : List Import) :
      Environment.addImports c scope is = Environment.addImports d scope is := by
    induction is generalizing scope with
    | nil => rfl
    | cons i is ih => simp only [Environment.addImports, Environment.addImport, find, ih]
  simp only [Environment.ofProgram, core, automatic_eq_of_perm perm, imports]

end Catalog

namespace TypeScope

theorem find?_addAll (s : TypeScope) (ds : List Definition) (name : String) :
    (s.addAll ds).find? name = (s.find? name).or (ds.find? fun d => d.name == name) := by
  induction ds generalizing s with
  | nil => simp [addAll]
  | cons d ds ih =>
    change ((s.add d).addAll ds).find? name = _
    rw [ih, find?_add_eq, Option.or_assoc]
    by_cases same : d.name = name <;> simp [same]

theorem find?_modules (ms : List Module) (s : TypeScope) (name : String) :
    (ms.foldl (fun s m => s.addAll m.types) s).find? name =
      (s.find? name).or (ms.findSome? fun m => m.find? name) := by
  induction ms generalizing s with
  | nil => simp
  | cons m ms ih =>
    rw [List.foldl_cons, ih, find?_addAll, Option.or_assoc, List.findSome?_cons]
    change (s.find? name).or ((m.find? name).or _) = _
    cases m.find? name <;> rfl

end TypeScope

/-- Of modules in the order of their names, the first that has a type of some name gives it. -/
theorem Module.findSome?_of_least {ms : List Module}
    (sorted : ms.Pairwise fun m n => m.name < n.name) {m : Module} (hm : m ∈ ms) {name : String}
    {d : Definition} (found : m.find? name = some d)
    (least : ∀ n ∈ ms, (n.find? name).isSome → m.name ≤ n.name) :
    (ms.findSome? fun m => m.find? name) = some d := by
  induction ms with
  | nil => cases hm
  | cons k ms ih =>
    obtain ⟨below, rest⟩ := List.pairwise_cons.mp sorted
    rcases List.mem_cons.mp hm with rfl | hm
    · rw [List.findSome?_cons, found]
    · have missing : k.find? name = none := by
        rw [← Option.not_isSome_iff_eq_none]
        exact fun has => (least k (List.mem_cons_self ..) has).not_gt (below m hm)
      rw [List.findSome?_cons, missing]
      exact ih rest hm fun n hn => least n (List.mem_cons_of_mem k hn)

namespace Program

/-- The time of a compilation affects only the header of its script. -/
theorem compile_at (options : CompileOptions) (catalog : Catalog) (time later : Int64)
    (p : Program) :
    p.compile options catalog later =
      { p.compile options catalog time with
        script := (p.compile options catalog time).script.map fun s =>
          { s with header := { s.header with compiledAt := later } } } := by
  unfold compile
  split
  · rfl
  · next env issues _ =>
    dsimp only
    rw [link_time env _ p later time]
    split
    · rfl
    · split
      · rfl
      · split
        · rfl
        · cases p.link env (Typing.ofProgram env p).notes time with
          | ok script => rfl
          | error e => cases e <;> rfl

/-- Modules with distinct names can be registered in any order, after any other modules, and a
catalog can keep its modules in any order. A compilation then has the same issues and the same
panic, and gives the same script except for its time. Of the automatic modules that have a type of
some name, every program sees the type of the one whose name comes first. -/
theorem compile_registration_order (base ms ns : List Module)
    (distinct : (ms.map Module.name).Nodup) (perm : ms.Perm ns) (c d : Catalog)
    (hc : c.modules.Perm (Catalog.ofModules (base ++ ms)).modules)
    (hd : d.modules.Perm (Catalog.ofModules (base ++ ns)).modules) (options : CompileOptions)
    (time later : Int64) (p : Program) :
    (p.compile options d later).issues = (p.compile options c time).issues ∧
    (p.compile options d later).panic = (p.compile options c time).panic ∧
    (p.compile options d later).script = (p.compile options c time).script.map (fun s =>
      { s with header := { s.header with compiledAt := later } }) ∧
    (∀ m ∈ ms, c.find? m.name = some m) ∧
    ∀ env ∈ (Environment.ofProgram d true p).1, ∀ m name t, c.find? m.name = some m →
      m.automatic → m.find? name = some t →
      (∀ n, c.find? n.name = some n → n.automatic → (n.find? name).isSome → m.name ≤ n.name) →
        env.types.find? name = some t := by
  have registered (ks : List Module) (hk : (ks.map Module.name).Nodup) (name : String) :
      (Catalog.ofModules (base ++ ks)).find? name =
        (ks.find? fun k => k.name == name).or ((Catalog.ofModules base).find? name) := by
    rw [Catalog.ofModules, List.foldl_append]
    exact Catalog.find?_foldl_register hk _ name
  have same : d.modules.Perm c.modules := by
    refine hd.trans (.trans (Catalog.perm_of_find? fun name => ?_) hc.symm)
    rw [registered ms distinct, registered ns ((perm.map _).nodup_iff.mp distinct),
      Module.find?_eq_of_perm distinct perm]
  have compiled : p.compile options d later = p.compile options c later := by
    simp only [compile, Catalog.ofProgram_eq_of_perm same]
  rw [compiled, compile_at options c time later p, Catalog.ofProgram_eq_of_perm same]
  refine ⟨rfl, rfl, rfl, fun m hm => ?_, fun env henv m name t hm automatic found least => ?_⟩
  · rw [← Catalog.mem_modules_iff, hc.mem_iff, Catalog.mem_modules_iff, registered ms distinct,
      (Module.find?_eq_some_iff distinct).mpr ⟨hm, rfl⟩]
    rfl
  · have mem : m ∈ c.automatic :=
      Catalog.mem_automatic.mpr ⟨Catalog.mem_modules_iff.mpr hm, automatic⟩
    have first : (c.automatic.findSome? fun m => m.find? name) = some t := by
      refine Module.findSome?_of_least c.sorted_automatic mem found fun n hn => ?_
      obtain ⟨hn, automatic⟩ := Catalog.mem_automatic.mp hn
      exact least n (Catalog.mem_modules_iff.mp hn) automatic
    rcases he : Environment.ofProgram c true p with ⟨e, issues⟩
    rw [he] at henv
    obtain rfl : e = some env := henv
    obtain ⟨-, -, -, grows⟩ := Environment.grows_ofProgram he
    refine (grows rfl).find? ?_
    rw [TypeScope.find?_modules, first]
    rfl

def naming (name : String) (p : Primitive) : Module :=
  ⟨name, true, [{ Definition.ofPrimitive name p with name := "Id" }]⟩

def identified : Program :=
  ⟨none, [], [], [.declare ⟨1, 1⟩ "x" (some ⟨"Id", [], ⟨1, 1⟩⟩) none]⟩

theorem identified_registration_order :
    let c := Catalog.ofModules [.core, naming "beta" .i64, naming "alpha" .i32]
    let d := Catalog.ofModules [.core, naming "alpha" .i32, naming "beta" .i64]
    c.modules.map Module.name = ["core", "beta", "alpha"] ∧
    d.modules.map Module.name = ["core", "alpha", "beta"] ∧
    (identified.compile .default c 1).script.isSome ∧
    (identified.compile .default d 2).script =
      (identified.compile .default c 1).script.map (fun s =>
        { s with header := { s.header with compiledAt := 2 } }) ∧
    ∀ env ∈ (Environment.ofProgram d true identified).1,
      (env.types.find? "Id").map (·.size) = some 4 := by
  intro c d
  obtain ⟨-, -, script, registered, visible⟩ :=
    compile_registration_order [.core] [naming "beta" .i64, naming "alpha" .i32]
      [naming "alpha" .i32, naming "beta" .i64] (by decide) (.swap ..) c d (.refl _) (.refl _)
      .default 1 2 identified
  refine ⟨by decide, by decide, by decide +kernel, script, fun env henv => ?_⟩
  have found := visible env henv (naming "alpha" .i32) "Id" _ (registered _ (by simp)) rfl rfl ?_
  · rw [found]
    rfl
  · intro n hn _ _
    have listed : c.modules = [.core, naming "beta" .i64, naming "alpha" .i32] := rfl
    have member : n ∈ c.modules := Catalog.mem_modules_iff.mpr hn
    simp only [listed, List.mem_cons, List.not_mem_nil, or_false] at member
    rcases member with rfl | rfl | rfl <;> decide

end Program

end Bytescript
