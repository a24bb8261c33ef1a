import StyleFlags.Proofs.Names
import StyleFlags.Proofs.Table
import StyleFlags.Registry

/-!
# What a registry holds

A registry that was filled from sources holds facts that a source can ask for,
and prepared values that fit into a declaration.

Results:
1. `Registry.mem_facts_addFact`: a registry holds the facts that were added.
2. `Registry.sound_ofSources`: the facts of a registry that was filled from
   sources are proper, and its prepared values hold no separator.
-/

namespace StyleFlags

/-! ## Prepared values -/

/-- Options whose values of flags fit into a declaration. -/
structure Options.Readable (options : Options) : Prop where
  on : Spelled options.on.toList
  off : Spelled options.off.toList

theorem Options.readable_default : ({} : Options).Readable where
  on := .of_all (forall_of_all (by decide))
  off := .of_all (forall_of_all (by decide))

namespace Guard

/-- A guard whose names hold no separator. -/
def Named : Guard → Prop
  | on => True
  | off => True
  | flag name => Spelled name.toList
  | gated name inner => Spelled name.toList ∧ inner.Named
  | either left right => left.Named ∧ right.Named

theorem named_ofCondition (c : Condition) {tail : Option Guard}
    (named : ∀ g ∈ tail, g.Named) : (ofCondition tail c).Named := by
  fun_induction ofCondition tail c with
  | case1 tail left right ihl ihr => exact ⟨ihl named, ihr named⟩
  | case2 tail left right ihr ihl =>
    refine ihl fun g same => ?_
    cases same
    exact ihr named
  | case3 tail negated l truthy =>
    cases tail with
    | none => trivial
    | some inner => exact named inner rfl
  | case4 => trivial
  | case5 c _ _ _ inner => exact ⟨c.spelled_name, named inner rfl⟩
  | case6 c => exact c.spelled_name

theorem spelled_reference {name : String} (spelled : Spelled name.toList) :
    Spelled (reference name).toList := by
  have before : Spelled "var(--".toList := .of_all (forall_of_all (by decide))
  have after : Spelled ")".toList := .of_all (forall_of_all (by decide))
  simpa [reference] using (before.append spelled).append after

theorem spelled_referenceOr {name fallback : String} (spelled : Spelled name.toList)
    (other : Spelled fallback.toList) : Spelled (referenceOr name fallback).toList := by
  have before : Spelled "var(--".toList := .of_all (forall_of_all (by decide))
  have between : Spelled ",".toList := .of_all (forall_of_all (by decide))
  have after : Spelled ")".toList := .of_all (forall_of_all (by decide))
  simpa [referenceOr] using (((before.append spelled).append between).append other).append after

theorem spelled_text {options : Options} (readable : options.Readable) {g : Guard}
    (named : g.Named) : Spelled (g.text options).toList := by
  induction g with
  | on => exact readable.on
  | off => exact readable.off
  | flag name => exact spelled_reference named
  | gated name inner ih => exact spelled_referenceOr named.1 (ih named.2)
  | either left right ihl ihr =>
    have blank : Spelled " ".toList := .of_all (forall_of_all (by decide))
    simpa [text] using ((ihl named.1).append blank).append (ihr named.2)

end Guard

theorem Directive.spelled_prepared {d : Directive} {options : Options} {name value : String}
    (needed : .prepared name value ∈ d.needs options) :
    Spelled name.toList ∧ (options.Readable → Spelled value.toList) := by
  have branch {stem : String} {c : Condition} (spelled : Spelled stem.toList)
      (needed : .prepared name value ∈ d.branchNeeds options stem c) :
      Spelled name.toList ∧ (options.Readable → Spelled value.toList) := by
    obtain ⟨rfl, rfl⟩ := prepared_mem_branchNeeds needed
    refine ⟨?_, fun readable => Guard.spelled_text readable (Guard.named_ofCondition c (by simp))⟩
    rw [String.toList_append]
    exact spelled.append d.normal.spelled_name
  rcases mem_needs needed with first | second
  · exact branch (.of_all (forall_of_all (by decide))) first
  · exact branch (.of_all (forall_of_all (by decide))) second

/-! ## Registries -/

namespace Registry

theorem mem_facts {r : Registry} {f : Fact} :
    f ∈ r.facts ↔ ∃ tests, r.tests.get? f.property = some tests ∧ f.test ∈ tests.toList := by
  simp only [facts, List.mem_flatMap, List.mem_map]
  constructor
  · rintro ⟨⟨property, tests⟩, listed, test, member, rfl⟩
    exact ⟨tests, Table.get?_eq_some_iff.mpr listed, member⟩
  · rintro ⟨tests, found, member⟩
    exact ⟨(f.property, tests), Table.get?_eq_some_iff.mp found, f.test, member, rfl⟩

theorem mem_facts_addFact {r : Registry} {f g : Fact} :
    g ∈ (r.addFact f).facts ↔ g = f ∨ g ∈ r.facts := by
  obtain ⟨property, test⟩ := f
  obtain ⟨other, test'⟩ := g
  simp only [mem_facts, addFact, Table.get?_insert, Fact.mk.injEq]
  by_cases same : other = property
  · subst same
    cases r.tests.get? other <;> simp [SortedSet.empty]
  · simp [same]

/-- A registry whose facts a source can ask for, with prepared values that fit into declarations
where the values of flags do. -/
structure Sound (options : Options) (r : Registry) : Prop where
  written : r.options = options
  proper : ∀ f ∈ r.facts, f.Proper
  names : ∀ e ∈ r.prepared.entries, Spelled e.1.toList
  values : options.Readable → ∀ e ∈ r.prepared.entries, Spelled e.2.toList

section Filling

variable {options : Options} {r : Registry}

theorem Sound.addFact (sound : r.Sound options) {f : Fact} (proper : f.Proper) :
    (r.addFact f).Sound options where
  written := sound.written
  proper g member := by
    rcases mem_facts_addFact.mp member with rfl | member
    · exact proper
    · exact sound.proper g member
  names := sound.names
  values := sound.values

theorem Sound.addPrepared (sound : r.Sound options) {name value : String}
    (spelledName : Spelled name.toList) (spelledValue : options.Readable → Spelled value.toList) :
    (r.addPrepared name value).Sound options where
  written := sound.written
  proper := sound.proper
  names e member := by
    rcases Table.mem_insert.mp member with rfl | ⟨member, _⟩
    · exact spelledName
    · exact sound.names e member
  values readable e member := by
    rcases Table.mem_insert.mp member with rfl | ⟨member, _⟩
    · exact spelledValue readable
    · exact sound.values readable e member

theorem Sound.addDirective (sound : r.Sound options) {d : Directive} (proper : d.Proper) :
    (r.addDirective d).Sound options := by
  refine List.foldlRecOn _ _ sound fun grown soundSoFar need needed => ?_
  rw [sound.written] at needed
  cases need with
  | fact f => exact soundSoFar.addFact (proper.facts needed)
  | prepared name value =>
    obtain ⟨spelledName, spelledValue⟩ := Directive.spelled_prepared needed
    exact soundSoFar.addPrepared spelledName spelledValue

theorem Sound.expand (sound : r.Sound options) (source : String) :
    (r.expand source).2.Sound options :=
  List.foldlRecOn _ _ sound fun _ sound d listed =>
    sound.addDirective (Directive.tests_shaped source d listed)

end Filling

/-- The registry of some sources, read one after the other. -/
def ofSources (name : String) (options : Options) (sources : List String) : Registry :=
  sources.foldl (fun r source => (r.expand source).2) ⟨name, options, .empty, .empty, .empty⟩

theorem sound_ofSources (name : String) (options : Options) (sources : List String) :
    (ofSources name options sources).Sound options := by
  refine List.foldlRecOn _ _ ?_ fun _ sound source _ => sound.expand source
  exact ⟨rfl, by simp [facts, Table.empty], by simp [Table.empty], by simp [Table.empty]⟩

end Registry

end StyleFlags
