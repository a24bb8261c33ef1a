import StyleFlags.Proofs.Branches
import StyleFlags.Proofs.WellFormed

/-!
# Properties that occur

A directive asks for the facts of its normal forms, and a registry knows the
properties that its facts read. Pushing negations and distributing repeat leaves
and drop repeated ones, but lose no property and make none up. So the properties
of a registry are those that occur in the tests of its directives.

Results:
1. `Condition.occurrences_nnf`, `Condition.gathers_occurrences`: the normal forms keep the
   properties that occur.
2. `Condition.mem_occurrences_iff`: these are the properties that the facts of the
   condition read.
3. `Directive.mem_occurrences_iff`: the facts that a directive needs read exactly the
   properties that occur in its test.
4. `Registry.mem_properties_ofSources`: the properties of a registry that was filled from
   sources are those that occur in the tests of the directives there.
-/

namespace StyleFlags

/-- Whether a fact reads a property: its own one, or the one that it is compared with. -/
def Fact.Reads (f : Fact) (name : String) : Prop := name = f.property ∨ f.dependency? = some name

/-! ## Occurrences in normal forms -/

namespace Condition

variable {v : Vocabulary} {c : Condition} {name : String}

@[simp] theorem occurrences_negate (c : Condition) : c.negate.occurrences = c.occurrences := by
  cases c <;> rfl

theorem gathers_occurrences : Gathers occurrences := fun _ _ _ _ => rfl

/-- Pushing negations down keeps every leaf in its place. -/
theorem occurrences_nnf (shaped : c.Shaped v) : c.nnf.occurrences = c.occurrences := by
  refine shaped.nnf_induct (motive := fun c d => d.occurrences = c.occurrences) ?_ ?_ ?_ ?_ ?_ ?_
  · intro negated name _
    rfl
  · intro l _
    rfl
  · intro op left right _ onLeft onRight
    rw [occurrences, onLeft, onRight, occurrences_negate, occurrences_negate, occurrences]
  · intro op left right _ onLeft onRight
    rw [occurrences, onLeft, onRight, occurrences]
  · intro op name operand _ _
    rfl
  · intro op name operand _ _
    rfl

/-- The properties that occur are those that the facts read. -/
theorem mem_occurrences_iff (shaped : c.Shaped v) :
    name ∈ c.occurrences ↔ ∃ f ∈ c.facts, f.Reads name := by
  induction c with
  | property negated property =>
    simp [occurrences, facts, Fact.ofCondition?, Fact.Reads, Fact.dependency?]
  | literal negated l => simp [occurrences, facts, Fact.ofCondition?]
  | binary negated op left right ihl ihr =>
    cases op with
    | junction op =>
      obtain ⟨_, _, hl, hr⟩ := shaped
      rw [gathers_occurrences.mem_junction, ihl hl, ihr hr, facts]
      simp only [List.mem_append, or_and_right, exists_or]
    | compare op =>
      obtain ⟨⟨property, rfl, _⟩, operand⟩ := shaped
      cases right with
      | property flipped other =>
        simp [occurrences, facts, Fact.ofCondition?, Operand.ofCondition?, property?, Fact.Reads,
          Fact.dependency?, Operand.property?, eq_comm]
      | literal negated l =>
        simp [occurrences, facts, Fact.ofCondition?, Operand.ofCondition?, property?, Fact.Reads,
          Fact.dependency?, Operand.property?]
      | binary flipped found left right => exact operand.elim

/-- The facts of the disjunctive normal form read the same properties. -/
theorem mem_occurrences_iff_dnf {perfect : Bool} (shaped : c.Shaped v) :
    name ∈ c.occurrences ↔ ∃ f ∈ (c.dnf perfect).facts, f.Reads name := by
  rw [dnf, ← mem_occurrences_iff shaped.nnf.distribute,
    gathers_occurrences.mem_distribute shaped.nnf, occurrences_nnf shaped]

end Condition

/-! ## What directives need -/

namespace Directive

variable {v : Condition.Vocabulary} {d : Directive} {name : String}

theorem fact_mem_branchNeeds_iff {options : Options} {stem : String} {c : Condition} {f : Fact} :
    .fact f ∈ d.branchNeeds options stem c ↔ f ∈ c.facts :=
  ⟨fact_mem_branchNeeds, fun member => List.mem_append_left _ (List.mem_map_of_mem member)⟩

theorem constant?_of_mem_needs {options : Options} {need : Need} (needed : need ∈ d.needs options) :
    d.test.constant? = none := by
  unfold needs at needed
  split at needed
  · cases needed
  · next isOpen => simpa using isOpen

/-- The facts that a directive needs read the properties that occur in its test, if the test is no
constant. -/
theorem mem_occurrences_iff (options : Options) (shaped : d.test.Shaped v) :
    (∃ f, .fact f ∈ d.needs options ∧ f.Reads name) ↔
      d.test.constant? = none ∧ name ∈ d.test.occurrences := by
  have normal : d.normal.Shaped v := shaped.nnf
  have same : d.normal.occurrences = d.test.occurrences := Condition.occurrences_nnf shaped
  have positive : name ∈ d.test.occurrences ↔ ∃ f ∈ d.positive.facts, f.Reads name := by
    rw [← same]
    exact Condition.mem_occurrences_iff_dnf normal
  have negative : name ∈ d.test.occurrences ↔ ∃ f ∈ d.negative.facts, f.Reads name := by
    rw [← same, ← Condition.occurrences_negate, ← Condition.occurrences_nnf normal.negate]
    exact Condition.mem_occurrences_iff_dnf normal.negate.nnf
  constructor
  · rintro ⟨f, needed, reads⟩
    refine ⟨constant?_of_mem_needs needed, ?_⟩
    rcases mem_needs needed with first | second
    · exact positive.mpr ⟨f, fact_mem_branchNeeds first, reads⟩
    · exact negative.mpr ⟨f, fact_mem_branchNeeds second, reads⟩
  · rintro ⟨isOpen, occurs⟩
    obtain ⟨f, member, reads⟩ := positive.mp occurs
    refine ⟨f, ?_, reads⟩
    rw [needs_of_open options isOpen]
    exact List.mem_append_left _ (fact_mem_branchNeeds_iff.mpr member)

/-- The directives of some sources, nested ones included. -/
def recorded (sources : List String) : List Directive :=
  sources.flatMap fun source => (expand source).directives

theorem proper_of_mem_recorded {sources : List String} (listed : d ∈ recorded sources) :
    d.Proper := by
  obtain ⟨source, _, member⟩ := List.mem_flatMap.mp listed
  exact tests_shaped source d member

end Directive

/-! ## What registries hold -/

namespace Registry

variable {r : Registry} {needs : List Need} {sources : List String}

theorem options_foldl_addNeed (r : Registry) (needs : List Need) :
    (needs.foldl addNeed r).options = r.options :=
  List.foldlRecOn (motive := fun grown : Registry => grown.options = r.options) _ _ rfl
    fun _ same need _ => by cases need <;> exact same

theorem foldl_addDirective (r : Registry) (directives : List Directive) :
    directives.foldl addDirective r =
      (directives.flatMap (·.needs r.options)).foldl addNeed r := by
  induction directives generalizing r with
  | nil => rfl
  | cons d rest ih =>
    rw [List.foldl_cons, ih, List.flatMap_cons, List.foldl_append, addDirective,
      options_foldl_addNeed]

/-- A registry of sources holds what their directives need, one after the other. -/
theorem ofSources_eq (name : String) (options : Options) (sources : List String) :
    ofSources name options sources =
      ofNeeds name options ((Directive.recorded sources).flatMap (·.needs options)) := by
  have filled (r : Registry) (same : r.options = options) :
      sources.foldl (fun r source => (r.expand source).2) r =
        ((Directive.recorded sources).flatMap (·.needs options)).foldl addNeed r := by
    induction sources generalizing r with
    | nil => rfl
    | cons source rest ih =>
      have grown : (r.expand source).2 =
          ((Directive.expand source).directives.flatMap (·.needs options)).foldl addNeed r := by
        rw [← same]
        exact foldl_addDirective r _
      have listed : Directive.recorded (source :: rest) =
          (Directive.expand source).directives ++ Directive.recorded rest := List.flatMap_cons
      rw [List.foldl_cons, ih _ (by rw [grown, options_foldl_addNeed, same]), grown, listed,
        List.flatMap_append, List.foldl_append]
  exact filled _ rfl

theorem mem_facts_foldl {f : Fact} :
    f ∈ (needs.foldl addNeed r).facts ↔ .fact f ∈ needs ∨ f ∈ r.facts := by
  induction needs generalizing r with
  | nil => simp
  | cons need rest ih =>
    rw [List.foldl_cons, ih, List.mem_cons]
    cases need with
    | fact g =>
      rw [addNeed, mem_facts_addFact, Need.fact.injEq]
      exact or_left_comm.trans or_assoc.symm
    | prepared found value =>
      have other : Need.fact f ≠ .prepared found value := Need.noConfusion
      rw [or_iff_right other]
      rfl

theorem mem_properties_foldl {name : String} :
    name ∈ (needs.foldl addNeed r).properties.toList ↔
      (∃ f, .fact f ∈ needs ∧ f.Reads name) ∨ name ∈ r.properties.toList := by
  induction needs generalizing r with
  | nil => simp
  | cons need rest ih =>
    rw [List.foldl_cons, ih]
    cases need with
    | fact g =>
      rw [addNeed, mem_properties_addFact]
      constructor
      · rintro (⟨f, needed, reads⟩ | own | dependency | known)
        · exact .inl ⟨f, List.mem_cons_of_mem _ needed, reads⟩
        · exact .inl ⟨g, List.mem_cons_self, .inl own⟩
        · exact .inl ⟨g, List.mem_cons_self, .inr dependency⟩
        · exact .inr known
      · rintro (⟨f, needed, reads⟩ | known)
        · rcases List.mem_cons.mp needed with same | later
          · cases same
            exact .inr (or_assoc.mp (.inl reads))
          · exact .inl ⟨f, later, reads⟩
        · exact .inr (.inr (.inr known))
    | prepared found value => simp [addNeed, addPrepared]

/-- What is prepared was needed. -/
theorem mem_prepared_foldl {e : String × String}
    (listed : e ∈ (needs.foldl addNeed r).prepared.entries) :
    .prepared e.1 e.2 ∈ needs ∨ e ∈ r.prepared.entries := by
  induction needs generalizing r with
  | nil => exact .inr listed
  | cons need rest ih =>
    rcases ih listed with later | before
    · exact .inl (List.mem_cons_of_mem _ later)
    · cases need with
      | fact f => exact .inr before
      | prepared name value =>
        -- What was prepared under this name before is gone.
        rcases Table.mem_insert.mp before with rfl | ⟨before, _⟩
        · exact .inl List.mem_cons_self
        · exact .inr before

/-- A name that is needed with a prepared value has one in the end, though it may be another one. -/
theorem exists_mem_prepared_foldl {name : String}
    (needed : (∃ value, .prepared name value ∈ needs) ∨
      ∃ value, (name, value) ∈ r.prepared.entries) :
    ∃ value, (name, value) ∈ (needs.foldl addNeed r).prepared.entries := by
  induction needs generalizing r with
  | nil => simpa using needed
  | cons need rest ih =>
    refine ih ?_
    rcases needed with ⟨value, needed⟩ | ⟨value, known⟩
    · rcases List.mem_cons.mp needed with rfl | later
      · exact .inr ⟨value, Table.mem_insert.mpr (.inl rfl)⟩
      · exact .inl ⟨value, later⟩
    · cases need with
      | fact f => exact .inr ⟨value, known⟩
      | prepared found other =>
        by_cases same : name = found
        · exact .inr ⟨other, Table.mem_insert.mpr (.inl (by rw [same]))⟩
        · exact .inr ⟨value, Table.mem_insert.mpr (.inr ⟨known, same⟩)⟩

/-! ## Registries of sources -/

variable {title : String} {options : Options}

theorem mem_facts_ofSources {f : Fact} :
    f ∈ (ofSources title options sources).facts ↔
      ∃ d ∈ Directive.recorded sources, .fact f ∈ d.needs options := by
  rw [ofSources_eq, ofNeeds, mem_facts_foldl, List.mem_flatMap]
  exact or_iff_left (by simp [facts, Table.empty])

/-- The properties of a registry are those that occur in the tests that are no constants. -/
theorem mem_properties_ofSources {name : String} :
    name ∈ (ofSources title options sources).properties.toList ↔
      ∃ d ∈ Directive.recorded sources, d.test.constant? = none ∧ name ∈ d.test.occurrences := by
  have nothing : name ∉ (SortedSet.empty : NameSet).toList := List.not_mem_nil
  rw [ofSources_eq, ofNeeds, mem_properties_foldl, or_iff_left nothing]
  constructor
  · rintro ⟨f, needed, reads⟩
    obtain ⟨d, listed, needed⟩ := List.mem_flatMap.mp needed
    exact ⟨d, listed, (Directive.mem_occurrences_iff options
      (Directive.proper_of_mem_recorded listed)).mp ⟨f, needed, reads⟩⟩
  · rintro ⟨d, listed, occurs⟩
    obtain ⟨f, needed, reads⟩ := (Directive.mem_occurrences_iff options
      (Directive.proper_of_mem_recorded listed)).mpr occurs
    exact ⟨f, List.mem_flatMap.mpr ⟨d, listed, needed⟩, reads⟩

theorem mem_prepared_ofSources {e : String × String}
    (listed : e ∈ (ofSources title options sources).prepared.entries) :
    ∃ d ∈ Directive.recorded sources, .prepared e.1 e.2 ∈ d.needs options := by
  rw [ofSources_eq] at listed
  exact List.mem_flatMap.mp ((mem_prepared_foldl listed).resolve_right List.not_mem_nil)

theorem exists_mem_prepared_ofSources (title : String) {d : Directive} {name value : String}
    (listed : d ∈ Directive.recorded sources) (needed : .prepared name value ∈ d.needs options) :
    ∃ final, (name, final) ∈ (ofSources title options sources).prepared.entries := by
  rw [ofSources_eq]
  exact exists_mem_prepared_foldl (.inl ⟨value, List.mem_flatMap.mpr ⟨d, listed, needed⟩⟩)

end Registry

end StyleFlags
