import Mathlib.Data.List.Perm.Basic
import StyleFlags.Proofs.Arrival

/-!
# Flags and the rules that own them

Facts of equality come in families: one rule sets the flag of `==` and that of `!=`.
Every other fact has a rule of its own. A sheet files each rule under the property
of its facts, with the dependent rules if the facts read another property. However
the facts came, each family is filed once.

Results:
1. `Rule.ofTests_eq`: the rules of a property are those of its families, in the order
   in which they are first met.
2. `Sheet.filings_ofRegistry_perm`: a sheet files one rule for every family.
3. `Sheet.map_name_baseDefaults`: the base block declares the flags of the filed rules.
4. `Sheet.every_flag_owned_once`: facts that were added in any order and any number of
   times are filed once. If they came from sources, the base block declares no name
   twice, and each flag with the state that its fact has on the empty bag.
-/

namespace StyleFlags

/-! ## Families -/

namespace Fact

/-- The fact that stands for its family: of the two facts of an equality, the one with `==`. -/
def leader (f : Fact) : Fact :=
  match Rule.equalityOperand? f.test with
  | some operand => ⟨f.property, .compare .eq operand⟩
  | none => f

variable {f g : Fact}

theorem leader_of_equality {operand : Operand}
    (equality : Rule.equalityOperand? f.test = some operand) :
    f.leader = ⟨f.property, .compare .eq operand⟩ := by
  rw [leader, equality]

theorem leader_of_single (single : Rule.equalityOperand? f.test = none) : f.leader = f := by
  rw [leader, single]

theorem equalityOperand?_leader (f : Fact) :
    Rule.equalityOperand? f.leader.test = Rule.equalityOperand? f.test := by
  cases equality : Rule.equalityOperand? f.test with
  | none => rw [leader_of_single equality, equality]
  | some operand =>
    rw [leader_of_equality equality]
    rfl

theorem family_of_equality {operand : Operand}
    (equality : Rule.equalityOperand? f.test = some operand) :
    f.family = [⟨f.property, .compare .eq operand⟩, ⟨f.property, .compare .ne operand⟩] := by
  obtain ⟨property, test⟩ := f
  cases test with
  | truthy negated => cases equality
  | compare op other =>
    simp only [Rule.equalityOperand?] at equality
    split at equality
    · next isEquality =>
      cases equality
      simp [family, isEquality]
    · cases equality

theorem family_of_single (single : Rule.equalityOperand? f.test = none) : f.family = [f] := by
  obtain ⟨property, test⟩ := f
  cases test with
  | truthy negated => rfl
  | compare op operand =>
    simp only [Rule.equalityOperand?] at single
    split at single
    · cases single
    · next order => simp [family, order]

theorem leader_mem_family (f : Fact) : f.leader ∈ f.family := by
  cases equality : Rule.equalityOperand? f.test with
  | none =>
    rw [leader_of_single equality]
    exact f.self_mem_family
  | some operand =>
    rw [leader_of_equality equality, family_of_equality equality]
    exact List.mem_cons_self

theorem leader_of_mem_family (member : g ∈ f.family) : g.leader = f.leader := by
  cases equality : Rule.equalityOperand? f.test with
  | none =>
    rw [family_of_single equality] at member
    rw [List.mem_singleton.mp member]
  | some operand =>
    rw [family_of_equality equality] at member
    rw [leader_of_equality equality]
    rcases List.mem_cons.mp member with rfl | member
    · rfl
    · rw [List.mem_singleton.mp member]
      rfl

theorem family_leader (f : Fact) : f.leader.family = f.family := by
  cases equality : Rule.equalityOperand? f.test with
  | none => rw [leader_of_single equality]
  | some operand =>
    rw [leader_of_equality equality, family_of_equality equality]
    exact family_of_equality rfl

theorem nodup_family (f : Fact) : f.family.Nodup := by
  cases equality : Rule.equalityOperand? f.test with
  | none => simp [family_of_single equality]
  | some operand => simp [family_of_equality equality]

end Fact

namespace Rule

theorem flags_ofFact (f : Fact) : (ofFact f).flags = f.family.map Fact.name := by
  obtain ⟨property, test⟩ := f
  cases test with
  | truthy negated => cases negated <;> rfl
  | compare op operand =>
    simp only [ofFact, ofTest, Fact.family]
    split
    · unfold ofEquality
      cases operand.typeName? <;> rfl
    · rfl

/-- The facts that stand for the families of some tests. -/
def leaders (property : String) (tests : List Test) : List Fact :=
  tests.map fun test => Fact.leader ⟨property, test⟩

/-- Whether a fact is not one of equality with an operand that was met before. -/
def isNew (seen : List Operand) (f : Fact) : Bool :=
  (equalityOperand? f.test).all fun operand => !seen.contains operand

theorem isNew_cons {property : String} (test : Test) (operand : Operand) (seen : List Operand) :
    isNew (operand :: seen) (Fact.leader ⟨property, test⟩) =
      (!(Fact.leader ⟨property, test⟩ == ⟨property, .compare .eq operand⟩) &&
        isNew seen (Fact.leader ⟨property, test⟩)) := by
  cases found : equalityOperand? test with
  | none =>
    have other : (⟨property, test⟩ : Fact) ≠ ⟨property, .compare .eq operand⟩ := by
      rintro ⟨⟩
      cases found
    rw [Fact.leader_of_single found, beq_false_of_ne other]
    simp [isNew, found]
  | some met =>
    rw [Fact.leader_of_equality found]
    by_cases same : met = operand
    · simp [isNew, equalityOperand?, Comparison.isEquality, same]
    · simp [isNew, equalityOperand?, Comparison.isEquality, same]

/-- A test that is not one of equality shares its rule with no other test. -/
theorem filter_leaders_of_single {property : String} {test : Test} {rest : List Test}
    (single : equalityOperand? test = none) (unlike : test ∉ rest) (seen : List Operand) :
    ((leaders property rest).filter (isNew seen)).filter
        (fun f => !f == Fact.leader ⟨property, test⟩) =
      (leaders property rest).filter (isNew seen) := by
  refine List.filter_eq_self.mpr fun f member => ?_
  obtain ⟨later, inRest, rfl⟩ := List.mem_map.mp (List.mem_filter.mp member).1
  rw [Bool.not_eq_true', beq_eq_false_iff_ne]
  intro same
  have laterSingle : equalityOperand? later = none := by
    rw [← Fact.equalityOperand?_leader ⟨property, later⟩, same, Fact.equalityOperand?_leader]
    exact single
  rw [Fact.leader_of_single (f := ⟨property, later⟩) laterSingle,
    Fact.leader_of_single single] at same
  cases same
  exact unlike inRest

/-- Distinct tests have one rule for each family, where the family is met first. -/
theorem ofTests_eq {property : String} {seen : List Operand} {tests : List Test}
    (distinct : tests.Nodup) :
    ofTests property seen tests =
      (((leaders property tests).filter (isNew seen)).eraseDups).map ofFact := by
  induction tests generalizing seen with
  | nil => rfl
  | cons test rest ih =>
    obtain ⟨unlike, distinct⟩ := List.nodup_cons.mp distinct
    have sameRule : ofTest property test = ofFact (Fact.leader ⟨property, test⟩) :=
      (ofFact_of_mem_family (Fact.leader_mem_family ⟨property, test⟩)).symm
    have first : leaders property (test :: rest) =
        Fact.leader ⟨property, test⟩ :: leaders property rest := rfl
    have new : isNew seen (Fact.leader ⟨property, test⟩) =
        (equalityOperand? test).all fun operand => !seen.contains operand := by
      rw [isNew, Fact.equalityOperand?_leader]
    rw [ofTests, first, List.filter_cons, new]
    cases equality : equalityOperand? test with
    | none =>
      simp only [Option.all_none, if_true]
      rw [List.eraseDups_cons, filter_leaders_of_single equality unlike, List.map_cons, ih distinct,
        sameRule]
    | some operand =>
      simp only [Option.all_some]
      by_cases known : seen.contains operand = true
      · -- The other fact of the family has the rule already.
        rw [if_pos known, if_neg (by simpa using known), ih distinct]
      · have later : ((leaders property rest).filter (isNew seen)).filter
            (fun f => !f == Fact.leader ⟨property, test⟩) =
            (leaders property rest).filter (isNew (operand :: seen)) := by
          rw [List.filter_filter, Fact.leader_of_equality equality]
          refine List.filter_congr fun f member => ?_
          obtain ⟨other, _, rfl⟩ := List.mem_map.mp member
          exact (isNew_cons other operand seen).symm
        rw [if_neg known, if_pos (by simpa using known), List.eraseDups_cons, later, List.map_cons,
          ih distinct, sameRule]

theorem property_of_mem_leaders {property : String} {tests : List Test} {f : Fact}
    (member : f ∈ (leaders property tests).eraseDups) : f.property = property := by
  obtain ⟨test, _, rfl⟩ := List.mem_map.mp (List.mem_eraseDups.mp member)
  exact (Fact.mem_family (Fact.leader_mem_family _)).1

theorem ofTests_nil_eq {property : String} {tests : List Test} (distinct : tests.Nodup) :
    ofTests property [] tests = (leaders property tests).eraseDups.map ofFact := by
  have all : (leaders property tests).filter (isNew []) = leaders property tests := by
    refine List.filter_eq_self.mpr fun f _ => ?_
    cases found : equalityOperand? f.test <;> simp [isNew, found]
  rw [ofTests_eq distinct, all]

end Rule

/-! ## Filed rules -/

namespace Sheet

/-- A rule as a sheet files it: the property it is filed under, whether that is among the dependent
rules, and the flags that the rule sets. -/
structure Filing where
  property : String
  dependent : Bool
  flags : List String
deriving DecidableEq, Repr

def Filing.of (property : String) (dependent : Bool) (rule : Rule) : Filing :=
  ⟨property, dependent, rule.flags⟩

/-- The rules of a sheet as they are filed. -/
def filings (s : Sheet) : List Filing :=
  (s.rules.entries.flatMap fun (property, rules) => rules.map (Filing.of property false)) ++
    (s.dependents.entries.flatMap fun (property, d) => d.rules.map (Filing.of property true))

end Sheet

/-- Where the rule of a fact belongs: under the property of the fact, with the dependent rules if the
fact reads another property, and with the flags of its family. -/
def Fact.filing (f : Fact) : Sheet.Filing :=
  ⟨f.property, f.dependency?.isSome, f.family.map Fact.name⟩

theorem Table.flatMap_filterMap {β γ δ : Type} (t : Table β) (f : String → β → Option γ)
    (g : String × γ → List δ) :
    (t.filterMap f).entries.flatMap g =
      t.entries.flatMap fun e => ((f e.1 e.2).map fun image => g (e.1, image)).getD [] := by
  simp only [filterMap]
  induction t.entries with
  | nil => rfl
  | cons e rest ih =>
    cases found : f e.1 e.2 with
    | none => simp [found, ih]
    | some image => simp [found, ih]

theorem nodup_eraseDups {α : Type} [BEq α] [LawfulBEq α] (l : List α) : l.eraseDups.Nodup := by
  cases l with
  | nil => exact List.nodup_nil
  | cons a rest =>
    rw [List.eraseDups_cons, List.nodup_cons]
    exact ⟨by simp, nodup_eraseDups (rest.filter fun b => !b == a)⟩
termination_by l.length
decreasing_by exact Nat.lt_succ_of_le (List.length_filter_le ..)

namespace Registry

/-- The facts that stand for the families of a registry. -/
def leaders (r : Registry) : List Fact :=
  r.tests.entries.flatMap fun (property, tests) => (Rule.leaders property tests.toList).eraseDups

variable {r : Registry} {f : Fact}

theorem mem_leaders : f ∈ r.leaders ↔ ∃ g ∈ r.facts, f = g.leader := by
  simp only [leaders, Rule.leaders, facts, List.mem_flatMap, List.mem_eraseDups, List.mem_map]
  constructor
  · rintro ⟨⟨property, tests⟩, listed, test, member, rfl⟩
    exact ⟨_, ⟨_, listed, test, member, rfl⟩, rfl⟩
  · rintro ⟨_, ⟨⟨property, tests⟩, listed, test, member, rfl⟩, rfl⟩
    exact ⟨_, listed, test, member, rfl⟩

theorem nodup_leaders (r : Registry) : r.leaders.Nodup := by
  refine List.pairwise_flatMap.mpr ⟨fun _ _ => nodup_eraseDups _, ?_⟩
  refine r.tests.increasing.imp fun {a b} less f inFirst g inSecond same => ?_
  refine ne_of_compare_lt less ?_
  rw [← Rule.property_of_mem_leaders inFirst, same, Rule.property_of_mem_leaders inSecond]

end Registry

namespace Sheet

/-- The rules of one property are filed by whether they read another one. -/
theorem filed_perm (property : String) (tests : SortedSet Test) :
    ((independentRules property tests).map (Filing.of property false) ++
        (dependentRules property tests).map (Filing.of property true)).Perm
      ((Rule.leaders property tests.toList).eraseDups.map Fact.filing) := by
  let file (rule : Rule) : Filing := Filing.of property rule.dependency?.isSome rule
  have independent : (independentRules property tests).map (Filing.of property false) =
      (independentRules property tests).map file := by
    refine List.map_congr_left fun rule member => ?_
    have none := (List.mem_filter.mp member).2
    rw [Option.isNone_iff_eq_none] at none
    simp [file, none]
  have dependent : (dependentRules property tests).map (Filing.of property true) =
      (dependentRules property tests).map file := by
    refine List.map_congr_left fun rule member => ?_
    have some := (List.mem_filter.mp member).2
    simp only [file, some]
  have filed : (Rule.ofTests property [] tests.toList).map file =
      (Rule.leaders property tests.toList).eraseDups.map Fact.filing := by
    rw [Rule.ofTests_nil_eq tests.nodup_toList, List.map_map]
    refine List.map_congr_left fun f member => ?_
    simp only [Function.comp_apply, file, Filing.of, Fact.filing, Rule.dependency?_ofFact,
      Rule.flags_ofFact, Rule.property_of_mem_leaders member]
  rw [independent, dependent, ← List.map_append, ← filed]
  refine List.Perm.map file ?_
  have parted := List.filter_append_perm (fun rule => rule.dependency?.isNone)
    (Rule.ofTests property [] tests.toList)
  simpa [independentRules, dependentRules] using parted

/-- A sheet files one rule for every family. -/
theorem filings_ofRegistry_perm (r : Registry) :
    (ofRegistry r).filings.Perm (r.leaders.map Fact.filing) := by
  have rules : (ofRegistry r).filings =
      (r.tests.entries.flatMap fun e => (independentRules e.1 e.2).map (Filing.of e.1 false)) ++
        r.tests.entries.flatMap fun e => (dependentRules e.1 e.2).map (Filing.of e.1 true) := by
    -- A property without rules has no entry, and nothing to file.
    simp only [filings, ofRegistry, Table.flatMap_filterMap]
    congr 1
    · refine List.flatMap_congr fun e _ => ?_
      cases independentRules e.1 e.2 <;> rfl
    · refine List.flatMap_congr fun e _ => ?_
      cases dependentRules e.1 e.2 <;> rfl
  rw [rules, Registry.leaders, List.map_flatMap]
  exact (List.flatMap_append_perm _ _ _).trans
    (List.Perm.flatMap_left _ fun e _ => filed_perm e.1 e.2)

/-- Both facts of equality are met twice, and the rule is filed once; a fact that is met with its
negation has a rule of its own. -/
example : (ofRegistry (Registry.ofSources "scheme" {}
    ["if(n < 2, x) if(a != b, x, y)", "if(a == b, x) if(!a, x, y)"])).filings =
    [⟨"a", false, ["a"]⟩, ⟨"a", false, ["¬a"]⟩, ⟨"n", false, ["n⋖2"]⟩,
      ⟨"a", true, ["a≡b", "a≠b"]⟩] := by
  decide +kernel

end Sheet

/-! ## Names in the base block -/

theorem Rule.map_fst_states (rule : Rule) (bag : Bag) :
    (rule.states bag).map (·.1) = rule.flags := by
  cases rule <;> rfl

theorem Rule.map_name_defaults (options : Options) (rule : Rule) :
    (rule.defaults options).map (·.name) = rule.flags := by
  rw [← rule.map_fst_states Table.empty, defaults, List.map_map]
  rfl

/-- A fact that is not a negated property has its property before the first glyph of its name. -/
theorem Fact.property_eq {f : Fact} (proper : f.Proper) (plain : f.test ≠ .truthy true) :
    f.property.toList = Name.unescapeFrom .plain (f.name.toList.takeWhile isLetter) := by
  have read := ofName_name proper.scanned
  unfold ofName ofParts at read
  split at read
  · exact (congrArg (·.property.toList) read).symm.trans (String.toList_ofList ..)
  · exact absurd (congrArg Fact.test read).symm plain
  · exact (congrArg (·.property.toList) read).symm.trans (String.toList_ofList ..)

/-- The name of a fact never begins as the names of prepared values do, with a word and a hyphen. -/
theorem Fact.name_ne_stem {f : Fact} (proper : f.Proper) (denied : Bool) (rest : String) :
    f.name ≠ Directive.stem denied ++ rest := by
  intro same
  have chars : f.name.toList = (Directive.stem denied).toList ++ rest.toList := by
    rw [same, String.toList_append]
  by_cases negation : f.test = .truthy true
  · have negated : f.name.toList.head? = some '¬' := by
      rw [Fact.name, negation, Name.toList_property]
      rfl
    rw [chars] at negated
    cases denied <;> cases negated
  · have letters : ∀ c ∈ (Directive.stem denied).toList, isLetter c = true := by
      cases denied <;> exact forall_of_all (by decide)
    have hyphen : '-' ∈ f.property.toList := by
      rw [property_eq proper negation, chars, List.takeWhile_append_of_pos letters]
      have itself : Name.glyphText '-' = ['-'] := rfl
      cases denied <;> simp [Directive.stem, Name.unescapeFrom, itself]
    have identifier := proper.1
    simp only [isIdentifier, Bool.and_eq_true] at identifier
    have word := List.all_eq_true.mp identifier.1.2 _ hyphen
    cases word

namespace Sheet

theorem map_name_baseDefaults (s : Sheet) :
    s.baseDefaults.map (·.name) = s.filings.flatMap (·.flags) := by
  simp only [baseDefaults, filings, Table.values, List.map_append, List.flatMap_append,
    List.flatMap_map, List.map_flatMap, List.flatMap_assoc, Rule.map_name_defaults, Filing.of]

section Sound

variable {r : Registry} {options : Options} (sound : r.Sound options)

theorem flags_perm (r : Registry) : ((ofRegistry r).filings.flatMap (·.flags)).Perm
    ((r.leaders.flatMap Fact.family).map Fact.name) := by
  have flags : (r.leaders.map Fact.filing).flatMap (·.flags) =
      (r.leaders.flatMap Fact.family).map Fact.name := by
    rw [List.flatMap_map, List.map_flatMap]
    rfl
  rw [← flags]
  exact (filings_ofRegistry_perm r).flatMap_right _

include sound

theorem proper_of_mem_families {f : Fact} (member : f ∈ r.leaders.flatMap Fact.family) :
    f.Proper := by
  obtain ⟨_, listed, inFamily⟩ := List.mem_flatMap.mp member
  obtain ⟨g, registered, rfl⟩ := Registry.mem_leaders.mp listed
  rw [g.family_leader] at inFamily
  exact (Fact.mem_family inFamily).2.2 (sound.proper g registered)

/-- The flags of distinct families have distinct names. -/
theorem nodup_flags : ((ofRegistry r).filings.flatMap (·.flags)).Nodup := by
  have distinct : (r.leaders.flatMap Fact.family).Nodup := by
    refine List.pairwise_flatMap.mpr ⟨fun f _ => f.nodup_family, ?_⟩
    refine (Registry.nodup_leaders r).imp_of_mem ?_
    -- A fact of two families would have the leader of both.
    intro f g hf hg apart x inFirst y inSecond same
    have lead {f : Fact} (listed : f ∈ r.leaders) : f.leader = f := by
      obtain ⟨g, _, rfl⟩ := Registry.mem_leaders.mp listed
      exact Fact.leader_of_mem_family g.leader_mem_family
    refine apart ?_
    rw [← lead hf, ← lead hg, ← Fact.leader_of_mem_family inFirst, same,
      Fact.leader_of_mem_family inSecond]
  rw [(flags_perm r).nodup_iff]
  exact List.pairwise_map.mpr (distinct.imp_of_mem fun hf hg apart same => apart
    (Fact.name_injective (proper_of_mem_families sound hf) (proper_of_mem_families sound hg) same))

end Sound

theorem nodup_baseOf (title : String) (options : Options) (sources : List String) :
    ((baseOf (Registry.ofSources title options sources)).map (·.name)).Nodup := by
  have sound := Registry.sound_ofSources title options sources
  rw [baseOf_eq_append, List.map_append, map_name_preparedOf, map_name_baseDefaults]
  refine List.nodup_append.mpr ⟨Table.nodup_names _, nodup_flags sound, ?_⟩
  -- What is prepared has a name that begins with a word and a hyphen, and a flag has not.
  rintro name prepared _ flag rfl
  obtain ⟨value, entry⟩ := Table.mem_names.mp prepared
  obtain ⟨d, _, needed⟩ := Registry.mem_prepared_ofSources entry
  obtain ⟨denied, isName, _⟩ := Directive.prepared_mem_needs needed
  obtain ⟨f, member, ofFact⟩ := List.mem_map.mp ((flags_perm _).mem_iff.mp flag)
  exact Fact.name_ne_stem (proper_of_mem_families sound member) denied _ (ofFact.trans isName)

/-- The families of a registry are those of the facts that were needed. -/
theorem leaders_ofNeeds_perm (title : String) (options : Options) (needs : List Need) :
    (Registry.ofNeeds title options needs).leaders.Perm
      (((needs.filterMap Need.fact?).map Fact.leader).eraseDups) := by
  refine (List.perm_ext_iff_of_nodup (Registry.nodup_leaders _) (nodup_eraseDups _)).mpr fun f => ?_
  have registered {g : Fact} :
      g ∈ (Registry.ofNeeds title options needs).facts ↔ g ∈ needs.filterMap Need.fact? := by
    rw [Registry.ofNeeds, Registry.mem_facts_foldl]
    simp [Registry.facts, Table.empty, Need.fact?_eq_some]
  simp only [Registry.mem_leaders, registered, List.mem_eraseDups, List.mem_map, eq_comm]

/-- Whatever is added, in any order and any number of times, a sheet files exactly one rule for each
family of facts: both facts of equality with one operand, or any other fact by itself. The rule is
filed under the property of its facts, among the dependent rules exactly if they read another one.
The base block of sources declares the prepared values and then the flags of the filed rules, no name
twice, and each flag with the state that its fact has on the empty bag. -/
theorem every_flag_owned_once (title : String) (options : Options) :
    (∀ needs, (ofRegistry (Registry.ofNeeds title options needs)).filings.Perm
      (((needs.filterMap Need.fact?).map Fact.leader).eraseDups.map Fact.filing)) ∧
    ∀ sources,
      (ofSources title options sources).Fresh
        (declarationsText (baseOf (Registry.ofSources title options sources))) ∧
      (baseOf (Registry.ofSources title options sources)).map (·.name) =
        (Registry.ofSources title options sources).prepared.names ++
          (ofSources title options sources).filings.flatMap (·.flags) ∧
      ((baseOf (Registry.ofSources title options sources)).map (·.name)).Nodup ∧
      ∀ f ∈ (Registry.ofSources title options sources).facts, ∀ g ∈ f.family,
        options.declare g.name (g.condition.satisfied Table.empty) ∈
          baseOf (Registry.ofSources title options sources) := by
  refine ⟨fun needs => ?_,
    fun sources => ⟨fresh_ofRegistry _, ?_, nodup_baseOf title options sources, ?_⟩⟩
  · exact (filings_ofRegistry_perm _).trans ((leaders_ofNeeds_perm title options needs).map _)
  · rw [baseOf_eq_append, List.map_append, map_name_preparedOf, map_name_baseDefaults]
    rfl
  · intro f registered g inFamily
    have sound := Registry.sound_ofSources title options sources
    refine List.mem_append_right _ (mem_baseDefaults.mpr ⟨f, registered, ?_⟩)
    rw [sound.written]
    exact (Rule.mem_defaults (sound.proper f registered)).mpr ⟨g, inFamily, rfl⟩

end Sheet

end StyleFlags
