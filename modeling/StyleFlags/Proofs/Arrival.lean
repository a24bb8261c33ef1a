import Mathlib.Data.List.Forall2
import StyleFlags.Proofs.ConditionNames
import StyleFlags.Proofs.Resolved

/-!
# Sources in either order

A registry holds facts as sets, so the order in which they come leaves no trace.
Prepared values are another matter: of two values for one name the later one
stays, and a name does not tell how the chains of a test are grouped. Two tests
that differ in grouping only are distributed differently, and so their values can
be different texts. They are guards that are on for the same flags.

Results:
1. `Registry.addFact_comm`, `Registry.unprepared_ofSources_perm`: the facts and properties
   of a registry do not depend on the order of the sources.
2. `Registry.get?_prepared_append`: a prepared value is that of the last source that has
   one under this name.
3. `Directive.sameReading_prepared`: values that are prepared under one name are on for the
   same flags.
4. `Sheet.order_of_sources`: two orders give the same rules, and base blocks that
   declare the same names with the same meaning; the blocks are equal exactly if the
   values that are prepared under one name are.
-/

namespace StyleFlags

/-! ## Conditions that differ in grouping only -/

namespace Condition.Reassociated

variable {c d : Condition}

theorem onFlags_eq (same : Reassociated c d) (flags : String → Bool) :
    c.onFlags flags = d.onFlags flags := by
  induction same with
  | refl c => rfl
  | symm _ ih => exact ih.symm
  | trans _ _ ih ih' => exact ih.trans ih'
  | sides negated op hl hr left right =>
    cases op with
    | junction op => simp only [onFlags, left, right]
    | compare op =>
      simp only [onFlags]
      rw [(Reassociated.sides negated (.compare op) hl hr).name_eq]
  | rotate negated op a b c =>
    cases op <;>
      simp [onFlags, Connective.combine, Connective.absorbing, Bool.and_assoc, Bool.or_assoc]

/-- Pushing negations keeps the places of all sides, so the grouping stays the only difference. -/
theorem nnf (same : Reassociated c d) :
    Reassociated c.nnf d.nnf ∧ Reassociated c.negate.nnf d.negate.nnf := by
  induction same with
  | refl c => exact ⟨.refl _, .refl _⟩
  | symm _ ih => exact ⟨ih.1.symm, ih.2.symm⟩
  | trans _ _ ih ih' => exact ⟨ih.1.trans ih'.1, ih.2.trans ih'.2⟩
  | @sides negated op left right left' right' hl hr onLeft onRight =>
    have plain : Reassociated (binary false op left right).nnf (binary false op left' right').nnf := by
      simp only [Condition.nnf]
      exact .sides false op onLeft.1 onRight.1
    have denied : Reassociated (binary true op left right).nnf (binary true op left' right').nnf := by
      cases op with
      | junction op =>
        simp only [Condition.nnf]
        exact .sides false (.junction op.dual) onLeft.2 onRight.2
      | compare op =>
        simp only [Condition.nnf]
        exact .sides false (.compare op.dual) onLeft.1 onRight.1
    cases negated with
    | false => exact ⟨plain, denied⟩
    | true => exact ⟨denied, plain⟩
  | rotate negated op a b c =>
    have plain := rotate false op a.nnf b.nnf c.nnf
    have denied := rotate false op.dual a.negate.nnf b.negate.nnf c.negate.nnf
    cases negated with
    | false => simpa [Condition.nnf, Condition.negate] using And.intro plain denied
    | true => simpa [Condition.nnf, Condition.negate] using And.intro denied plain

end Condition.Reassociated

/-! ## Facts in any order -/

namespace Registry

variable {r : Registry}

theorem get?_tests_addFact (f : Fact) (name : String) :
    (r.addFact f).tests.get? name =
      if name = f.property then some (((r.tests.get? f.property).getD .empty).insert f.test)
      else r.tests.get? name :=
  Table.get?_insert _ _

theorem addFact_comm (r : Registry) (f g : Fact) :
    (r.addFact f).addFact g = (r.addFact g).addFact f := by
  have properties : ((r.addFact f).addFact g).properties = ((r.addFact g).addFact f).properties := by
    refine SortedSet.ext_mem fun name => ?_
    simp only [mem_properties_addFact]
    constructor
    · rintro (own | dependency | own | dependency | known) <;> simp [*]
    · rintro (own | dependency | own | dependency | known) <;> simp [*]
  have tests : ((r.addFact f).addFact g).tests = ((r.addFact g).addFact f).tests := by
    refine Table.ext_get? fun name => ?_
    simp only [get?_tests_addFact]
    by_cases same : g.property = f.property
    · have swap (known : SortedSet Test) :
          (known.insert f.test).insert g.test = (known.insert g.test).insert f.test :=
        SortedSet.ext_mem fun test => by
          simp only [SortedSet.mem_insert]
          exact or_left_comm
      by_cases own : name = f.property <;> simp [same, swap, own]
    · simp only [if_neg same, if_neg (Ne.symm same)]
      by_cases ofG : name = g.property
      · rw [if_pos ofG, if_neg (ofG ▸ same), if_pos ofG]
      · rw [if_neg ofG, if_neg ofG]
  exact congrArg₂ (Registry.mk r.name r.options · · r.prepared) properties tests

/-- The registry without its prepared values. -/
def unprepared (r : Registry) : Registry := { r with prepared := .empty }

/-- Needs leave the same registry in any order, up to prepared values. -/
theorem unprepared_foldl_perm {needs needs' : List Need} (perm : needs.Perm needs') (r : Registry) :
    (needs.foldl addNeed r).unprepared = (needs'.foldl addNeed r).unprepared := by
  have apart (r : Registry) (need : Need) :
      (r.unprepared.addNeed need).unprepared = (r.addNeed need).unprepared := by
    cases need <;> rfl
  have swap (r : Registry) (one other : Need) :
      ((r.addNeed one).unprepared.addNeed other).unprepared =
        ((r.addNeed other).unprepared.addNeed one).unprepared := by
    rw [apart, apart]
    cases one with
    | prepared name value => cases other <;> rfl
    | fact f =>
      cases other with
      | prepared name value => rfl
      | fact g => exact congrArg unprepared (addFact_comm r f g)
  have apartAll (needs : List Need) :
      needs.foldl (fun r need => (r.addNeed need).unprepared) r.unprepared =
        (needs.foldl addNeed r).unprepared :=
    List.foldl_hom unprepared apart
  rw [← apartAll, ← apartAll]
  exact perm.foldl_eq' (fun one _ other _ r => swap r one other) _

/-- The order of sources leaves no trace but in the prepared values. -/
theorem unprepared_ofSources_perm {sources sources' : List String} (perm : sources.Perm sources')
    (title : String) (options : Options) :
    (ofSources title options sources).unprepared = (ofSources title options sources').unprepared := by
  rw [ofSources_eq, ofSources_eq]
  exact unprepared_foldl_perm ((perm.flatMap_right _).flatMap_right _) _

theorem eq_of_unprepared_eq {r r' : Registry} (same : r.unprepared = r'.unprepared)
    (prepared : r.prepared = r'.prepared) : r = r' := by
  cases r
  cases r'
  simp_all [unprepared]

/-! ## The last prepared value -/

theorem get?_prepared_foldl {needs : List Need} {name : String} :
    (needs.foldl addNeed r).prepared.get? name =
      (needs.reverse.findSome? (Need.preparedAs? name)).or (r.prepared.get? name) := by
  induction needs generalizing r with
  | nil => rfl
  | cons need rest ih =>
    rw [List.foldl_cons, ih, List.reverse_cons, List.findSome?_append, Option.or_assoc]
    congr 1
    cases need with
    | fact f => rfl
    | prepared found value =>
      rw [addNeed, addPrepared, Table.get?_insert, List.findSome?_singleton, Need.preparedAs?]
      by_cases same : name = found
      · rw [if_pos same, if_pos same.symm, Option.some_or]
      · rw [if_neg same, if_neg (Ne.symm same), Option.none_or]

/-- A prepared value is that of the later sources, and else that of the earlier ones. -/
theorem get?_prepared_append (title : String) (options : Options) (before after : List String)
    (name : String) :
    (ofSources title options (before ++ after)).prepared.get? name =
      ((ofSources title options after).prepared.get? name).or
        ((ofSources title options before).prepared.get? name) := by
  have empty : (Table.empty : Table String).get? name = none := rfl
  simp only [ofSources_eq, ofNeeds, get?_prepared_foldl, empty, Option.or_none]
  rw [Directive.recorded, List.flatMap_append, List.flatMap_append, List.reverse_append,
    List.findSome?_append]
  rfl

/-- Two orders of sources prepare the same exactly if the sources do under the names that they
share. -/
theorem prepared_comm_iff {title : String} {options : Options} {first second : String} :
    (ofSources title options [first, second]).prepared =
        (ofSources title options [second, first]).prepared ↔
      ∀ name value other, (ofSources title options [first]).prepared.get? name = some value →
        (ofSources title options [second]).prepared.get? name = some other → value = other := by
  have last (before after name : String) :
      (ofSources title options [before, after]).prepared.get? name =
        ((ofSources title options [after]).prepared.get? name).or
          ((ofSources title options [before]).prepared.get? name) :=
    get?_prepared_append title options [before] [after] name
  constructor
  · intro same name value other ofFirst ofSecond
    have both := last second first name
    rw [← same, last, ofFirst, ofSecond] at both
    exact (Option.some.inj both).symm
  · intro agree
    refine Table.ext_get? fun name => ?_
    rw [last, last]
    cases ofFirst : (ofSources title options [first]).prepared.get? name with
    | none => rw [Option.or_none, Option.none_or]
    | some value =>
      cases ofSecond : (ofSources title options [second]).prepared.get? name with
      | none => rfl
      | some other => rw [agree name value other ofFirst ofSecond]

end Registry

/-! ## Values that are prepared under one name -/

namespace Guard

/-- Whether two texts read back as guards that are on for the same flags. -/
def SameReading (value other : String) : Prop :=
  ∃ g h, read? value = some g ∧ read? other = some h ∧ ∀ flags, g.isOn flags = h.isOn flags

/-- A guard of flags has no use for the values of flags. -/
theorem Legible.text_eq {g : Guard} (legible : g.Legible) (options : Options) :
    g.text options = g.text {} := by
  induction g with
  | on => exact legible.elim
  | off => exact legible.elim
  | flag name => rfl
  | gated name inner ih => rw [text, ih legible.2, text]
  | either left right ihl ihr => rw [text, ihl legible.1, ihr legible.2, text]

end Guard

namespace Directive

variable {d e : Directive} {options : Options} {name value other : String}

/-- What the names of prepared values begin with, for each branch. -/
def stem : Bool → String
  | false => "if-"
  | true => "else-"

theorem stem_append_inj {denied denied' : Bool} {rest rest' : String}
    (same : stem denied ++ rest = stem denied' ++ rest') : denied = denied' ∧ rest = rest' := by
  have stems : denied = denied' := by
    have heads := congrArg (·.toList.head?) same
    cases denied <;> cases denied' <;> simp [stem, String.toList_append] at heads ⊢
  subst stems
  exact ⟨rfl, (String.append_right_inj _).mp same⟩

/-- The test of a branch, with its negations at the leaves. -/
def branchTest (d : Directive) : Bool → Condition
  | false => d.normal
  | true => d.normal.negate.nnf

theorem prepared_mem_needs (needed : .prepared name value ∈ d.needs options) :
    ∃ denied, name = stem denied ++ d.normal.name ∧
      value = (Guard.ofCondition none ((d.branchTest denied).dnf true)).text options := by
  rcases mem_needs needed with first | second
  · exact ⟨false, prepared_mem_branchNeeds first⟩
  · exact ⟨true, prepared_mem_branchNeeds second⟩

theorem shaped_branchTest (proper : d.Proper) (denied : Bool) :
    (d.branchTest denied).Shaped .source ∧ (d.branchTest denied).isNnf = true := by
  have normal : d.normal.Shaped .source := Condition.Shaped.nnf proper
  cases denied with
  | false => exact ⟨normal, Condition.isNnf_nnf proper⟩
  | true => exact ⟨normal.negate.nnf, Condition.isNnf_nnf normal.negate⟩

theorem literal?_branchTest (isOpen : d.test.constant? = none) (denied : Bool) :
    (d.branchTest denied).literal? = none := by
  have normalOpen := literal?_normal isOpen
  cases denied with
  | false => exact normalOpen
  | true => simpa [branchTest] using normalOpen

/-- A prepared value fits into a declaration, whatever the values of flags are. -/
theorem readable_prepared (proper : d.Proper) (needed : .prepared name value ∈ d.needs options) :
    Declaration.Readable ⟨name, value⟩ := by
  obtain ⟨denied, _, isText⟩ := prepared_mem_needs needed
  obtain ⟨shaped, _⟩ := shaped_branchTest proper denied
  have isOpen := literal?_branchTest (constant?_of_mem_needs needed) denied
  have legible : (Guard.ofCondition none ((d.branchTest denied).dnf true)).Legible :=
    Guard.legible_ofCondition shaped.nnf.distribute (by simpa [Condition.dnf] using isOpen) (by simp)
  refine ⟨(spelled_prepared needed).1, ?_⟩
  rw [isText, legible.text_eq]
  exact Guard.spelled_text Options.readable_default (Guard.named_ofCondition _ (by simp))

/-- Values that are prepared under one name are on for the same flags: the tests have the same name,
so they differ in grouping only. -/
theorem sameReading_prepared (hd : d.Proper) (he : e.Proper)
    (needed : .prepared name value ∈ d.needs options)
    (needed' : .prepared name other ∈ e.needs options) : Guard.SameReading value other := by
  have reads {d : Directive} (proper : d.Proper) (isOpen : d.test.constant? = none) (denied : Bool) :
      ∃ g, Guard.read? ((Guard.ofCondition none ((d.branchTest denied).dnf true)).text options) =
        some g ∧ ∀ flags, g.isOn flags = (d.branchTest denied).onFlags flags := by
    obtain ⟨shaped, normal⟩ := shaped_branchTest proper denied
    obtain ⟨g, read, same⟩ :=
      Condition.exists_read_prepared options shaped normal (literal?_branchTest isOpen denied)
    refine ⟨g, read, fun flags => (same flags).trans ?_⟩
    rw [Condition.dnf, Condition.nnf_eq_of_isNnf normal]
    exact (Condition.Valuation.byFlags flags).truth_distribute shaped
  obtain ⟨denied, isName, rfl⟩ := prepared_mem_needs needed
  obtain ⟨denied', isName', rfl⟩ := prepared_mem_needs needed'
  -- One name means the same branch, and a test of the same name.
  obtain ⟨rfl, sameName⟩ := stem_append_inj (isName.symm.trans isName')
  have regrouped : Condition.Reassociated d.normal e.normal :=
    (Condition.Shaped.name_eq_iff (Condition.Shaped.nnf hd) (Condition.Shaped.nnf he)).mp sameName
  have regroupedBranch : Condition.Reassociated (d.branchTest denied) (e.branchTest denied) := by
    cases denied with
    | false => exact regrouped
    | true => exact regrouped.nnf.2
  obtain ⟨g, read, isOn⟩ := reads hd (constant?_of_mem_needs needed) denied
  obtain ⟨h, read', isOn'⟩ := reads he (constant?_of_mem_needs needed') denied
  refine ⟨g, h, read, read', fun flags => ?_⟩
  rw [isOn, isOn', regroupedBranch.onFlags_eq]

/-- Tests that are the same where their names are the same have the same values prepared. -/
theorem prepared_eq (alike : d.normal.name = e.normal.name → d.normal = e.normal)
    (needed : .prepared name value ∈ d.needs options)
    (needed' : .prepared name other ∈ e.needs options) : value = other := by
  obtain ⟨denied, isName, rfl⟩ := prepared_mem_needs needed
  obtain ⟨denied', isName', rfl⟩ := prepared_mem_needs needed'
  obtain ⟨rfl, sameName⟩ := stem_append_inj (isName.symm.trans isName')
  have sameBranch : d.branchTest denied = e.branchTest denied := by
    cases denied <;> simp only [branchTest, alike sameName]
  rw [sameBranch]

end Directive

/-! ## Base blocks -/

/-- Declarations of one name whose values are on for the same flags. -/
def Declaration.Alike (d e : Declaration) : Prop :=
  d.name = e.name ∧ Guard.SameReading d.value e.value

/-- Lists with the same keys are related item by item if items with the same key are. -/
theorem forall₂_of_map_eq {α κ : Type} {rel : α → α → Prop} (key : α → κ) {first second : List α}
    (same : first.map key = second.map key)
    (related : ∀ a ∈ first, ∀ b ∈ second, key a = key b → rel a b) : List.Forall₂ rel first second := by
  induction first generalizing second with
  | nil =>
    cases List.map_eq_nil_iff.mp same.symm
    exact .nil
  | cons a rest ih =>
    cases second with
    | nil => cases same
    | cons b rest' =>
      obtain ⟨head, tail⟩ := List.cons.inj same
      refine .cons (related a List.mem_cons_self b List.mem_cons_self head) (ih tail ?_)
      intro x inRest y inRest'
      exact related x (List.mem_cons_of_mem _ inRest) y (List.mem_cons_of_mem _ inRest')

/-- The same declarations at the end can be left out of equal texts. -/
theorem eq_of_declarationsText_append {first second rest : List Declaration}
    (hf : ∀ d ∈ first, d.Readable) (hs : ∀ d ∈ second, d.Readable)
    (names : first.map (·.name) = second.map (·.name))
    (same : declarationsText (first ++ rest) = declarationsText (second ++ rest)) :
    first = second := by
  have texts : declarationsText first = declarationsText second := by
    cases rest with
    | nil => simpa using same
    | cons d more =>
      cases first with
      | nil => rw [List.map_eq_nil_iff.mp names.symm]
      | cons a tail =>
        have nonempty : second ≠ [] := by
          rintro rfl
          cases names
        simp only [declarationsText, List.map_append] at same ⊢
        rw [String.intercalate_append_of_ne_nil (by simp) (by simp),
          String.intercalate_append_of_ne_nil (by simpa using nonempty) (by simp)] at same
        exact (String.append_left_inj _).mp ((String.append_left_inj _).mp same)
  rw [← declared_declarationsText hf, texts, declared_declarationsText hs]

namespace Sheet

/-- The rules of a registry do not depend on what is prepared. -/
theorem ofRegistry_of_unprepared_eq {r r' : Registry} (same : r.unprepared = r'.unprepared) :
    ((ofRegistry r).properties = (ofRegistry r').properties ∧
      (ofRegistry r).rules = (ofRegistry r').rules ∧
      (ofRegistry r).dependents = (ofRegistry r').dependents) ∧
    (ofRegistry r).baseDefaults = (ofRegistry r').baseDefaults := by
  have properties : (ofRegistry r).properties = (ofRegistry r').properties :=
    (congrArg (fun r => (ofRegistry r).properties) same :)
  have rules : (ofRegistry r).rules = (ofRegistry r').rules :=
    (congrArg (fun r => (ofRegistry r).rules) same :)
  have dependents : (ofRegistry r).dependents = (ofRegistry r').dependents :=
    (congrArg (fun r => (ofRegistry r).dependents) same :)
  have options : (ofRegistry r).options = (ofRegistry r').options :=
    (congrArg (fun r => (ofRegistry r).options) same :)
  refine ⟨⟨properties, rules, dependents⟩, ?_⟩
  rw [baseDefaults, baseDefaults, rules, dependents, options]

/-- The prepared values of a registry, as the base block declares them. -/
def preparedOf (r : Registry) : List Declaration :=
  r.prepared.entries.map fun (name, value) => ⟨name, value⟩

theorem baseOf_eq_append (r : Registry) :
    baseOf r = preparedOf r ++ (ofRegistry r).baseDefaults := rfl

theorem map_name_preparedOf (r : Registry) : (preparedOf r).map (·.name) = r.prepared.names := by
  rw [preparedOf, List.map_map]
  rfl

theorem prepared_eq_of_preparedOf_eq {r r' : Registry} (same : preparedOf r = preparedOf r') :
    r.prepared = r'.prepared := by
  refine Table.ext_entries ((List.map_inj_right ?_).mp same)
  rintro ⟨name, value⟩ ⟨name', value'⟩ equal
  cases equal
  rfl

section Orders

variable {title : String} {options : Options} {sources sources' : List String}

theorem mem_preparedOf {d : Declaration}
    (listed : d ∈ preparedOf (Registry.ofSources title options sources)) :
    ∃ e ∈ Directive.recorded sources, .prepared d.name d.value ∈ e.needs options := by
  obtain ⟨entry, member, rfl⟩ := List.mem_map.mp listed
  exact Registry.mem_prepared_ofSources member

theorem readable_preparedOf :
    ∀ d ∈ preparedOf (Registry.ofSources title options sources), d.Readable := by
  intro d listed
  obtain ⟨e, recorded, needed⟩ := mem_preparedOf listed
  exact Directive.readable_prepared (Directive.proper_of_mem_recorded recorded) needed

/-- The same names are prepared, in whatever order the sources come. -/
theorem names_preparedOf_perm (perm : sources.Perm sources') :
    (preparedOf (Registry.ofSources title options sources)).map (·.name) =
      (preparedOf (Registry.ofSources title options sources')).map (·.name) := by
  have subset {sources sources' : List String} (perm : sources.Perm sources') {name : String}
      (listed : name ∈ (Registry.ofSources title options sources).prepared.names) :
      name ∈ (Registry.ofSources title options sources').prepared.names := by
    obtain ⟨value, entry⟩ := Table.mem_names.mp listed
    obtain ⟨d, recorded, needed⟩ := Registry.mem_prepared_ofSources entry
    have recorded' : d ∈ Directive.recorded sources' := (perm.flatMap_right _).mem_iff.mp recorded
    exact Table.mem_names.mpr (Registry.exists_mem_prepared_ofSources title recorded' needed)
  rw [map_name_preparedOf, map_name_preparedOf]
  exact eq_of_increasing id (Table.names_increasing _) (Table.names_increasing _)
    fun name => ⟨subset perm, subset perm.symm⟩

/-- What is prepared has the same names in the same order, and the same meaning. -/
theorem forall₂_preparedOf_perm (perm : sources.Perm sources') :
    List.Forall₂ Declaration.Alike (preparedOf (Registry.ofSources title options sources))
      (preparedOf (Registry.ofSources title options sources')) := by
  refine forall₂_of_map_eq (·.name) (names_preparedOf_perm perm) ?_
  intro d listed e listed' sameName
  obtain ⟨first, recorded, needed⟩ := mem_preparedOf listed
  obtain ⟨second, recorded', needed'⟩ := mem_preparedOf listed'
  rw [sameName] at needed
  exact ⟨sameName, Directive.sameReading_prepared (Directive.proper_of_mem_recorded recorded)
    (Directive.proper_of_mem_recorded recorded') needed needed'⟩

/-- The base blocks are equal only if the prepared values are. -/
theorem base?_eq_iff (perm : sources.Perm sources') :
    (ofSources title options sources).base? = (ofSources title options sources').base? ↔
      (Registry.ofSources title options sources).prepared =
        (Registry.ofSources title options sources').prepared := by
  have same := Registry.unprepared_ofSources_perm perm title options
  constructor
  · intro blocks
    rw [ofSources, ofSources, (fresh_ofRegistry _).base?_eq, (fresh_ofRegistry _).base?_eq] at blocks
    have texts : declarationsText (baseOf (Registry.ofSources title options sources)) =
        declarationsText (baseOf (Registry.ofSources title options sources')) :=
      congrArg Block.declarations (Option.some.inj blocks)
    -- Both texts end with the same defaults, which can be left out.
    rw [baseOf_eq_append, baseOf_eq_append, (ofRegistry_of_unprepared_eq same).2] at texts
    exact prepared_eq_of_preparedOf_eq (eq_of_declarationsText_append readable_preparedOf
      readable_preparedOf (names_preparedOf_perm perm) texts)
  · intro prepared
    rw [ofSources, ofSources, Registry.eq_of_unprepared_eq same prepared]

end Orders

/-- Two sources give the same properties, rules and defaults of flags in either order. What the base
blocks declare before the defaults has the same names in the same order, with values that are on for
the same flags. The blocks are equal exactly if the sources prepare the same values under the names
that they share. So the sheets are equal if tests of one name are also grouped alike. -/
theorem order_of_sources (title : String) (options : Options) (first second : String) :
    ((ofSources title options [first, second]).properties =
        (ofSources title options [second, first]).properties ∧
      (ofSources title options [first, second]).rules =
        (ofSources title options [second, first]).rules ∧
      (ofSources title options [first, second]).dependents =
        (ofSources title options [second, first]).dependents) ∧
    (∀ sources, (ofSources title options sources).Fresh (declarationsText
      (preparedOf (Registry.ofSources title options sources) ++
        (ofSources title options sources).baseDefaults))) ∧
    (ofSources title options [first, second]).baseDefaults =
      (ofSources title options [second, first]).baseDefaults ∧
    List.Forall₂ Declaration.Alike (preparedOf (Registry.ofSources title options [first, second]))
      (preparedOf (Registry.ofSources title options [second, first])) ∧
    ((ofSources title options [first, second]).base? =
        (ofSources title options [second, first]).base? ↔
      ∀ name value other,
        (Registry.ofSources title options [first]).prepared.get? name = some value →
        (Registry.ofSources title options [second]).prepared.get? name = some other →
        value = other) ∧
    ((∀ d ∈ (Directive.expand first).directives, ∀ e ∈ (Directive.expand second).directives,
        d.normal.name = e.normal.name → d.normal = e.normal) →
      ofSources title options [first, second] = ofSources title options [second, first]) := by
  have swap : [first, second].Perm [second, first] := .swap second first []
  have same := Registry.unprepared_ofSources_perm swap title options
  obtain ⟨sameRules, sameDefaults⟩ := ofRegistry_of_unprepared_eq same
  refine ⟨sameRules, fun sources => fresh_ofRegistry _, sameDefaults, forall₂_preparedOf_perm swap,
    (base?_eq_iff swap).trans Registry.prepared_comm_iff, fun alike => ?_⟩
  have alone {source : String} {d : Directive} (recorded : d ∈ Directive.recorded [source]) :
      d ∈ (Directive.expand source).directives := by
    simpa [Directive.recorded] using recorded
  have prepared : (Registry.ofSources title options [first, second]).prepared =
      (Registry.ofSources title options [second, first]).prepared := by
    refine Registry.prepared_comm_iff.mpr fun name value other ofFirst ofSecond => ?_
    obtain ⟨d, recorded, needed⟩ :=
      Registry.mem_prepared_ofSources (Table.get?_eq_some_iff.mp ofFirst)
    obtain ⟨e, recorded', needed'⟩ :=
      Registry.mem_prepared_ofSources (Table.get?_eq_some_iff.mp ofSecond)
    exact Directive.prepared_eq (alike d (alone recorded) e (alone recorded')) needed needed'
  rw [ofSources, ofSources, Registry.eq_of_unprepared_eq same prepared]

/-- `if(a && (b || c), x, y)` and `if(a && (b || c), z) if(n < 2, u)` share a test, which is grouped in
one way. -/
theorem order_of_sources_exShared :
    (∃ value, (Registry.ofSources "scheme" {} ["if(a && (b || c), x, y)"]).prepared.get?
      "if-a∧∣b⋁c∣" = some value) ∧
    ofSources "scheme" {} ["if(a && (b || c), x, y)", "if(a && (b || c), z) if(n < 2, u)"] =
      ofSources "scheme" {} ["if(a && (b || c), z) if(n < 2, u)", "if(a && (b || c), x, y)"] := by
  obtain ⟨_, _, _, _, _, alike⟩ := order_of_sources "scheme" {} "if(a && (b || c), x, y)"
    "if(a && (b || c), z) if(n < 2, u)"
  have shared : (Registry.ofSources "scheme" {} ["if(a && (b || c), x, y)"]).prepared.get?
      "if-a∧∣b⋁c∣" = some "var(--b,var(--a)) var(--c,var(--a))" := by decide +kernel
  exact ⟨⟨_, shared⟩, alike (by decide +kernel)⟩

/-- The chain of `&&` is grouped to the left. -/
def exToLeft : String := "if(a && b && (c || d), x)"

/-- The same chain, grouped to the right. -/
def exToRight : String := "if(a && (b && (c || d)), x)"

/-- Both sources expand to the same text and ask for the same name, but the base block and its key
depend on which one comes last. -/
theorem order_of_sources_changes_base :
    (Directive.expand exToLeft).result.toOption = some "var(--if-a∧b∧∣c⋁d∣,x)" ∧
    (Directive.expand exToRight).result.toOption = some "var(--if-a∧b∧∣c⋁d∣,x)" ∧
    (ofSources "scheme" {} [exToLeft, exToRight]).base?.map (·.declarations) ≠
      (ofSources "scheme" {} [exToRight, exToLeft]).base?.map (·.declarations) ∧
    (ofSources "scheme" {} [exToLeft, exToRight]).baseKey ≠
      (ofSources "scheme" {} [exToRight, exToLeft]).baseKey := by
  decide +kernel

end Sheet

end StyleFlags
