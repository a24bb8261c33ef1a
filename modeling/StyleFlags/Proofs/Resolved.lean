import StyleFlags.Proofs.Flags
import StyleFlags.Proofs.Occurrences

/-!
# References that resolve

The text of a directive refers to the guards of its branches, and a prepared
guard refers to the flags of facts. Their names are made from conditions, and the
names that the base block declares from facts and rules. They meet at the needs of
a directive: whatever is referred to is needed under this name, and whatever is
needed is declared under it.

Results:
1. `Guard.referred_text`: what the text of a guard refers to are the names in it.
2. `Directive.RefersTo.exists_need`, `Directive.referred_prepared`: a directive, and what is
   prepared for it, refer to names of its needs only.
3. `Sheet.mem_baseNames`: the base block declares the names of all needs.
4. `Sheet.exists_serialize_iff`: the bags that are accepted are those with registered
   properties only.
-/

namespace StyleFlags

/-! ## References in a text -/

theorem Escaped.of_all {stops l : List Char} (bare : ∀ c ∈ l, c ∉ stops ∧ c ≠ '\\') :
    Escaped stops l := by
  induction l with
  | nil => exact .nil
  | cons c rest ih =>
    obtain ⟨head, tail⟩ := List.forall_mem_cons.mp bare
    exact .plain head.1 head.2 (ih tail)

/-- A character that stands behind a backslash only is not met bare before the stop. -/
theorem Escaped.append_ne {stops l before after rest : List Char} {c stop : Char}
    (escaped : Escaped stops l) (isStop : c ∈ stops)
    (plain : ∀ x ∈ before ++ [c], x ≠ '\\' ∧ x ≠ stop) :
    l ++ stop :: rest ≠ before ++ c :: after := by
  intro same
  induction before generalizing l with
  | nil =>
    obtain ⟨notEscape, notStop⟩ := plain c (by simp)
    cases escaped with
    | nil => exact notStop (List.cons.inj same).1.symm
    | plain bare _ _ => exact bare ((List.cons.inj same).1 ▸ isStop)
    | escaped _ _ => exact notEscape (List.cons.inj same).1.symm
  | cons x before ih =>
    obtain ⟨⟨notEscape, notStop⟩, others⟩ := List.forall_mem_cons.mp plain
    cases escaped with
    | nil => exact notStop (List.cons.inj same).1.symm
    | plain _ _ tail => exact ih tail others (List.cons.inj same).2
    | escaped _ _ => exact notEscape (List.cons.inj same).1.symm

namespace Guard

/-- The names that a text refers to, wherever in it a reference opens. -/
def referred : List Char → List String
  | [] => []
  | c :: rest =>
    if opening.isPrefixOf (c :: rest) then
      String.ofList (cutAt nameStops ((c :: rest).drop opening.length)).1 :: referred rest
    else referred rest

/-- The names in a guard. -/
def names : Guard → List String
  | on => []
  | off => []
  | flag name => [name]
  | gated name inner => name :: inner.names
  | either left right => left.names ++ right.names

section Scan

variable {l rest : List Char} {c stop : Char}

theorem referred_cons_of_ne (other : c ≠ 'v') (rest : List Char) :
    referred (c :: rest) = referred rest := by
  rw [referred, if_neg]
  simp [opening, other.symm]

/-- No reference opens inside a name, as no parenthesis stands bare in it. -/
theorem opening_isPrefixOf_eq_false (escaped : Escaped ['('] l) (isStop : stop ∈ nameStops)
    (c : Char) (rest : List Char) : opening.isPrefixOf (c :: (l ++ stop :: rest)) = false := by
  refine Bool.eq_false_iff.mpr fun opens => ?_
  obtain ⟨more, same⟩ := List.isPrefixOf_iff_prefix.mp opens
  have tails : l ++ stop :: rest = ['a', 'r'] ++ '(' :: ('-' :: '-' :: more) :=
    (List.cons.inj same).2.symm
  refine escaped.append_ne List.mem_cons_self (fun x member => ?_) tails
  have apart : ∀ x ∈ ['a', 'r', '('], x ≠ '\\' ∧ x ∉ nameStops := forall_of_all (by decide)
  obtain ⟨notEscape, notStop⟩ := apart x member
  exact ⟨notEscape, fun same => notStop (same ▸ isStop)⟩

theorem referred_name (escaped : Escaped ['('] l) (isStop : stop ∈ nameStops) (rest : List Char) :
    referred (l ++ stop :: rest) = referred rest := by
  induction escaped with
  | nil =>
    refine referred_cons_of_ne ?_ rest
    rintro rfl
    exact absurd isStop (by decide)
  | @plain c tail _ _ escaped ih =>
    rw [List.cons_append, referred, opening_isPrefixOf_eq_false escaped isStop]
    exact ih
  | @escaped c tail _ escaped ih =>
    rw [List.cons_append, List.cons_append, referred_cons_of_ne (by decide), referred,
      opening_isPrefixOf_eq_false escaped isStop]
    exact ih

/-- A reference refers to its name, and else to what its fallback does. -/
theorem referred_reference (escaped : Escaped nameStops l) (closed : Escaped ['('] l)
    (isStop : stop ∈ nameStops) (rest : List Char) :
    referred (opening ++ (l ++ stop :: rest)) = String.ofList l :: referred rest := by
  have notEscape : stop ≠ '\\' := by
    rintro rfl
    exact absurd isStop (by decide)
  have opens : opening.isPrefixOf (opening ++ (l ++ stop :: rest)) = true :=
    List.isPrefixOf_iff_prefix.mpr (List.prefix_append _ _)
  have behind : (opening ++ (l ++ stop :: rest)).drop opening.length = l ++ stop :: rest :=
    List.drop_left
  -- No reference opens inside the opening of this one.
  have skipped : referred (opening.tail ++ (l ++ stop :: rest)) = referred (l ++ stop :: rest) := by
    show referred ('a' :: 'r' :: '(' :: '-' :: '-' :: (l ++ stop :: rest)) = _
    repeat rw [referred_cons_of_ne (by decide)]
  show (if opening.isPrefixOf (opening ++ (l ++ stop :: rest)) then
      String.ofList (cutAt nameStops ((opening ++ (l ++ stop :: rest)).drop opening.length)).1 ::
        referred (opening.tail ++ (l ++ stop :: rest))
    else _) = _
  rw [if_pos opens, behind, escaped.cutAt_append isStop notEscape, skipped,
    referred_name closed isStop]

end Scan

/-- The text of a guard refers to the names in the guard. -/
theorem referred_text (options : Options) {g : Guard} (legible : g.Legible)
    (closed : ∀ name ∈ g.names, Escaped ['('] name.toList) (rest : List Char) :
    referred ((g.text options).toList ++ rest) = g.names ++ referred rest := by
  induction g generalizing rest with
  | on => exact legible.elim
  | off => exact legible.elim
  | flag name =>
    rw [toList_flag, referred_reference legible (closed name (by simp [names])) (by decide),
      String.ofList_toList]
    rfl
  | gated name inner ih =>
    obtain ⟨own, others⟩ := List.forall_mem_cons.mp closed
    rw [toList_gated, referred_reference legible.1 own (by decide), ih legible.2 others,
      referred_cons_of_ne (by decide), String.ofList_toList]
    rfl
  | either left right ihl ihr =>
    obtain ⟨onLeft, onRight⟩ := List.forall_mem_append.mp closed
    rw [toList_either, ihl legible.1 onLeft, referred_cons_of_ne (by decide),
      ihr legible.2 onRight, ← List.append_assoc]
    rfl

/-- What a guard is not made apart for is a fact, and has the name of its flag. -/
theorem exists_fact_of_leaf {v : Condition.Vocabulary} {c : Condition} (shaped : c.Shaped v)
    (normal : c.isNnf = true) (isOpen : c.literal? = none)
    (noOr : ∀ left right, c = .binary false (.junction .or) left right → False)
    (noAnd : ∀ left right, c = .binary false (.junction .and) left right → False) :
    ∃ f ∈ c.facts, f.name = c.name := by
  have single : c.isJunction = false := by
    cases c with
    | property negated name => rfl
    | literal negated l => rfl
    | binary negated op left right =>
      obtain ⟨rfl, _⟩ := Condition.isNnf_binary.mp normal
      cases op with
      | compare op => rfl
      | junction op =>
        cases op with
        | or => exact (noOr left right rfl).elim
        | and => exact (noAnd left right rfl).elim
  obtain ⟨f, rfl⟩ := Condition.exists_fact shaped normal isOpen single
  exact ⟨f, by simp [f.facts_condition], f.name_condition.symm⟩

/-- The names in the guard of a condition are those of its facts, and those in the tail. -/
theorem mem_names_ofCondition {v : Condition.Vocabulary} {c : Condition} {tail : Option Guard}
    (shaped : c.Shaped v) (normal : c.isNnf = true) (isOpen : c.literal? = none) {name : String}
    (member : name ∈ (ofCondition tail c).names) :
    (∃ f ∈ c.facts, f.name = name) ∨ ∃ g ∈ tail, name ∈ g.names := by
  fun_induction ofCondition tail c with
  | case1 tail left right ihl ihr =>
    obtain ⟨leftOpen, rightOpen, shapedLeft, shapedRight⟩ := shaped
    obtain ⟨_, hl, hr⟩ := Condition.isNnf_binary.mp normal
    rcases List.mem_append.mp member with inLeft | inRight
    · exact (ihl shapedLeft hl leftOpen inLeft).imp_left
        (Exists.imp fun _ => And.imp_left (List.mem_append_left _))
    · exact (ihr shapedRight hr rightOpen inRight).imp_left
        (Exists.imp fun _ => And.imp_left (List.mem_append_right _))
  | case2 tail left right ihr ihl =>
    obtain ⟨leftOpen, rightOpen, shapedLeft, shapedRight⟩ := shaped
    obtain ⟨_, hl, hr⟩ := Condition.isNnf_binary.mp normal
    rcases ihl shapedLeft hl leftOpen member with ⟨f, listed, named⟩ | ⟨g, same, inTail⟩
    · exact .inl ⟨f, List.mem_append_left _ listed, named⟩
    · -- The tail of the left side is the guard of the right side.
      cases same
      exact (ihr shapedRight hr rightOpen inTail).imp_left
        (Exists.imp fun _ => And.imp_left (List.mem_append_right _))
  | case3 => cases isOpen
  | case4 => cases isOpen
  | case5 c noOr noAnd _ inner =>
    rcases List.mem_cons.mp member with rfl | inTail
    · exact .inl (exists_fact_of_leaf shaped normal isOpen noOr noAnd)
    · exact .inr ⟨inner, rfl, inTail⟩
  | case6 c noOr noAnd _ =>
    cases List.mem_singleton.mp member
    exact .inl (exists_fact_of_leaf shaped normal isOpen noOr noAnd)

end Guard

/-! ## References of a directive -/

/-- The name of the custom property that is needed. -/
def Need.name : Need → String
  | fact f => f.name
  | prepared name _ => name

namespace Directive

variable {v : Condition.Vocabulary} (options : Options) {d : Directive}

/-- Whether the directive refers to this name: it is the guard of a branch that the directive has,
and the test is no constant. -/
def RefersTo (d : Directive) (name : String) : Prop :=
  d.test.constant? = none ∧
    (d.guardName "if-" d.positive = .ok name ∨
      d.alternate.isSome = true ∧ d.guardName "else-" d.negative = .ok name)

theorem escaped_need {stem : String} {c : Condition} (escaped : Escaped Guard.nameStops stem.toList)
    {need : Need} (needed : need ∈ d.branchNeeds options stem c) :
    Escaped Guard.nameStops need.name.toList := by
  cases need with
  | fact f => exact f.escaped_name (forall_of_all (by decide))
  | prepared name value =>
    obtain ⟨rfl, rfl⟩ := prepared_mem_branchNeeds needed
    rw [Need.name, String.toList_append]
    exact escaped.append (d.normal.escaped_name (forall_of_all (by decide)))

/-- The guard of a branch is one of the needs of the branch. -/
theorem exists_guardName (stem : String) {c : Condition} (shaped : c.Shaped v)
    (normal : c.isNnf = true) (isOpen : c.literal? = none)
    (sameKind : c.isJunction = d.normal.isJunction) :
    ∃ need ∈ d.branchNeeds options stem (c.dnf true),
      d.guardName stem (c.dnf true) = .ok need.name := by
  cases junction : d.normal.isJunction with
  | true =>
    refine ⟨.prepared (stem ++ d.normal.name) ((Guard.ofCondition none (c.dnf true)).text options),
      ?_, ?_⟩
    · rw [branchNeeds, junction]
      exact List.mem_append_right _ (List.mem_singleton_self _)
    · rw [guardName, junction]
      rfl
  | false =>
    rw [junction] at sameKind
    obtain ⟨f, rfl⟩ := Condition.exists_fact shaped normal isOpen sameKind
    rw [Condition.dnf_of_single shaped normal sameKind]
    refine ⟨.fact f, fact_mem_branchNeeds_iff.mpr (by simp [f.facts_condition]), ?_⟩
    rw [guardName, junction, f.ofCondition?_condition]
    rfl

theorem exists_guardName_if (shaped : d.test.Shaped v) (isOpen : d.test.constant? = none) :
    ∃ need ∈ d.branchNeeds options "if-" d.positive,
      d.guardName "if-" d.positive = .ok need.name ∧
        Escaped Guard.nameStops need.name.toList := by
  obtain ⟨need, needed, named⟩ := exists_guardName (d := d) options "if-" shaped.nnf
    (Condition.isNnf_nnf shaped) (literal?_normal isOpen) rfl
  exact ⟨need, needed, named, escaped_need options (.of_all (forall_of_all (by decide))) needed⟩

theorem exists_guardName_else (shaped : d.test.Shaped v) (isOpen : d.test.constant? = none) :
    ∃ need ∈ d.branchNeeds options "else-" d.negative,
      d.guardName "else-" d.negative = .ok need.name ∧
        Escaped Guard.nameStops need.name.toList := by
  have denied : d.normal.negate.Shaped v := shaped.nnf.negate
  obtain ⟨need, needed, named⟩ := exists_guardName (d := d) options "else-" denied.nnf
    (Condition.isNnf_nnf denied) (by simpa using literal?_normal isOpen) (by simp)
  exact ⟨need, needed, named, escaped_need options (.of_all (forall_of_all (by decide))) needed⟩

/-- A directive refers to names of its needs, and none of them has a bare comma or parenthesis. -/
theorem RefersTo.exists_need {name : String} (refers : d.RefersTo name)
    (shaped : d.test.Shaped v) :
    ∃ need ∈ d.needs options, need.name = name ∧ Escaped Guard.nameStops name.toList := by
  obtain ⟨isOpen, named⟩ := refers
  rw [needs_of_open options isOpen]
  rcases named with named | ⟨twoBranches, named⟩
  · obtain ⟨need, needed, same, escaped⟩ := exists_guardName_if options shaped isOpen
    cases named.symm.trans same
    exact ⟨need, List.mem_append_left _ needed, rfl, escaped⟩
  · -- The guard of the alternate is needed only where there is an alternate.
    obtain ⟨need, needed, same, escaped⟩ := exists_guardName_else options shaped isOpen
    cases named.symm.trans same
    rw [if_pos twoBranches]
    exact ⟨need, List.mem_append_right _ needed, rfl, escaped⟩

/-- What is prepared for a branch refers to the flags of the facts of the branch. -/
theorem referred_branch (c : Condition) (shaped : c.Shaped v) (normal : c.isNnf = true)
    (isOpen : c.literal? = none) {name : String}
    (member : name ∈ Guard.referred ((Guard.ofCondition none (c.dnf true)).text options).toList) :
    ∃ f ∈ (c.dnf true).facts, f.name = name := by
  have branch : (c.dnf true).Shaped v := shaped.nnf.distribute
  have branchNormal : (c.dnf true).isNnf = true := by
    rw [Condition.dnf, Condition.nnf_eq_of_isNnf normal]
    exact Condition.isNnf_distribute normal
  have branchOpen : (c.dnf true).literal? = none := by simpa [Condition.dnf] using isOpen
  have ofFact {name : String} (member : name ∈ (Guard.ofCondition none (c.dnf true)).names) :
      ∃ f ∈ (c.dnf true).facts, f.name = name :=
    (Guard.mem_names_ofCondition branch branchNormal branchOpen member).resolve_right (by simp)
  have legible : (Guard.ofCondition none (c.dnf true)).Legible :=
    Guard.legible_ofCondition branch branchOpen (by simp)
  have scanned := Guard.referred_text options legible (fun name member => by
    obtain ⟨f, _, rfl⟩ := ofFact member
    exact f.escaped_name (forall_of_all (by decide))) []
  rw [List.append_nil] at scanned
  rw [scanned] at member
  exact ofFact (by simpa [Guard.referred] using member)

/-- What is prepared for a directive refers to the flags of facts that the directive needs. -/
theorem referred_prepared (shaped : d.test.Shaped v) {title value name : String}
    (needed : .prepared title value ∈ d.needs options)
    (member : name ∈ Guard.referred value.toList) :
    ∃ need ∈ d.needs options, need.name = name := by
  have isOpen := constant?_of_mem_needs needed
  have normal : d.normal.Shaped v := shaped.nnf
  have normalOpen := literal?_normal isOpen
  rw [needs_of_open options isOpen] at needed ⊢
  rcases List.mem_append.mp needed with first | second
  · obtain ⟨_, rfl⟩ := prepared_mem_branchNeeds first
    obtain ⟨f, listed, rfl⟩ :=
      referred_branch options d.normal normal (Condition.isNnf_nnf shaped) normalOpen member
    exact ⟨.fact f, List.mem_append_left _ (fact_mem_branchNeeds_iff.mpr listed), rfl⟩
  · split at second
    · next twoBranches =>
      obtain ⟨_, rfl⟩ := prepared_mem_branchNeeds second
      obtain ⟨f, listed, rfl⟩ := referred_branch options d.normal.negate.nnf normal.negate.nnf
        (Condition.isNnf_nnf normal.negate) (by simpa using normalOpen) member
      rw [if_pos twoBranches]
      exact ⟨.fact f, List.mem_append_right _ (fact_mem_branchNeeds_iff.mpr listed), rfl⟩
    · cases second

end Directive

/-! ## Names that a block declares -/

/-- Reads the name of a declaration from the line that it begins on. -/
def Declaration.readName? : List Char → Option String
  | '-' :: '-' :: rest => (cut? ':' rest).map fun (name, _) => String.ofList name
  | _ => none

/-- The names that the text of a block declares. The values may be any text, also of many lines. -/
def declaredNames (text : String) : List String :=
  (text.toList.splitOn '\n').filterMap Declaration.readName?

/-- What stands before the first line break is the beginning of the first line. -/
theorem exists_splitOn_append {front : List Char} (sameLine : '\n' ∉ front) (rest : List Char) :
    ∃ line more, (front ++ rest).splitOn '\n' = (front ++ line) :: more := by
  induction front with
  | nil => exact List.exists_cons_of_ne_nil (List.splitOnP_ne_nil _ _)
  | cons c front ih =>
    obtain ⟨notBreak, others⟩ := not_or.mp (mt List.mem_cons.mpr sameLine)
    obtain ⟨line, more, lines⟩ := ih others
    refine ⟨line, more, ?_⟩
    rw [List.splitOn_eq_splitOnP] at lines ⊢
    rw [List.cons_append, List.splitOnP_cons_eq_if_modifyHead, if_neg, lines]
    · rfl
    · simpa using Ne.symm notBreak

theorem splitOn_declarationsText {declarations : List Declaration} (nonempty : declarations ≠ []) :
    (declarationsText declarations).toList.splitOn '\n' =
      declarations.flatMap (·.text.toList.splitOn '\n') := by
  induction declarations with
  | nil => exact absurd rfl nonempty
  | cons d rest ih =>
    cases rest with
    | nil => simp [declarationsText]
    | cons e rest =>
      have chars : (declarationsText (d :: e :: rest)).toList =
          d.text.toList ++ '\n' :: (declarationsText (e :: rest)).toList := by
        simp [declarationsText]
      rw [chars, List.splitOn_append_cons_self, ih (List.cons_ne_nil _ _)]
      rfl

theorem mem_declaredNames {declarations : List Declaration} {d : Declaration}
    (listed : d ∈ declarations) (spelled : Spelled d.name.toList) :
    d.name ∈ declaredNames (declarationsText declarations) := by
  have front : '\n' ∉ '-' :: '-' :: (d.name.toList ++ [':']) := by
    simp [spelled.newline_notMem]
  obtain ⟨line, more, lines⟩ := exists_splitOn_append front (d.value.toList ++ [';'])
  have text : d.text.toList =
      '-' :: '-' :: (d.name.toList ++ [':']) ++ (d.value.toList ++ [';']) := by
    simp [Declaration.toList_text]
  have read : Declaration.readName? ('-' :: '-' :: (d.name.toList ++ [':']) ++ line) =
      some d.name := by
    rw [List.cons_append, List.cons_append, List.append_assoc, List.singleton_append,
      Declaration.readName?, spelled.cut?_append (by decide)]
    exact congrArg some (String.ofList_toList ..)
  refine List.mem_filterMap.mpr ⟨_, ?_, read⟩
  rw [splitOn_declarationsText (List.ne_nil_of_mem listed)]
  refine List.mem_flatMap.mpr ⟨d, listed, ?_⟩
  rw [text, lines]
  exact List.mem_cons_self

namespace Sheet

/-- The names that the base block declares. -/
def baseNames (s : Sheet) : List String :=
  s.base?.toList.flatMap fun b => declaredNames b.declarations

section Sources

variable {title : String} {options : Options} {sources : List String}

theorem mem_baseNames_of_mem_baseOf {d : Declaration} {r : Registry} (listed : d ∈ baseOf r)
    (spelled : Spelled d.name.toList) : d.name ∈ (ofRegistry r).baseNames := by
  rw [baseNames, (fresh_ofRegistry r).base?_eq, Option.toList_some, List.flatMap_singleton]
  exact mem_declaredNames listed spelled

/-- The base block declares all that the directives need. -/
theorem mem_baseNames {d : Directive} (recorded : d ∈ Directive.recorded sources) {need : Need}
    (needed : need ∈ d.needs options) :
    need.name ∈ (ofSources title options sources).baseNames := by
  have sound := Registry.sound_ofSources title options sources
  cases need with
  | fact f =>
    have registered : f ∈ (Registry.ofSources title options sources).facts :=
      Registry.mem_facts_ofSources.mpr ⟨d, recorded, needed⟩
    have listed := mem_baseDefaults.mpr ⟨f, registered,
      (Rule.mem_defaults (sound.proper f registered)).mpr ⟨f, f.self_mem_family, rfl⟩⟩
    exact mem_baseNames_of_mem_baseOf (List.mem_append_right _ listed) f.spelled_name
  | prepared name value =>
    obtain ⟨final, entry⟩ := Registry.exists_mem_prepared_ofSources title recorded needed
    have listed : ⟨name, final⟩ ∈ baseOf (Registry.ofSources title options sources) :=
      List.mem_append_left _ (List.mem_map.mpr ⟨_, entry, rfl⟩)
    exact mem_baseNames_of_mem_baseOf listed (sound.names _ entry)

/-- A junction in the branch of another directive, which has no alternate. -/
example : (ofSources "scheme" {} ["if(a, if(b == c && !d, x, y))"]).baseNames =
    ["else-∣b≡c∣∧¬d", "if-∣b≡c∣∧¬d", "a", "d", "¬d", "b≡c", "b≠c"] := by decide +kernel

/-- A bag is accepted if all its properties are registered, whatever was serialized before. -/
theorem exists_serialize_iff {s : Sheet} {history : List Bag} {bag : Bag} :
    (∃ selection, ((s.serializeAll history).serialize bag).1 = .ok selection) ↔
      ∀ e ∈ bag.entries, e.1 ∈ s.properties.toList := by
  have answered : (∃ selection, ((s.serializeAll history).serialize bag).1 = .ok selection) ↔
      (s.serializeAll history).accepts bag = true := by
    constructor
    · rintro ⟨_, found⟩
      exact (serialize_eq_ok.mp found).1
    · intro accepted
      exact ⟨_, serialize_eq_ok.mpr ⟨accepted, rfl⟩⟩
  rw [answered, serializeAll_eq]
  simp [accepts, unregistered?, SortedSet.contains]

end Sources

end Sheet

end StyleFlags
