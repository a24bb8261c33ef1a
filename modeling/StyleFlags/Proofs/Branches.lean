import StyleFlags.Proofs.Guards
import StyleFlags.Proofs.States
import StyleFlags.Proofs.Verdict

/-!
# The branches of a directive

A directive becomes two references, each with a branch as its fallback, and the
guards of the branches are made apart: one from the test and one from its
negation. Both follow the verdict on the test.

Results:
1. `Condition.onFlags_eq_satisfied`: while flags follow their facts, a condition
   holds on the flags when it is satisfied on the bag.
2. `Directive.exists_guardNames`: the names of the two guards denote the two normal forms.
3. `Directive.exists_guards_verdict`: where they do, and while flags follow their facts, the
   guard of the consequent is on when the test holds, and that of the alternate when
   it does not.
-/

namespace StyleFlags

/-! ## Conditions of one fact -/

namespace Fact

theorem name_condition (f : Fact) : f.condition.name = f.name := by
  obtain ⟨property, test⟩ := f
  cases test with
  | truthy negated => rfl
  | compare op operand =>
    cases operand <;>
      simp only [condition, Operand.condition, Condition.name, Condition.op?, Condition.render,
        Bool.false_eq_true, if_false, if_true] <;> rfl

theorem facts_condition (f : Fact) : f.condition.facts = [f] := by
  obtain ⟨property, test⟩ := f
  cases test with
  | truthy negated => rfl
  | compare op operand => cases operand <;> rfl

theorem onFlags_condition (f : Fact) (flags : String → Bool) :
    f.condition.onFlags flags = flags f.name := by
  rw [← name_condition]
  obtain ⟨property, test⟩ := f
  cases test <;> rfl

end Fact

namespace Condition

variable {v : Vocabulary} {c : Condition}

@[simp] theorem isJunction_negate (c : Condition) : c.negate.isJunction = c.isJunction := by
  cases c <;> rfl

@[simp] theorem isJunction_nnf (c : Condition) : c.nnf.isJunction = c.isJunction := by
  fun_cases nnf c with
  | case1 op left right => rfl
  | case2 op left right => rfl
  | case3 op left right => rfl
  | case4 => rfl

/-- What is neither a literal nor a junction is the condition of a fact. -/
theorem exists_fact (shaped : c.Shaped v) (normal : c.isNnf = true) (isOpen : c.literal? = none)
    (single : c.isJunction = false) : ∃ f : Fact, c = f.condition := by
  cases c with
  | property negated name => exact ⟨⟨name, .truthy negated⟩, rfl⟩
  | literal negated l => cases isOpen
  | binary negated op left right =>
    obtain ⟨rfl, _⟩ := isNnf_binary.mp normal
    cases op with
    | junction op => cases single
    | compare op =>
      obtain ⟨⟨name, rfl, _⟩, operand⟩ := shaped
      cases right with
      | property negated other => exact ⟨⟨name, .compare op (.property other negated)⟩, rfl⟩
      | literal negated l =>
        cases operand.1
        exact ⟨⟨name, .compare op (.literal l)⟩, rfl⟩
      | binary negated found left right => exact operand.elim

/-- Nothing is distributed in a fact. -/
theorem dnf_of_single {perfect : Bool} (shaped : c.Shaped v) (normal : c.isNnf = true)
    (single : c.isJunction = false) : c.dnf perfect = c := by
  rw [dnf, nnf_eq_of_isNnf normal]
  cases c with
  | property negated name => exact distribute_property ..
  | literal negated l => exact distribute_literal ..
  | binary negated op left right =>
    cases op with
    | junction op => cases single
    | compare op =>
      obtain ⟨⟨name, rfl, _⟩, operand⟩ := shaped
      rw [distribute_binary, if_neg (by simp), distribute_property, operand.distribute_eq]

/-- While the flags of its facts follow the bag, a condition holds on the flags exactly when it is
satisfied on the bag. -/
theorem onFlags_eq_satisfied {flags : String → Bool} {bag : Bag} (shaped : c.Shaped v)
    (normal : c.isNnf = true)
    (follow : ∀ f ∈ c.facts, flags f.name = f.condition.satisfied bag) :
    c.onFlags flags = c.satisfied bag := by
  have single {c : Condition} (isFact : ∃ f : Fact, c = f.condition)
      (follow : ∀ f ∈ c.facts, flags f.name = f.condition.satisfied bag) :
      c.onFlags flags = c.satisfied bag := by
    obtain ⟨f, rfl⟩ := isFact
    rw [f.onFlags_condition]
    exact follow f (by simp [f.facts_condition])
  induction c with
  | property negated name => exact single (exists_fact shaped normal rfl rfl) follow
  | literal negated l => rw [satisfied_literal, onFlags]
  | binary negated op left right ihl ihr =>
    cases op with
    | compare op => exact single (exists_fact shaped normal rfl rfl) follow
    | junction op =>
      obtain ⟨_, hl, hr⟩ := isNnf_binary.mp normal
      obtain ⟨_, _, shapedLeft, shapedRight⟩ := shaped
      rw [satisfied_binary, onFlags,
        ihl shapedLeft hl fun f member => follow f (List.mem_append_left _ member),
        ihr shapedRight hr fun f member => follow f (List.mem_append_right _ member)]

end Condition

/-! ## Guards of branches -/

namespace Need

/-- The fact that is needed. -/
def fact? : Need → Option Fact
  | fact f => some f
  | prepared _ _ => none

theorem fact?_eq_some {need : Need} {f : Fact} : need.fact? = some f ↔ need = fact f := by
  cases need <;> simp [fact?]

/-- The value that is prepared under a name. -/
def preparedAs? (name : String) : Need → Option String
  | fact _ => none
  | prepared found value => if found = name then some value else none

theorem preparedAs?_eq_some {need : Need} {name value : String} :
    need.preparedAs? name = some value ↔ need = prepared name value := by
  cases need <;> simp [preparedAs?]

end Need

/-- Whether a name means a guard that is on exactly when the condition holds on the flags. -/
def Guard.Denotes (meaning : String → Option Guard) (name : String) (c : Condition) : Prop :=
  ∃ g, meaning name = some g ∧ ∀ flags, g.isOn flags = c.onFlags flags

namespace Directive

variable {v : Condition.Vocabulary} (options : Options) {d : Directive}

/-- What a custom property means to the directive: the guard that is prepared for it under this name,
and else the flag of this name. -/
def meaning? (options : Options) (d : Directive) (name : String) : Option Guard :=
  match (d.needs options).findSome? (Need.preparedAs? name) with
  | some value => Guard.read? value
  | none => some (.flag name)

/-- Whether the text of a directive with two branches lets the consequent show while `g` is on, and
the alternate while `h` is, by what names mean. -/
def GuardedBy (meaning : String → Option Guard) (d : Directive) (g h : Guard) : Prop :=
  ∃ first second alternate, d.alternate = some alternate ∧
    d.text = .ok (referenceOr first d.consequent ++ " " ++ referenceOr second alternate) ∧
    meaning first = some g ∧ meaning second = some h

/-- Whether each flag that the directive needs is on exactly when its fact holds on the bag. -/
def FlagsFollow (options : Options) (d : Directive) (flags : String → Bool) (bag : Bag) : Prop :=
  ∀ f, .fact f ∈ d.needs options → flags f.name = f.condition.satisfied bag

instance {flags : String → Bool} {bag : Bag} : Decidable (d.FlagsFollow options flags bag) :=
  decidable_of_iff (∀ f ∈ (d.needs options).filterMap Need.fact?,
    flags f.name = f.condition.satisfied bag) (by simp [FlagsFollow, Need.fact?_eq_some])

theorem findSome?_branchNeeds (stem name : String) (branch : Condition) :
    (d.branchNeeds options stem branch).findSome? (Need.preparedAs? name) =
      if d.normal.isJunction = true ∧ stem ++ d.normal.name = name then
        some ((Guard.ofCondition none branch).text options)
      else none := by
  have noFact : (branch.facts.map Need.fact).findSome? (Need.preparedAs? name) = none := by
    simp [Need.preparedAs?]
  rw [branchNeeds, List.findSome?_append, noFact, Option.none_or]
  cases d.normal.isJunction with
  | false => rfl
  | true => simp [Need.preparedAs?]

theorem needs_of_open (isOpen : d.test.constant? = none) :
    d.needs options = d.branchNeeds options "if-" d.positive ++
      if d.alternate.isSome then d.branchNeeds options "else-" d.negative else [] := by
  rw [needs, isOpen]
  rfl

/-- A directive that is no junction prepares nothing. -/
theorem meaning?_of_single (isOpen : d.test.constant? = none) (single : d.normal.isJunction = false)
    (name : String) : d.meaning? options name = some (.flag name) := by
  have nothing : (d.needs options).findSome? (Need.preparedAs? name) = none := by
    rw [needs_of_open options isOpen, List.findSome?_append, findSome?_branchNeeds, single,
      if_neg fun both => Bool.false_ne_true both.1, Option.none_or]
    split
    · rw [findSome?_branchNeeds, single, if_neg fun both => Bool.false_ne_true both.1]
    · rfl
  rw [meaning?, nothing]

theorem meaning?_if (isOpen : d.test.constant? = none) (junction : d.normal.isJunction = true) :
    d.meaning? options ("if-" ++ d.normal.name) =
      Guard.read? ((Guard.ofCondition none d.positive).text options) := by
  rw [meaning?, needs_of_open options isOpen, List.findSome?_append, findSome?_branchNeeds,
    if_pos ⟨junction, rfl⟩]
  rfl

theorem meaning?_else (isOpen : d.test.constant? = none) (junction : d.normal.isJunction = true)
    (twoBranches : d.alternate.isSome = true) :
    d.meaning? options ("else-" ++ d.normal.name) =
      Guard.read? ((Guard.ofCondition none d.negative).text options) := by
  have other : "if-" ++ d.normal.name ≠ "else-" ++ d.normal.name := by
    intro same
    have heads := congrArg (·.toList.head?) same
    simp [String.toList_append] at heads
  rw [meaning?, needs_of_open options isOpen, List.findSome?_append, findSome?_branchNeeds,
    if_neg fun both => other both.2, twoBranches, if_pos rfl, findSome?_branchNeeds,
    if_pos ⟨junction, rfl⟩]
  rfl

/-- The custom property of a branch denotes the normal form of the branch. -/
theorem exists_guardName_denotes (stem : String) {c : Condition} (shaped : c.Shaped v)
    (normal : c.isNnf = true) (isOpen : d.test.constant? = none) (branchOpen : c.literal? = none)
    (sameKind : c.isJunction = d.normal.isJunction)
    (prepared : d.normal.isJunction = true → d.meaning? options (stem ++ d.normal.name) =
      Guard.read? ((Guard.ofCondition none (c.dnf true)).text options)) :
    ∃ name, d.guardName stem (c.dnf true) = .ok name ∧
      Guard.Denotes (d.meaning? options) name (c.dnf true) := by
  -- A junction has its guard prepared; anything else is a fact, and its flag needs no preparing.
  cases junction : d.normal.isJunction with
  | true =>
    obtain ⟨g, read, same⟩ := Condition.exists_read_prepared options shaped normal branchOpen
    exact ⟨_, by rw [guardName, junction]; rfl, g, (prepared junction).trans read, same⟩
  | false =>
    rw [junction] at sameKind
    obtain ⟨f, rfl⟩ := Condition.exists_fact shaped normal branchOpen sameKind
    rw [Condition.dnf_of_single shaped normal sameKind]
    refine ⟨f.name, ?_, .flag f.name, meaning?_of_single options isOpen junction f.name, ?_⟩
    · rw [guardName, junction, f.ofCondition?_condition]
      rfl
    · intro flags
      rw [f.onFlags_condition, Guard.isOn]

theorem literal?_normal (isOpen : d.test.constant? = none) : d.normal.literal? = none :=
  (Condition.literal?_nnf _).trans (Condition.constant?_eq_none.mp isOpen)

/-- The names of the two guards of a directive denote the normal forms of the test and of its
negation. -/
theorem exists_guardNames (shaped : d.test.Shaped v) (isOpen : d.test.constant? = none)
    (twoBranches : d.alternate.isSome = true) :
    ∃ first second, d.guardName "if-" d.positive = .ok first ∧
      d.guardName "else-" d.negative = .ok second ∧
      Guard.Denotes (d.meaning? options) first d.positive ∧
      Guard.Denotes (d.meaning? options) second d.negative := by
  have normal : d.normal.Shaped v := shaped.nnf
  have normalOpen := literal?_normal isOpen
  obtain ⟨first, named, means⟩ := exists_guardName_denotes options "if-" normal
    (Condition.isNnf_nnf shaped) isOpen normalOpen rfl (meaning?_if options isOpen)
  obtain ⟨second, namedElse, meansElse⟩ := exists_guardName_denotes options "else-"
    normal.negate.nnf (Condition.isNnf_nnf normal.negate) isOpen (by simpa using normalOpen) (by simp)
    fun junction => meaning?_else options isOpen junction twoBranches
  exact ⟨first, second, named, namedElse, means, meansElse⟩

/-- While flags follow their facts, a normal form holds on the flags exactly when the verdict is that
the condition holds. -/
theorem onFlags_branch {c : Condition} (shaped : c.Shaped v) {flags : String → Bool} {bag : Bag}
    (follow : ∀ f ∈ (c.nnf.dnf true).facts, flags f.name = f.condition.satisfied bag) :
    (c.nnf.dnf true).onFlags flags = (c.verdict bag == some true) := by
  have normal := Condition.isNnf_nnf shaped
  rw [Condition.dnf, Condition.nnf_eq_of_isNnf normal] at follow ⊢
  rw [Condition.onFlags_eq_satisfied shaped.nnf.distribute (Condition.isNnf_distribute normal) follow,
    Condition.satisfied_distribute bag shaped.nnf, Condition.satisfied_of_isNnf bag shaped.nnf normal,
    Condition.verdict_nnf bag shaped]

/-- Where the names of the guards denote the normal forms, and while flags follow their facts, the
guards follow the verdict on the test. -/
theorem exists_guards_verdict (shaped : d.test.Shaped v) (isOpen : d.test.constant? = none)
    (twoBranches : d.alternate.isSome = true) {first second : String}
    (named : d.guardName "if-" d.positive = .ok first)
    (namedElse : d.guardName "else-" d.negative = .ok second) {meaning : String → Option Guard}
    (means : Guard.Denotes meaning first d.positive)
    (meansElse : Guard.Denotes meaning second d.negative) {flags : String → Bool} {bag : Bag}
    (follow : d.FlagsFollow options flags bag) :
    ∃ g h, d.GuardedBy meaning g h ∧
      g.isOn flags = (d.test.verdict bag == some true) ∧
      h.isOn flags = (d.test.verdict bag == some false) := by
  obtain ⟨g, isFirst, sameFirst⟩ := means
  obtain ⟨h, isSecond, sameSecond⟩ := meansElse
  obtain ⟨alternate, hasAlternate⟩ := Option.isSome_iff_exists.mp twoBranches
  have written : d.text = .ok (referenceOr first d.consequent ++ " " ++
      referenceOr second alternate) := by
    rw [text, isOpen, named, hasAlternate, namedElse]
    rfl
  have needs : d.needs options = d.branchNeeds options "if-" d.positive ++
      d.branchNeeds options "else-" d.negative := by
    rw [needs_of_open options isOpen, twoBranches, if_pos rfl]
  have needed {stem : String} {branch : Condition} {f : Fact} (member : f ∈ branch.facts) :
      .fact f ∈ d.branchNeeds options stem branch :=
    List.mem_append_left _ (List.mem_map_of_mem member)
  refine ⟨g, h, ⟨first, second, alternate, hasAlternate, written, isFirst, isSecond⟩, ?_, ?_⟩
  · rw [sameFirst]
    refine onFlags_branch shaped fun f member => follow f ?_
    rw [needs]
    exact List.mem_append_left _ (needed member)
  · have onFlags : d.negative.onFlags flags = (d.normal.negate.verdict bag == some true) := by
      refine onFlags_branch shaped.nnf.negate fun f member => follow f ?_
      rw [needs]
      exact List.mem_append_right _ (needed member)
    rw [sameSecond, onFlags, Condition.verdict_negate, normal, Condition.verdict_nnf bag shaped]
    rcases d.test.verdict bag with _ | _ | _ <;> rfl

end Directive

end StyleFlags
