import StyleFlags.Proofs.NormalForm
import StyleFlags.Proofs.References
import StyleFlags.Proofs.Registered

/-!
# Guards mean their conditions

A guard is made from a condition in disjunctive normal form. Making it needs no
more than that no junction is negated: an `&&` hands one side down as the tail of
the other, so the tail stands behind every flag that has to be on before it.

Results:
1. `Guard.isOn_ofCondition`: a guard is on when the condition holds on the flags
   and the tail is on.
2. `Guard.legible_ofCondition`: a guard of a condition without literals is made of
   flags, so its text reads back.
3. `exists_read_prepared`, `prepared_value_reads`: the text prepared for a junction
   says when its disjunctive normal form, and so the junction, holds on the flags.
-/

namespace StyleFlags

namespace Condition

/-! ## Truth by flags -/

/-- Whether a condition holds when each of its leaves, a property, a negated property or a
comparison, holds exactly while the flag of its name is on. -/
def onFlags (flags : String → Bool) : Condition → Bool
  | property negated name => flags (property negated name).name
  | literal negated l => negated ^^ l.truthy
  | binary negated (.junction op) left right =>
    negated ^^ op.combine (left.onFlags flags) (right.onFlags flags)
  | binary negated (.compare op) left right => flags (binary negated (.compare op) left right).name

theorem onFlags_of_leaf (flags : String → Bool) {c : Condition} (normal : c.isNnf = true)
    (noOr : ∀ left right, c = binary false (.junction .or) left right → False)
    (noAnd : ∀ left right, c = binary false (.junction .and) left right → False)
    (noLiteral : ∀ negated l, c = literal negated l → False) :
    c.onFlags flags = flags c.name := by
  cases c with
  | property negated name => rfl
  | literal negated l => exact (noLiteral negated l rfl).elim
  | binary negated op left right =>
    obtain ⟨rfl, _⟩ := isNnf_binary.mp normal
    cases op with
    | compare op => rfl
    | junction op =>
      cases op with
      | or => exact (noOr left right rfl).elim
      | and => exact (noAnd left right rfl).elim

/-- The truth of conditions by the state of flags. -/
def Valuation.byFlags (flags : String → Bool) : Valuation where
  truth := onFlags flags
  literal l := by rw [onFlags, Bool.false_xor]
  junction _ _ _ _ := rfl

end Condition

/-! ## Guards -/

namespace Guard

open Condition

variable {v : Vocabulary} {c : Condition} {tail : Option Guard}

/-- A guard is on when the condition holds on the flags, and the tail is on too. -/
theorem isOn_ofCondition (flags : String → Bool) (normal : c.isNnf = true) :
    (ofCondition tail c).isOn flags = (c.onFlags flags && tail.all (·.isOn flags)) := by
  fun_induction ofCondition tail c with
  | case1 tail left right ihl ihr =>
    obtain ⟨_, hl, hr⟩ := isNnf_binary.mp normal
    rw [isOn, ihl hl, ihr hr, ← Bool.and_or_distrib_right, onFlags, Bool.false_xor]
    rfl
  | case2 tail left right ihr ihl =>
    -- The right side, with the tail, has become the tail of the left side.
    obtain ⟨_, hl, hr⟩ := isNnf_binary.mp normal
    rw [ihl hl, Option.all_some, ihr hr, ← Bool.and_assoc, onFlags, Bool.false_xor]
    rfl
  | case3 tail negated l truthy =>
    have plain : negated = false := by simpa [isNnf] using normal
    rw [onFlags, plain, truthy]
    cases tail <;> rfl
  | case4 tail negated l falsy =>
    have plain : negated = false := by simpa [isNnf] using normal
    rw [onFlags, plain, eq_false_of_ne_true falsy]
    rfl
  | case5 c noOr noAnd noLiteral inner =>
    rw [isOn, onFlags_of_leaf flags normal noOr noAnd noLiteral]
    rfl
  | case6 c noOr noAnd noLiteral =>
    rw [isOn, onFlags_of_leaf flags normal noOr noAnd noLiteral]
    exact (Bool.and_true _).symm

/-- A guard of a condition without literals is made of flags. -/
theorem legible_ofCondition (shaped : c.Shaped v) (isOpen : c.literal? = none)
    (legible : ∀ g ∈ tail, g.Legible) : (ofCondition tail c).Legible := by
  have named (c : Condition) : Escaped nameStops c.name.toList :=
    c.escaped_name (forall_of_all (by decide))
  fun_induction ofCondition tail c with
  | case1 tail left right ihl ihr =>
    obtain ⟨leftOpen, rightOpen, hl, hr⟩ := shaped
    exact ⟨ihl hl leftOpen legible, ihr hr rightOpen legible⟩
  | case2 tail left right ihr ihl =>
    obtain ⟨leftOpen, rightOpen, hl, hr⟩ := shaped
    refine ihl hl leftOpen fun g same => ?_
    cases same
    exact ihr hr rightOpen legible
  | case3 => cases isOpen
  | case4 => cases isOpen
  | case5 c _ _ _ inner => exact ⟨named c, legible inner rfl⟩
  | case6 c => exact named c

end Guard

/-! ## Prepared values -/

namespace Condition

/-- What is prepared for a condition that is no literal reads back, and is on exactly when the
disjunctive normal form holds on the flags. -/
theorem exists_read_prepared {v : Vocabulary} {c : Condition} (options : Options)
    (shaped : c.Shaped v) (normal : c.isNnf = true) (isOpen : c.literal? = none) :
    ∃ g, Guard.read? ((Guard.ofCondition none (c.dnf true)).text options) = some g ∧
      ∀ flags, g.isOn flags = (c.dnf true).onFlags flags := by
  have legible : (Guard.ofCondition none (c.dnf true)).Legible :=
    Guard.legible_ofCondition shaped.nnf.distribute (by simpa [dnf] using isOpen) (by simp)
  obtain ⟨g, read, same⟩ := Guard.isOn_read?_text options legible
  refine ⟨g, read, fun flags => ?_⟩
  rw [same, dnf, nnf_eq_of_isNnf normal, Guard.isOn_ofCondition flags (isNnf_distribute normal),
    Option.all_none, Bool.and_true]

/-- The text prepared for a junction in negation normal form says of every state of the flags whether
the junction holds. -/
theorem prepared_value_reads (options : Options) {t : Condition} (built : t.Built)
    (normal : t.isNnf = true) (junction : t.isJunction = true) :
    ∃ g, Guard.read? ((Guard.ofCondition none (t.dnf true)).text options) = some g ∧
      ∀ flags, g.isOn flags = t.onFlags flags := by
  have isOpen : t.literal? = none := by
    cases t with
    | property negated name => cases junction
    | literal negated l => cases junction
    | binary negated op left right => rfl
  obtain ⟨g, read, same⟩ := exists_read_prepared options built.shaped normal isOpen
  refine ⟨g, read, fun flags => ?_⟩
  rw [same, dnf, nnf_eq_of_isNnf normal]
  exact (Valuation.byFlags flags).truth_distribute built.shaped

/-- `a && (label == 'x)' || !b)`, where the name of a flag holds a parenthesis. -/
def exSplit : Condition :=
  binary false (.junction .and) (property false "a")
    (binary false (.junction .or)
      (binary false (.compare .eq) (property false "label") (literal false ⟨.string, "x)"⟩))
      (property true "b"))

theorem prepared_value_reads_exSplit :
    ∃ g, Guard.read? "var(--label≡´x\\)´,var(--a)) var(--¬b,var(--a))" = some g ∧
      g.isOn (["a", "¬b"].contains ·) = true ∧ g.isOn (["¬b", "label≡´x\\)´"].contains ·) = false := by
  have equal : Built (binary false (.compare .eq) (property false "label")
      (literal false ⟨.string, "x)"⟩)) :=
    @Built.infixed (.binary (.compare .eq)) _ _ _ (.property "label") (.literal ⟨.string, "x)"⟩) rfl
  have built : exSplit.Built :=
    @Built.infixed (.binary (.junction .and)) _ _ _ (.property "a")
      (@Built.infixed (.binary (.junction .or)) _ _ _ equal (.negate (.property "b")) rfl) rfl
  obtain ⟨g, read, same⟩ := prepared_value_reads {} built rfl rfl
  have value : (Guard.ofCondition none (exSplit.dnf true)).text {} =
      "var(--label≡´x\\)´,var(--a)) var(--¬b,var(--a))" := by decide +kernel
  rw [value] at read
  exact ⟨g, read, (same _).trans (by decide +kernel), (same _).trans (by decide +kernel)⟩

end Condition

end StyleFlags
