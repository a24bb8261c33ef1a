import StyleFlags.Condition.Basic
import StyleFlags.Ordered

/-!
# Facts

A fact is one test of one property: its truthiness, or its comparison with a
literal or with another property. The leaves and comparisons of a condition are
facts, and every fact owns one flag. Facts are listed by property and then by
test, in the order that `Test.key` gives.
-/

namespace StyleFlags

/-- What a property is compared with. -/
inductive Operand where
  | literal (l : Literal)
  | property (name : String) (negated : Bool)
deriving DecidableEq, Repr

namespace Operand

/-- The property that the operand reads. -/
def property? : Operand → Option String
  | literal _ => none
  | property name _ => some name

/-- The type that the operand names. -/
def typeName? : Operand → Option String
  | literal l => l.typeName?
  | property _ _ => none

def name : Operand → String
  | literal l => Name.literal l
  | property name negated => Name.property name negated

def text : Operand → String
  | literal l => l.spelling
  | property name negated => if negated then "!" ++ name else name

/-- The operand that a leaf of a condition is. -/
def ofCondition? : Condition → Option Operand
  | .literal _ l => some (literal l)
  | .property negated name => some (property name negated)
  | .binary _ _ _ _ => none

/-- The place of an operand among operands: literals by kind and text, then properties. -/
def key : Operand → Nat × String × Nat
  | literal l => (l.kind.rank, l.text, 0)
  | property name negated => (5, name, negated.toNat)

theorem key_injective {a b : Operand} (same : a.key = b.key) : a = b := by
  cases a with
  | literal l =>
    cases b with
    | literal m =>
      simp only [key, Prod.mk.injEq, and_true] at same
      have kinds := LiteralKind.rank_injective same.1
      have texts := same.2
      cases l
      cases m
      simp_all
    | property name negated =>
      have := l.kind.rank_lt
      simp only [key, Prod.mk.injEq] at same
      omega
  | property name negated =>
    cases b with
    | literal m =>
      have := m.kind.rank_lt
      simp only [key, Prod.mk.injEq] at same
      omega
    | property other flipped =>
      simp only [key, Prod.mk.injEq, true_and] at same
      cases negated <;> cases flipped <;> simp_all

end Operand

/-- What a fact says about its property. -/
inductive Test where
  | truthy (negated : Bool)
  | compare (op : Comparison) (operand : Operand)
deriving DecidableEq, Repr

namespace Test

/-- The place of a test among the tests of a property: truthiness first, then comparisons by
operator and operand. -/
def key : Test → Nat × Nat × String × Nat
  | truthy negated => (negated.toNat, 0, "", 0)
  | compare op operand => (2 + op.rank, operand.key)

theorem key_injective {a b : Test} (same : a.key = b.key) : a = b := by
  cases a with
  | truthy p =>
    cases b with
    | truthy q => cases p <;> cases q <;> simp_all [key]
    | compare op operand =>
      simp only [key, Prod.mk.injEq] at same
      have small := Bool.toNat_le p
      omega
  | compare op operand =>
    cases b with
    | truthy q =>
      simp only [key, Prod.mk.injEq] at same
      have small := Bool.toNat_le q
      omega
    | compare other operand' =>
      simp only [key, Prod.mk.injEq] at same
      rw [Comparison.rank_injective (Nat.add_left_cancel same.1), Operand.key_injective same.2]

/-- The order of two tests. -/
def order : Test → Test → Ordering :=
  compareLex (compareOn (·.key.1)) <|
    compareLex (compareOn (·.key.2.1)) <|
      compareLex (compareOn (·.key.2.2.1)) (compareOn (·.key.2.2.2))

instance : Ord Test := ⟨order⟩

instance : Std.TransCmp order := by
  unfold order
  infer_instance

instance : Std.TransOrd Test := inferInstanceAs (Std.TransCmp order)

instance : Std.LawfulEqOrd Test where
  compare_self := by
    intro a
    exact Std.ReflCmp.compare_self (α := Test)
  eq_of_compare {a b} same := by
    have fields : order a b = .eq := same
    simp only [order, compareLex_eq_eq, compareOn, Std.compare_eq_iff_eq] at fields
    exact key_injective (Prod.ext fields.1 (Prod.ext fields.2.1 (Prod.ext fields.2.2.1 fields.2.2.2)))

end Test

/-- One test of one property. -/
structure Fact where
  property : String
  test : Test
deriving DecidableEq, Repr

namespace Fact

/-- The name of the flag of a fact. -/
def name (f : Fact) : String :=
  match f.test with
  | .truthy negated => Name.property f.property negated
  | .compare op operand => Name.property f.property false ++ op.glyph.toString ++ operand.name

/-- The other property that the fact reads. -/
def dependency? (f : Fact) : Option String :=
  match f.test with
  | .truthy _ => none
  | .compare _ operand => operand.property?

def text (f : Fact) : String :=
  match f.test with
  | .truthy negated => if negated then "!" ++ f.property else f.property
  | .compare op operand => f.property ++ " " ++ op.symbol ++ " " ++ operand.text

/-- The order of facts: by property, then by test. -/
instance : Ord Fact := ⟨compareLex (compareOn property) (compareOn test)⟩

/-- The fact that a leaf or a comparison is. A negated comparison is the dual one. -/
def ofCondition? : Condition → Option Fact
  | .property negated name => some ⟨name, .truthy negated⟩
  | .binary negated (.compare op) left right => do
    let name ← left.property?
    let operand ← Operand.ofCondition? right
    some ⟨name, .compare (if negated then op.dual else op) operand⟩
  | _ => none

end Fact

/-- The facts below the junctions of a condition, from left to right. -/
def Condition.facts : Condition → List Fact
  | .binary _ (.junction _) left right => left.facts ++ right.facts
  | c => (Fact.ofCondition? c).toList

end StyleFlags
