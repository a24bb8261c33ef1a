import StyleFlags.Condition.Normal
import StyleFlags.Fact
import StyleFlags.Guard

/-!
# Directives

A directive `if(test, consequent, alternate)` becomes references to custom
properties, each with a branch as its fallback. A test of a single fact refers
to the flag of the fact and to the flag of its negation. A junction refers to
two prepared values, `if-…` and `else-…`, which are guards over the flags of
its facts. A constant test leaves one branch and refers to nothing.
-/

namespace StyleFlags

/-- A directive with its branches, in which nested directives are already replaced. -/
structure Directive where
  test : Condition
  consequent : String
  alternate : Option String
deriving DecidableEq, Repr

/-- What a directive needs of the sheet it is used with. -/
inductive Need where
  | fact (f : Fact)
  | prepared (name value : String)
deriving DecidableEq, Repr

namespace Directive

/-- The test with its negations at the leaves. -/
def normal (d : Directive) : Condition := d.test.nnf

/-- The condition of the consequent, in disjunctive normal form. -/
def positive (d : Directive) : Condition := d.normal.dnf true

/-- The condition of the alternate, in disjunctive normal form. -/
def negative (d : Directive) : Condition := d.normal.negate.nnf.dnf true

/-- The custom property that guards a branch: a prepared value for a junction, else a flag. -/
def guardName (d : Directive) (stem : String) (branch : Condition) : Except CompileError String :=
  if d.normal.isJunction then .ok (stem ++ d.normal.name)
  else
    match Fact.ofCondition? branch with
    | some f => .ok f.name
    | none => .error (.malformed branch.text .noCondition)

/-- What takes the place of the directive. -/
def text (d : Directive) : Except CompileError String := do
  match d.test.constant? with
  | some truth => return if truth then d.consequent else d.alternate.getD ""
  | none =>
    let first := referenceOr (← d.guardName "if-" d.positive) d.consequent
    match d.alternate with
    | none => return first
    | some alternate =>
      return first ++ " " ++ referenceOr (← d.guardName "else-" d.negative) alternate

/-- What one branch needs: the facts of its condition, and for a junction its guard. -/
def branchNeeds (options : Options) (d : Directive) (stem : String) (branch : Condition) :
    List Need :=
  branch.facts.map .fact ++
    if d.normal.isJunction then
      [.prepared (stem ++ d.normal.name) ((Guard.ofCondition none branch).text options)]
    else []

/-- What the directive needs. -/
def needs (options : Options) (d : Directive) : List Need :=
  if d.test.constant?.isSome then []
  else
    d.branchNeeds options "if-" d.positive ++
      if d.alternate.isSome then d.branchNeeds options "else-" d.negative else []

end Directive

end StyleFlags
