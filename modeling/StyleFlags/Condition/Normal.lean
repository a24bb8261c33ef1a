import StyleFlags.Condition.Build

/-!
# Normal forms

Pushing negations down to the leaves, and distributing one connective over the
other. Distribution comes in two strengths: one pass over the tree, or
`perfect`, which goes on below every node that it has opened. It ends because
each step lowers a weight that multiplies under the connective being
distributed and adds under all others.
-/

namespace StyleFlags.Condition

/-! ## Negations -/

/-- Negates a binary node twice over: its operator becomes the dual one, the two sides of a junction
are negated, and so is the node. Leaves stay as they are. -/
def deMorgan : Condition → Condition
  | binary negated (.junction op) left right =>
    binary (!negated) (.junction op.dual) left.negate right.negate
  | binary negated (.compare op) left right => binary (!negated) (.compare op.dual) left right
  | leaf => leaf

/-- The number of nodes. -/
def size : Condition → Nat
  | property _ _ => 1
  | literal _ _ => 1
  | binary _ _ left right => left.size + right.size + 1

@[simp] theorem size_negate (c : Condition) : c.negate.size = c.size := by
  cases c <;> rfl

/-- Pushes every negation down to the leaves. -/
def nnf : Condition → Condition
  | binary true (.junction op) left right =>
    binary false (.junction op.dual) left.negate.nnf right.negate.nnf
  | binary true (.compare op) left right => binary false (.compare op.dual) left.nnf right.nnf
  | binary false op left right => binary false op left.nnf right.nnf
  | leaf => leaf
termination_by c => c.size
decreasing_by all_goals (simp only [size, size_negate]; omega)

/-! ## Distribution -/

/-- The two sides of a junction with this connective that is not negated. -/
def sides? (op : Connective) : Condition → Option (Condition × Condition)
  | binary false (.junction found) left right => if found = op then some (left, right) else none
  | _ => none

/-- Of the two sides of a junction, one that is itself a junction with the connective `op`, by its
two sides, and the other one. The left side is tried first. -/
def opened? (op : Connective) (left right : Condition) :
    Option (Condition × Condition × Condition) :=
  match left.sides? op with
  | some (first, second) => some (first, second, right)
  | none => (right.sides? op).map fun (first, second) => (first, second, left)

/-- Joins `side` with what is distributed over it, unless they are the same. -/
def pair (target : Connective) (side injected : Condition) : Condition :=
  if side = injected then side else junction target side injected

/-- Whether the node has this connective, negated or not. -/
def carries (op : Connective) (c : Condition) : Bool := c.op? = some (.junction op)

/-- The weight that every step of distributing `target` lowers. -/
def weight (target : Connective) : Condition → Nat
  | property _ _ => 2
  | literal _ _ => 2
  | binary _ op left right =>
    if op = .junction target then left.weight target * right.weight target
    else left.weight target + right.weight target + 1

theorem two_le_weight (target : Connective) (c : Condition) : 2 ≤ c.weight target := by
  induction c with
  | property => simp [weight]
  | literal => simp [weight]
  | binary _ _ left right hl hr =>
    simp only [weight]
    split
    · exact Nat.le_trans (by decide : 2 ≤ 2 * 2) (Nat.mul_le_mul hl hr)
    · omega

theorem weight_junction_le (target : Connective) (left right : Condition) :
    (junction target left right).weight target ≤ left.weight target * right.weight target := by
  have hl := two_le_weight target left
  have hr := two_le_weight target right
  have hlr : 2 * 2 ≤ left.weight target * right.weight target := Nat.mul_le_mul hl hr
  have keepLeft : left.weight target ≤ left.weight target * right.weight target :=
    Nat.le_mul_of_pos_right _ (by omega)
  have keepRight : right.weight target ≤ left.weight target * right.weight target :=
    Nat.le_mul_of_pos_left _ (by omega)
  unfold junction
  split
  · simp only [boolean, weight]; omega
  · split
    · simp only [boolean, weight]; omega
    · exact keepRight
  · split
    · simp only [boolean, weight]; omega
    · exact keepLeft
  · simp [weight]

theorem weight_pair_le (target : Connective) (side injected : Condition) :
    (pair target side injected).weight target ≤
      side.weight target * injected.weight target := by
  unfold pair
  split
  · have := two_le_weight target injected
    exact Nat.le_mul_of_pos_right _ (by omega)
  · exact weight_junction_le target side injected

theorem weight_of_sides? {target : Connective} {c first second : Condition}
    (found : c.sides? target.dual = some (first, second)) :
    c.weight target = first.weight target + second.weight target + 1 := by
  unfold sides? at found
  split at found
  · split at found
    · next same =>
      cases found
      simp [weight, same, Connective.dual_ne]
    · cases found
  · cases found

theorem weight_of_opened? {target : Connective} {left right first second injected : Condition}
    (found : opened? target.dual left right = some (first, second, injected)) :
    (first.weight target + second.weight target + 1) * injected.weight target =
      left.weight target * right.weight target := by
  unfold opened? at found
  split at found
  · next onLeft =>
    cases found
    rw [weight_of_sides? onLeft]
  · rw [Option.map_eq_some_iff] at found
    obtain ⟨⟨a, b⟩, onRight, same⟩ := found
    cases same
    rw [weight_of_sides? onRight, Nat.mul_comm]

/-- Distributes `target` over its dual, below and then at each node, with the bound on the weight
that makes the process end. -/
def distributeBounded (target : Connective) (perfect : Bool) (c : Condition) :
    { d : Condition // d.weight target ≤ c.weight target } :=
  match c with
  | property negated name => ⟨property negated name, Nat.le_refl _⟩
  | literal negated l => ⟨literal negated l, Nat.le_refl _⟩
  | binary negated op left right =>
    have hl := two_le_weight target left
    have hr := two_le_weight target right
    have leftLess : left.weight target < (binary negated op left right).weight target := by
      simp only [weight]
      split
      · have := Nat.mul_le_mul_left (left.weight target) hr; omega
      · omega
    have rightLess : right.weight target < (binary negated op left right).weight target := by
      simp only [weight]
      split
      · have := Nat.mul_le_mul_right (right.weight target) hl; omega
      · omega
    let below := distributeBounded target perfect left
    let beside := distributeBounded target perfect right
    have kept : (binary negated op below.val beside.val).weight target ≤
        (binary negated op left right).weight target := by
      have h₁ := below.property
      have h₂ := beside.property
      simp only [weight]
      split
      · exact Nat.mul_le_mul h₁ h₂
      · omega
    if isTarget : op = .junction target then
      match found : opened? target.dual below.val beside.val with
      | none => ⟨binary negated op below.val beside.val, kept⟩
      | some (first, second, injected) =>
        let onFirst := pair target first injected
        let onSecond := pair target second injected
        have total : (first.weight target + second.weight target + 1) * injected.weight target ≤
            (binary negated op left right).weight target := by
          rw [weight_of_opened? found]
          simpa only [weight, isTarget, if_true] using kept
        have hi := two_le_weight target injected
        have spread : first.weight target * injected.weight target +
            second.weight target * injected.weight target + injected.weight target ≤
            (binary negated op left right).weight target := by
          rw [Nat.add_mul, Nat.add_mul, Nat.one_mul] at total
          exact total
        have firstBound := weight_pair_le target first injected
        have secondBound := weight_pair_le target second injected
        have firstLess : onFirst.weight target < (binary negated op left right).weight target := by
          simp only [onFirst]; omega
        have secondLess :
            onSecond.weight target < (binary negated op left right).weight target := by
          simp only [onSecond]; omega
        if perfect && (injected.carries target.dual || first.carries target.dual ||
            second.carries target.dual) then
          let again := distributeBounded target perfect onFirst
          let andAgain := distributeBounded target perfect onSecond
          ⟨binary negated (.junction target.dual) again.val andAgain.val, by
            have h₁ := again.property
            have h₂ := andAgain.property
            simp only [onFirst] at h₁
            simp only [onSecond] at h₂
            simp only [weight, BinaryOperator.junction.injEq, Connective.dual_ne, if_false] at spread ⊢
            omega⟩
        else
          ⟨binary negated (.junction target.dual) onFirst onSecond, by
            simp only [onFirst, onSecond]
            simp only [weight, BinaryOperator.junction.injEq, Connective.dual_ne, if_false] at spread ⊢
            omega⟩
    else ⟨binary negated op below.val beside.val, kept⟩
termination_by c.weight target

/-- Distributes `target` over its dual. -/
def distribute (target : Connective) (perfect : Bool) (c : Condition) : Condition :=
  (distributeBounded target perfect c).val

/-- One junction of two distributed sides: opened if a side can be opened, and then, if `perfect`
asks for it, distributed again below. -/
def distributeJunction (target : Connective) (perfect : Bool) (negated : Bool)
    (left right : Condition) : Condition :=
  match opened? target.dual left right with
  | none => binary negated (.junction target) left right
  | some (first, second, injected) =>
    let onFirst := pair target first injected
    let onSecond := pair target second injected
    if perfect && (injected.carries target.dual || first.carries target.dual ||
        second.carries target.dual) then
      binary negated (.junction target.dual) (distribute target perfect onFirst)
        (distribute target perfect onSecond)
    else binary negated (.junction target.dual) onFirst onSecond

@[simp] theorem distribute_property (target : Connective) (perfect negated : Bool) (name : String) :
    distribute target perfect (property negated name) = property negated name := by
  rw [distribute, distributeBounded]

@[simp] theorem distribute_literal (target : Connective) (perfect negated : Bool) (l : Literal) :
    distribute target perfect (literal negated l) = literal negated l := by
  rw [distribute, distributeBounded]

theorem distribute_binary (target : Connective) (perfect negated : Bool) (op : BinaryOperator)
    (left right : Condition) :
    distribute target perfect (binary negated op left right) =
      if op = .junction target then
        distributeJunction target perfect negated (distribute target perfect left)
          (distribute target perfect right)
      else
        binary negated op (distribute target perfect left) (distribute target perfect right) := by
  rw [distribute, distributeBounded]
  split
  · next isTarget =>
    subst isTarget
    simp only [distributeJunction, distribute]
    split
    · next found => rw [found]
    · next found =>
      simp only [found]
      split <;> rfl
  · rfl

/-- Conjunctive normal form: `||` is distributed over `&&`. -/
def cnf (perfect : Bool) (c : Condition) : Condition := distribute .or perfect c.nnf

/-- Disjunctive normal form: `&&` is distributed over `||`. -/
def dnf (perfect : Bool) (c : Condition) : Condition := distribute .and perfect c.nnf

end StyleFlags.Condition
