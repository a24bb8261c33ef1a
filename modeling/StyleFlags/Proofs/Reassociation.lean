import StyleFlags.Condition.Build
import StyleFlags.Condition.Evaluate

/-!
# The grouping of chains

A junction below a junction with the same connective is written without bars
or brackets, unless it is negated. So a text cannot tell how such a chain is
grouped, and neither can a value.

Results:
1. `Reassociated.render_eq`, `Reassociated.evaluate_eq`: conditions that differ in
   the grouping of chains only have the same texts, and the same value on every bag.
2. `reassociated_leftward`: every chain can be grouped to the left.
3. `attach_assoc`: chains that lean to the left are joined by a rule that is
   associative, so it does not matter in which order their parts come together.
-/

namespace StyleFlags.Condition

/-! ## Conditions that differ in grouping only -/

/-- Equality up to the grouping of directly nested junctions with one connective, of which the inner
one is not negated. -/
inductive Reassociated : Condition → Condition → Prop
  | refl (c : Condition) : Reassociated c c
  | symm {c d : Condition} : Reassociated c d → Reassociated d c
  | trans {c d e : Condition} : Reassociated c d → Reassociated d e → Reassociated c e
  | sides (negated : Bool) (op : BinaryOperator) {left right left' right' : Condition} :
      Reassociated left left' → Reassociated right right' →
      Reassociated (binary negated op left right) (binary negated op left' right')
  | rotate (negated : Bool) (op : Connective) (a b c : Condition) :
      Reassociated (binary negated (.junction op) (binary false (.junction op) a b) c)
        (binary negated (.junction op) a (binary false (.junction op) b c))

namespace Reassociated

variable {c d : Condition}

theorem op?_eq (same : Reassociated c d) : c.op? = d.op? := by
  induction same with
  | refl c => rfl
  | symm _ ih => exact ih.symm
  | trans _ _ ih ih' => exact ih.trans ih'
  | sides negated op _ _ _ _ => rfl
  | rotate negated op a b c => rfl

theorem literal?_eq (same : Reassociated c d) : c.literal? = d.literal? := by
  induction same with
  | refl c => rfl
  | symm _ ih => exact ih.symm
  | trans _ _ ih ih' => exact ih.trans ih'
  | sides negated op _ _ _ _ => rfl
  | rotate negated op a b c => rfl

theorem negate (same : Reassociated c d) : Reassociated c.negate d.negate := by
  induction same with
  | refl c => exact .refl _
  | symm _ ih => exact ih.symm
  | trans _ _ ih ih' => exact ih.trans ih'
  | sides negated op left right _ _ => exact .sides (!negated) op left right
  | rotate negated op a b c => exact .rotate (!negated) op a b c

theorem render_eq (same : Reassociated c d) (s : Spelling) (parent : Option BinaryOperator) :
    c.render s parent = d.render s parent := by
  induction same generalizing parent with
  | refl c => rfl
  | symm _ ih => exact (ih parent).symm
  | trans _ _ ih ih' => exact (ih parent).trans (ih' parent)
  | sides negated op _ _ left right => simp only [render, left, right]
  | rotate negated op a b c => simp [render, String.append_assoc]

theorem text_eq (same : Reassociated c d) : c.text = d.text := by
  rw [text, text, same.op?_eq, same.render_eq]

theorem name_eq (same : Reassociated c d) : c.name = d.name := by
  rw [name, name, same.op?_eq, same.render_eq]

theorem evaluate_eq (same : Reassociated c d) (bag : Bag) : c.evaluate bag = d.evaluate bag := by
  induction same with
  | refl c => rfl
  | symm _ ih => exact ih.symm
  | trans _ _ ih ih' => exact ih.trans ih'
  | sides negated op _ sameRight left right =>
    cases op with
    | junction op => cases op <;> simp only [evaluate, left, right]
    | compare op => simp only [evaluate, left, right, sameRight.literal?_eq]
  | rotate negated op a b c =>
    cases op with
    | or => cases first : (a.evaluate bag).truthy <;> simp [evaluate, Value.signed, first]
    | and => cases first : (a.evaluate bag).truthy <;> simp [evaluate, Value.signed, first]

end Reassociated

/-! ## Chains that lean to the left -/

/-- Joins two conditions under a connective. What is a chain of that connective already is taken
apart, so that a chain that leans to the left goes on leaning to the left. -/
def attach (op : Connective) (left : Condition) : Condition → Condition
  | binary negated found first last =>
    if negated = false ∧ found = .junction op then
      binary false (.junction op) (attach op left first) last
    else binary false (.junction op) left (binary negated found first last)
  | c => binary false (.junction op) left c

/-- The condition with all its chains grouped to the left. -/
def leftward : Condition → Condition
  | binary negated (.junction op) left right =>
    if negated then (attach op left.leftward right.leftward).negate
    else attach op left.leftward right.leftward
  | binary negated (.compare op) left right =>
    binary negated (.compare op) left.leftward right.leftward
  | c => c

variable {op : Connective} {left right : Condition}

theorem attach_chain (first last : Condition) :
    attach op left (binary false (.junction op) first last) =
      binary false (.junction op) (attach op left first) last := by
  simp [attach]

theorem attach_of_not_chain
    (apart : ∀ first last, right ≠ binary false (.junction op) first last) :
    attach op left right = binary false (.junction op) left right := by
  cases right with
  | property negated name => rfl
  | literal negated l => rfl
  | binary negated found first last =>
    refine if_neg ?_
    rintro ⟨rfl, rfl⟩
    exact apart first last rfl

theorem attach_eq_binary (op : Connective) (left right : Condition) :
    ∃ first last, attach op left right = binary false (.junction op) first last := by
  by_cases chain : ∃ first last, right = binary false (.junction op) first last
  · obtain ⟨first, last, rfl⟩ := chain
    exact ⟨_, _, attach_chain first last⟩
  · refine ⟨left, right, attach_of_not_chain ?_⟩
    rintro first last rfl
    exact chain ⟨first, last, rfl⟩

theorem attach_assoc (op : Connective) (a b c : Condition) :
    attach op (attach op a b) c = attach op a (attach op b c) := by
  induction c with
  | property negated name => exact (attach_chain b _).symm
  | literal negated l => exact (attach_chain b _).symm
  | binary negated found first last ih _ =>
    by_cases chain : negated = false ∧ found = .junction op
    · obtain ⟨rfl, rfl⟩ := chain
      simp only [attach_chain, ih]
    · have apart : ∀ l r, binary negated found first last ≠ binary false (.junction op) l r := by
        rintro l r same
        cases same
        exact chain ⟨rfl, rfl⟩
      rw [attach_of_not_chain apart, attach_of_not_chain apart, attach_chain]

theorem reassociated_attach (op : Connective) (left right : Condition) :
    Reassociated (binary false (.junction op) left right) (attach op left right) := by
  induction right with
  | property negated name => exact .refl _
  | literal negated l => exact .refl _
  | binary negated found first last ih _ =>
    by_cases chain : negated = false ∧ found = .junction op
    · obtain ⟨rfl, rfl⟩ := chain
      rw [attach_chain]
      exact (Reassociated.rotate false op left first last).symm.trans (.sides false _ ih (.refl last))
    · rw [attach, if_neg chain]
      exact .refl _

theorem reassociated_leftward (c : Condition) : Reassociated c c.leftward := by
  induction c with
  | property negated name => exact .refl _
  | literal negated l => exact .refl _
  | binary negated op left right ihl ihr =>
    cases op with
    | junction op =>
      have joined := (Reassociated.sides false (.junction op) ihl ihr).trans
        (reassociated_attach op left.leftward right.leftward)
      cases negated with
      | false => exact joined
      | true => exact joined.negate
    | compare op => exact .sides negated _ ihl ihr

theorem Reassociated.of_leftward_eq {c d : Condition} (same : c.leftward = d.leftward) :
    Reassociated c d :=
  (reassociated_leftward c).trans (same ▸ (reassociated_leftward d).symm)

end StyleFlags.Condition
