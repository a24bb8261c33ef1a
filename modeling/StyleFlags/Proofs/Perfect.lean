import StyleFlags.Proofs.Nodes

/-!
# Perfect normal forms

Distribution looks at the operators of three parts only when it decides whether
to go on. That is enough: the parts have been distributed before, so a part whose
own operator is not the dual one has no dual operator below it either.

Results:
1. `Distributes.flat`: a perfect distribution leaves no dual operator below the one
   that was distributed.
2. `distribute_of_flat`: where that is so already, distribution changes nothing.
3. `perfect_forms_reached`: perfect normal forms are flat, have the facts of the negation
   normal form, and are their own normal forms; no distribution changes the meaning.
-/

namespace StyleFlags.Condition

variable {v : Vocabulary} {target : Connective} {perfect : Bool} {c : Condition}

/-! ## Flat conditions -/

/-- No node has this connective. -/
def Free (op : Connective) (c : Condition) : Prop := ∀ d ∈ c.nodes, d.carries op = false

instance (op : Connective) (c : Condition) : Decidable (c.Free op) :=
  List.decidableBAll (fun d : Condition => d.carries op = false) c.nodes

/-- At no depth below a node with the connective `target` is there one with the dual connective. -/
def Flat (target : Connective) (c : Condition) : Prop :=
  ∀ d ∈ c.nodes, d.carries target = true → d.Free target.dual

instance (target : Connective) (c : Condition) : Decidable (c.Flat target) :=
  List.decidableBAll (fun d : Condition => d.carries target = true → d.Free target.dual) c.nodes

theorem carries_binary {op : Connective} {negated : Bool} {found : BinaryOperator}
    {left right : Condition} :
    (binary negated found left right).carries op = true ↔ found = .junction op := by
  simp [carries, op?]

theorem free_binary {op : Connective} {negated : Bool} {found : BinaryOperator}
    {left right : Condition} :
    (binary negated found left right).Free op ↔
      found ≠ .junction op ∧ left.Free op ∧ right.Free op := by
  have own : (binary negated found left right).carries op = false ↔ found ≠ .junction op := by
    rw [← Bool.not_eq_true, carries_binary]
  rw [← own]
  exact forall_nodes_binary

theorem flat_binary {negated : Bool} {found : BinaryOperator} {left right : Condition} :
    (binary negated found left right).Flat target ↔
      (found = .junction target → left.Free target.dual ∧ right.Free target.dual) ∧
        left.Flat target ∧ right.Flat target := by
  have own : ((binary negated found left right).carries target = true →
      (binary negated found left right).Free target.dual) ↔
      (found = .junction target → left.Free target.dual ∧ right.Free target.dual) := by
    rw [carries_binary, free_binary]
    refine forall_congr' fun isTarget => and_iff_right ?_
    rw [isTarget]
    exact fun same => target.dual_ne (BinaryOperator.junction.inj same).symm
  rw [← own]
  exact forall_nodes_binary

theorem free_of_leaf {op : Connective} (isLeaf : c.op? = none) : c.Free op := by
  intro d member
  cases c with
  | property negated name =>
    cases List.mem_singleton.mp member
    rfl
  | literal negated l =>
    cases List.mem_singleton.mp member
    rfl
  | binary negated found left right => cases isLeaf

theorem flat_of_leaf (isLeaf : c.op? = none) : c.Flat target := by
  intro d member carried
  rw [free_of_leaf isLeaf d member] at carried
  cases carried

/-- In a flat condition, a dual operator can only be reached from the top by dual operators. -/
theorem Flat.free (flat : c.Flat target) (shaped : c.Shaped v)
    (top : c.carries target.dual = false) : c.Free target.dual := by
  cases c with
  | property negated name => exact free_of_leaf rfl
  | literal negated l => exact free_of_leaf rfl
  | binary negated found left right =>
    have other : found ≠ .junction target.dual := by
      rintro rfl
      rw [carries_binary.mpr rfl] at top
      cases top
    refine free_binary.mpr ⟨other, ?_⟩
    cases found with
    | compare op =>
      obtain ⟨⟨name, rfl, _⟩, operand⟩ := shaped
      exact ⟨free_of_leaf rfl, free_of_leaf operand.shaped.1⟩
    | junction op =>
      refine (flat_binary.mp flat).1 ?_
      cases op <;> cases target <;> first | rfl | exact absurd rfl other

/-! ## Distributing until all is flat -/

/-- A junction that is not negated can be opened if it has the connective. -/
theorem carries_of_opened?_eq_none {op : Connective} {left right : Condition}
    (hl : left.isNnf = true) (hr : right.isNnf = true) (none : opened? op left right = none) :
    left.carries op = false ∧ right.carries op = false := by
  have closed {c : Condition} (normal : c.isNnf = true) (shut : c.sides? op = .none) :
      c.carries op = false := by
    refine eq_false_of_ne_true fun carried => ?_
    cases c with
    | property negated name => cases carried
    | literal negated l => cases carried
    | binary negated found left right =>
      obtain ⟨rfl, _⟩ := isNnf_binary.mp normal
      cases carries_binary.mp carried
      simp [sides?] at shut
  unfold opened? at none
  split at none
  · cases none
  · next leftShut => exact ⟨closed hl leftShut, closed hr (Option.map_eq_none_iff.mp none)⟩

theorem Flat.pair {side injected : Condition} (hs : side.Flat target) (hi : injected.Flat target)
    (freeSide : side.Free target.dual) (freeInjected : injected.Free target.dual)
    (sideOpen : side.literal? = none) (injectedOpen : injected.literal? = none) :
    (pair target side injected).Flat target := by
  unfold Condition.pair
  split
  · exact hs
  · rw [junction_of_open sideOpen injectedOpen]
    exact flat_binary.mpr ⟨fun _ => ⟨freeSide, freeInjected⟩, hs, hi⟩

/-- The parts of an opened junction are flat if its sides are. -/
theorem Flat.of_opened {op : Connective} {left right first second injected : Condition}
    (hl : left.Flat target) (hr : right.Flat target)
    (found : opened? op left right = some (first, second, injected)) :
    first.Flat target ∧ second.Flat target ∧ injected.Flat target := by
  obtain ⟨rfl, rfl⟩ | ⟨rfl, rfl⟩ := opened?_eq_some found
  · obtain ⟨_, hf, hs⟩ := flat_binary.mp hl
    exact ⟨hf, hs, hr⟩
  · obtain ⟨_, hf, hs⟩ := flat_binary.mp hr
    exact ⟨hf, hs, hl⟩

/-- A node that came out as a dual junction of flat sides is flat. -/
theorem flat_dual {negated : Bool} {left right : Condition} (hl : left.Flat target)
    (hr : right.Flat target) : (binary negated (.junction target.dual) left right).Flat target :=
  flat_binary.mpr ⟨fun same => absurd (BinaryOperator.junction.inj same) target.dual_ne, hl, hr⟩

/-- A perfect distribution of a negation normal form is flat. The induction goes over the steps; where
they end without going on below, the parts have no dual operator at the top, and so nowhere. -/
theorem Distributes.flat {d : Condition} (steps : Distributes target true c d) (shaped : c.Shaped v)
    (normal : c.isNnf = true) : d.Flat target := by
  induction steps with
  | property negated name => exact flat_of_leaf rfl
  | literal negated l => exact flat_of_leaf rfl
  | @passed negated op left right left' right' other hl hr onLeft onRight =>
    obtain ⟨_, normalLeft, normalRight⟩ := isNnf_binary.mp normal
    refine flat_binary.mpr ⟨fun same => absurd same other, ?_⟩
    cases op with
    | junction op =>
      exact ⟨onLeft shaped.2.2.1 normalLeft, onRight shaped.2.2.2 normalRight⟩
    | compare op =>
      obtain ⟨⟨name, rfl, known⟩, operand⟩ := shaped
      exact ⟨onLeft known normalLeft, onRight operand.shaped.2 normalRight⟩
  | @closed negated left right left' right' hl hr none onLeft onRight =>
    -- Neither side could be opened, so neither has the dual operator at its top.
    obtain ⟨_, normalLeft, normalRight⟩ := isNnf_binary.mp normal
    obtain ⟨_, _, shapedLeft, shapedRight⟩ := shaped
    have flatLeft := onLeft shapedLeft normalLeft
    have flatRight := onRight shapedRight normalRight
    cases hl.eq
    cases hr.eq
    obtain ⟨leftTop, rightTop⟩ := carries_of_opened?_eq_none
      (isNnf_distribute normalLeft) (isNnf_distribute normalRight) none
    exact flat_binary.mpr ⟨fun _ => ⟨flatLeft.free shapedLeft.distribute leftTop,
      flatRight.free shapedRight.distribute rightTop⟩, flatLeft, flatRight⟩
  | @opened negated left right left' right' first second injected hl hr found ends onLeft onRight =>
    obtain ⟨_, normalLeft, normalRight⟩ := isNnf_binary.mp normal
    obtain ⟨leftOpen, rightOpen, shapedLeft, shapedRight⟩ := shaped
    obtain ⟨flatFirst, flatSecond, flatInjected⟩ := Flat.of_opened (onLeft shapedLeft normalLeft)
      (onRight shapedRight normalRight) found
    cases hl.eq
    cases hr.eq
    obtain ⟨hf, hs, hi⟩ := Shaped.of_opened shapedLeft.distribute shapedRight.distribute
      ((literal?_distribute left).trans leftOpen) ((literal?_distribute right).trans rightOpen)
      found
    -- Distribution does not go on below, so none of the three parts has it there.
    simp only [Bool.true_and, Bool.or_eq_false_iff] at ends
    have freeInjected := flatInjected.free hi.1 ends.1.1
    exact flat_dual
      (flatFirst.pair flatInjected (flatFirst.free hf.1 ends.1.2) freeInjected hf.2 hi.2)
      (flatSecond.pair flatInjected (flatSecond.free hs.1 ends.2) freeInjected hs.2 hi.2)
  | @again negated left right left' right' first second injected _ _ hl hr found _ _ _ _ _ onFirst
      onSecond =>
    obtain ⟨_, normalLeft, normalRight⟩ := isNnf_binary.mp normal
    obtain ⟨leftOpen, rightOpen, shapedLeft, shapedRight⟩ := shaped
    cases hl.eq
    cases hr.eq
    obtain ⟨hf, hs, hi⟩ := Shaped.of_opened shapedLeft.distribute shapedRight.distribute
      ((literal?_distribute left).trans leftOpen) ((literal?_distribute right).trans rightOpen)
      found
    obtain ⟨nf, ns, ni⟩ :=
      isNnf_of_opened (isNnf_distribute normalLeft) (isNnf_distribute normalRight) found
    exact flat_dual (onFirst (hf.1.pair hi.1) (isNnf_pair nf ni))
      (onSecond (hs.1.pair hi.1) (isNnf_pair ns ni))

theorem flat_distribute (shaped : c.Shaped v) (normal : c.isNnf = true) :
    (distribute target true c).Flat target :=
  (distributes target true c).flat shaped normal

theorem sides?_eq_none_of_free {op : Connective} (free : c.Free op) : c.sides? op = none := by
  cases found : c.sides? op with
  | none => rfl
  | some sides =>
    rw [sides?_eq_some found] at free
    exact absurd rfl (free_binary.mp free).1

/-- In a flat condition there is nothing to distribute. -/
theorem distribute_of_flat (flat : c.Flat target) : distribute target perfect c = c := by
  induction c with
  | property negated name => exact distribute_property ..
  | literal negated l => exact distribute_literal ..
  | binary negated op left right ihl ihr =>
    obtain ⟨frees, hl, hr⟩ := flat_binary.mp flat
    rw [distribute_binary, ihl hl, ihr hr]
    split
    · next isTarget =>
      subst isTarget
      obtain ⟨freeLeft, freeRight⟩ := frees rfl
      have shut : opened? target.dual left right = none := by
        rw [opened?, sides?_eq_none_of_free freeLeft, sides?_eq_none_of_free freeRight]
        rfl
      rw [distributeJunction, shut]
    · rfl

/-! ## Perfect normal forms -/

theorem gathers_facts : Gathers facts := fun _ _ _ _ => rfl

/-- A perfect distribution of a negation normal form is one again, and distributing once more changes
nothing. -/
theorem distribute_nnf_stable (shaped : c.Shaped v) (normal : c.isNnf = true) :
    distribute target true (distribute target true c).nnf = distribute target true c := by
  rw [nnf_eq_of_isNnf (isNnf_distribute normal), distribute_of_flat (flat_distribute shaped normal)]

/-- Distribution comes to an end and keeps the truth on every bag, whatever form the condition has. In
the perfect disjunctive normal form there is no `||` below an `&&`, and in the conjunctive one no `&&`
below an `||`; both negate nothing but properties, have the facts of the negation normal form and are
their own normal forms. -/
theorem perfect_forms_reached (built : c.Built) :
    (∀ target perfect, Distributes target perfect c (distribute target perfect c) ∧
      ∀ bag, (distribute target perfect c).satisfied bag = c.satisfied bag) ∧
    ((c.dnf true).Flat .and ∧ (c.cnf true).Flat .or) ∧
    (∀ form ∈ [c.dnf true, c.cnf true],
      (∀ d ∈ form.nodes, d.isNegated = true → ∃ name, d = property true name) ∧
        ∀ f, f ∈ form.facts ↔ f ∈ c.nnf.facts) ∧
    (c.dnf true).dnf true = c.dnf true ∧ (c.cnf true).cnf true = c.cnf true := by
  have shaped := built.shaped
  have normal := isNnf_nnf shaped
  have leaves (target : Connective) :
      (∀ d ∈ (distribute target true c.nnf).nodes, d.isNegated = true →
        ∃ name, d = property true name) ∧
      ∀ f, f ∈ (distribute target true c.nnf).facts ↔ f ∈ c.nnf.facts :=
    ⟨isNnf_iff_nodes.mp (isNnf_distribute normal),
      fun f => gathers_facts.mem_distribute shaped.nnf⟩
  refine ⟨fun target perfect => ?_, ?_, ?_, ?_⟩
  · exact ⟨distributes target perfect c, fun bag => satisfied_distribute bag shaped⟩
  · exact ⟨flat_distribute shaped.nnf normal, flat_distribute shaped.nnf normal⟩
  · intro form member
    rcases List.mem_cons.mp member with rfl | member
    · exact leaves .and
    · rw [List.mem_singleton.mp member]
      exact leaves .or
  · exact ⟨distribute_nnf_stable shaped.nnf normal, distribute_nnf_stable shaped.nnf normal⟩

/-- `!(a && b) && (c || d && n < 2)`, which one pass does not flatten. -/
def exSpread : Condition :=
  binary false (.junction .and)
    (binary true (.junction .and) (property false "a") (property false "b"))
    (binary false (.junction .or) (property false "c")
      (binary false (.junction .and) (property false "d")
        (binary false (.compare .lt) (property false "n") (literal false ⟨.number, "2"⟩))))

theorem perfect_forms_reached_exSpread :
    exSpread.Built ∧ ¬(exSpread.dnf false).Flat .and ∧ (exSpread.dnf true).Flat .and ∧
      (exSpread.dnf true).dnf true = exSpread.dnf true ∧ exSpread.dnf true ≠ exSpread.nnf := by
  have done : read "!(a && b) && (c || d && n < 2)" = .ok exSpread :=
    eq_ok_of_toOption (by decide +kernel)
  have built := built_read done
  obtain ⟨_, flat, _, stable⟩ := perfect_forms_reached built
  exact ⟨built, by decide +kernel, flat.1, stable.1, by decide +kernel⟩

end StyleFlags.Condition
