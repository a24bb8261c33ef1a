import StyleFlags.Proofs.Folding

/-!
# The nodes of a condition

What building folds away and refuses can be read off each node: which literals
it meets, and what stands on either side of it. `Regular` lists this node by
node, and it is the same as the shape that the other proofs go by.

Results:
1. `regular_iff_shaped`: the nodes are as they should be exactly if the condition is
   shaped.
2. `isNnf_iff_nodes`: a negation normal form is a condition with negations at
   properties only.
3. `Shaped.deMorgan_deMorgan`: swapping an operator for its dual twice changes nothing.
4. `built_conditions_regular`: whatever is read or made by the operations on conditions is
   regular, and on regular conditions both ways of pushing negations are stable.
-/

namespace StyleFlags.Condition

/-! ## Nodes -/

/-- All nodes of a condition, itself first. -/
def nodes : Condition → List Condition
  | property negated name => [property negated name]
  | literal negated l => [literal negated l]
  | binary negated op left right => binary negated op left right :: (left.nodes ++ right.nodes)

theorem self_mem_nodes (c : Condition) : c ∈ c.nodes := by
  cases c <;> exact List.mem_cons_self

theorem mem_nodes_binary {negated : Bool} {op : BinaryOperator} {left right d : Condition} :
    d ∈ (binary negated op left right).nodes ↔
      d = binary negated op left right ∨ d ∈ left.nodes ∨ d ∈ right.nodes := by
  rw [nodes, List.mem_cons, List.mem_append]

theorem forall_nodes_binary {holds : Condition → Prop} {negated : Bool} {op : BinaryOperator}
    {left right : Condition} :
    (∀ d ∈ (binary negated op left right).nodes, holds d) ↔
      holds (binary negated op left right) ∧ (∀ d ∈ left.nodes, holds d) ∧
        ∀ d ∈ right.nodes, holds d := by
  rw [nodes, List.forall_mem_cons, List.forall_mem_append]

theorem nodes_subset {c d : Condition} (below : d ∈ c.nodes) : d.nodes ⊆ c.nodes := by
  induction c with
  | property negated name =>
    cases List.mem_singleton.mp below
    exact List.Subset.refl _
  | literal negated l =>
    cases List.mem_singleton.mp below
    exact List.Subset.refl _
  | binary negated op left right ihl ihr =>
    rcases mem_nodes_binary.mp below with rfl | inLeft | inRight
    · exact List.Subset.refl _
    · exact fun e member => mem_nodes_binary.mpr (.inr (.inl (ihl inLeft member)))
    · exact fun e member => mem_nodes_binary.mpr (.inr (.inr (ihr inRight member)))

/-! ## What nodes can be -/

/-- The nodes of a condition are as building leaves them. -/
structure Regular (c : Condition) : Prop where
  /-- No literal is negated. -/
  literals : ∀ {negated l}, literal negated l ∈ c.nodes → negated = false
  /-- A connective joins no literal. -/
  junctions : ∀ {negated op left right}, binary negated (.junction op) left right ∈ c.nodes →
    left.literal? = none ∧ right.literal? = none
  /-- A comparison is of a property that is not negated, with a leaf. -/
  comparisons : ∀ {negated op left right}, binary negated (.compare op) left right ∈ c.nodes →
    (∃ name, left = property false name) ∧ right.op? = none
  /-- A type name is compared for equality only. -/
  typeNames : ∀ {negated op left denied l},
    binary negated (.compare op) left (literal denied l) ∈ c.nodes → l.kind = .typeName →
      op.isEquality = true
  /-- Nothing is compared with a truth value for equality. -/
  booleans : ∀ {negated op left denied l},
    binary negated (.compare op) left (literal denied l) ∈ c.nodes → op.isEquality = true →
      l.kind ≠ .boolean

theorem Regular.of_mem {c d : Condition} (regular : c.Regular) (below : d ∈ c.nodes) :
    d.Regular where
  literals member := regular.literals (nodes_subset below member)
  junctions member := regular.junctions (nodes_subset below member)
  comparisons member := regular.comparisons (nodes_subset below member)
  typeNames member := regular.typeNames (nodes_subset below member)
  booleans member := regular.booleans (nodes_subset below member)

variable {v : Vocabulary}

theorem Shaped.of_mem_nodes {c d : Condition} (shaped : c.Shaped v) (below : d ∈ c.nodes) :
    d.Shaped v := by
  induction c with
  | property negated name =>
    cases List.mem_singleton.mp below
    exact shaped
  | literal negated l =>
    cases List.mem_singleton.mp below
    exact shaped
  | binary negated op left right ihl ihr =>
    rcases mem_nodes_binary.mp below with rfl | inside
    · exact shaped
    · cases op with
      | junction op => exact inside.elim (ihl shaped.2.2.1) (ihr shaped.2.2.2)
      | compare op =>
        obtain ⟨⟨name, rfl, known⟩, operand⟩ := shaped
        exact inside.elim (ihl known) (ihr operand.shaped.2)

theorem Shaped.regular {c : Condition} (shaped : c.Shaped v) : c.Regular where
  literals member := (shaped.of_mem_nodes member).1
  junctions member :=
    have joined := shaped.of_mem_nodes member
    ⟨joined.1, joined.2.1⟩
  comparisons member := by
    obtain ⟨⟨name, isProperty, _⟩, operand⟩ := shaped.of_mem_nodes member
    exact ⟨⟨name, isProperty⟩, operand.shaped.1⟩
  typeNames member isTypeName := by
    have suits := (shaped.of_mem_nodes member).2.2.2
    unfold fits at suits
    split at suits
    · next isEquality => exact isEquality
    · exact absurd isTypeName suits
  booleans member isEquality := by
    have suits := (shaped.of_mem_nodes member).2.2.2
    rwa [fits, if_pos isEquality] at suits

theorem Regular.shaped {c : Condition} (regular : c.Regular) : c.Shaped .all := by
  induction c with
  | property negated name => exact trivial
  | literal negated l => exact ⟨regular.literals (self_mem_nodes _), trivial⟩
  | binary negated op left right ihl ihr =>
    have inLeft := regular.of_mem (mem_nodes_binary.mpr (.inr (.inl left.self_mem_nodes)))
    have inRight := regular.of_mem (mem_nodes_binary.mpr (.inr (.inr right.self_mem_nodes)))
    cases op with
    | junction op =>
      obtain ⟨leftOpen, rightOpen⟩ := regular.junctions (self_mem_nodes _)
      exact ⟨leftOpen, rightOpen, ihl inLeft, ihr inRight⟩
    | compare op =>
      obtain ⟨⟨name, rfl⟩, isLeaf⟩ := regular.comparisons (self_mem_nodes _)
      refine ⟨⟨name, rfl, trivial⟩, ?_⟩
      cases right with
      | property denied other => exact trivial
      | literal denied l =>
        refine ⟨inRight.literals (self_mem_nodes _), trivial, ?_⟩
        unfold fits
        split
        · next isEquality => exact regular.booleans (self_mem_nodes _) isEquality
        · next isOrder =>
          exact fun isTypeName => isOrder (regular.typeNames (self_mem_nodes _) isTypeName)
      | binary denied found first last => cases isLeaf

theorem regular_iff_shaped {c : Condition} : c.Regular ↔ c.Shaped .all :=
  ⟨Regular.shaped, Shaped.regular⟩

/-! ## Negations -/

theorem isNnf_iff_nodes {c : Condition} :
    c.isNnf = true ↔ ∀ d ∈ c.nodes, d.isNegated = true → ∃ name, d = property true name := by
  induction c with
  | property negated name => cases negated <;> simp [isNnf, nodes, isNegated]
  | literal negated l => cases negated <;> simp [isNnf, nodes, isNegated]
  | binary negated op left right ihl ihr =>
    rw [isNnf_binary, ihl, ihr, forall_nodes_binary]
    refine and_congr_left fun _ => ⟨?_, fun only => eq_false_of_ne_true fun denied => ?_⟩
    · rintro rfl denied
      cases denied
    · obtain ⟨name, same⟩ := only denied
      cases same

theorem negate_negate {c : Condition} (isOpen : c.literal? = none) : c.negate.negate = c := by
  cases c with
  | property negated name => simp [negate]
  | literal negated l => cases isOpen
  | binary negated op left right => simp [negate]

theorem Shaped.deMorgan_deMorgan {c : Condition} (shaped : c.Shaped v) :
    c.deMorgan.deMorgan = c := by
  cases c with
  | property negated name => rfl
  | literal negated l => rfl
  | binary negated op left right =>
    cases op with
    | junction op =>
      obtain ⟨leftOpen, rightOpen, _, _⟩ := shaped
      simp [Condition.deMorgan, negate_negate leftOpen, negate_negate rightOpen]
    | compare op => simp [Condition.deMorgan]

/-! ## Conditions that are read or made -/

theorem built_read {source : String} {c : Condition} (done : read source = .ok c) : c.Built := by
  obtain ⟨_, condition, ended⟩ := read_eq_ok_iff.mp done
  obtain ⟨_, _, _, _, built⟩ := climbs_of_conditionAt condition ended
  exact Grammar.Derivation.built_build built

/-- What is read is among the conditions that can be built, and all of these are regular. On regular
conditions, `deMorgan` undoes itself, and a negation normal form is its own and has negations at
properties only. -/
theorem built_conditions_regular :
    (∀ source c, read source = .ok c → c.Built) ∧
      (∀ c : Condition, c.Built → c.Regular) ∧
        ∀ c : Condition, c.Regular → c.deMorgan.deMorgan = c ∧ c.nnf.nnf = c.nnf ∧
          ∀ d ∈ c.nnf.nodes, d.isNegated = true → ∃ name, d = property true name := by
  refine ⟨fun _ _ => built_read, fun c built => regular_iff_shaped.mpr built.shaped,
    fun c regular => ?_⟩
  have shaped := regular_iff_shaped.mp regular
  have normal := isNnf_nnf shaped
  exact ⟨shaped.deMorgan_deMorgan, nnf_eq_of_isNnf normal, isNnf_iff_nodes.mp normal⟩

/-- `!(flag && kind != String || n < 2)`, with a type name and a negated junction of junctions. -/
def exRefused : Condition :=
  binary true (.junction .or)
    (binary false (.junction .and) (property false "flag")
      (binary false (.compare .ne) (property false "kind") (literal false ⟨.typeName, "String"⟩)))
    (binary false (.compare .lt) (property false "n") (literal false ⟨.number, "2"⟩))

/-- The comparison of `flag` with `true` is folded, and the negation turns every operator around. -/
theorem built_conditions_regular_exRefused :
    read "!(flag == true && kind != String || n < 2)" = .ok exRefused ∧ exRefused.Regular ∧
      exRefused.deMorgan ≠ exRefused ∧ exRefused.deMorgan.deMorgan = exRefused ∧
      exRefused.nnf ≠ exRefused ∧ exRefused.nnf.nnf = exRefused.nnf := by
  have done : read "!(flag == true && kind != String || n < 2)" = .ok exRefused :=
    eq_ok_of_toOption (by decide +kernel)
  obtain ⟨read, regular, stable⟩ := built_conditions_regular
  have isRegular := regular _ (read _ _ done)
  obtain ⟨undone, idempotent, _⟩ := stable _ isRegular
  exact ⟨done, isRegular, by decide, undone, by decide +kernel, idempotent⟩

end StyleFlags.Condition
