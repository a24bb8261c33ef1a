import StyleFlags.Proofs.NormalForm
import StyleFlags.Proofs.Parsing

/-!
# What folding keeps

A condition is folded while it is read. The derivation of a text is the tree
before folding, and it can be evaluated as it is written. Folding keeps the
truth of connectives, negations and literals, but not their values: `a && true`
becomes `a`. Where a comparison has such a side, it compares what the side has
become, and not what is written.

Results:
1. `Derivation.satisfied_build`: the condition that is built is satisfied exactly
   if the derivation is truthy, where every comparison compares what its sides
   become.
2. `Derivation.value_of_isPlain`: that is the value as it is written, if the sides of
   comparisons are written as leaves.
3. `Condition.folding_keeps_truth`: so it is for every text that is read;
   `Condition.folding_changes_comparison` has a text where the two differ.
-/

namespace StyleFlags

/-! ## What building makes -/

/-- Only a number has a sign, and it stays a number. -/
theorem Literal.kind_of_negateSign? {l m : Literal} (signed : l.negateSign? = some m) :
    l.kind = .number ∧ m.kind = .number := by
  unfold negateSign? at signed
  split at signed
  · next number =>
    refine ⟨number, ?_⟩
    split at signed <;> cases signed <;> rfl
  · cases signed

namespace Condition

theorem prefixed_eq_ok {op : Operator} {operand x : Condition} (made : prefixed op operand = .ok x) :
    (op = .bang ∧ x = operand.negate) ∨
      (op = .minus ∧ ∃ negated l m, operand = literal negated l ∧ l.negateSign? = some m ∧
        x = literal false m) := by
  unfold prefixed at made
  split at made
  · cases made
    exact .inl ⟨rfl, rfl⟩
  · split at made
    · next m signed =>
      cases made
      cases operand with
      | literal negated l => exact .inr ⟨rfl, negated, l, m, rfl, signed, rfl⟩
      | property negated name => cases signed
      | binary negated op left right => cases signed
    · cases made
  · cases made

/-- Only a boolean comes of folding a junction. -/
theorem kind_of_junction {op : Connective} {left right : Condition} {negated : Bool} {l : Literal}
    (made : junction op left right = literal negated l) : l.kind = .boolean := by
  have constant {x : Condition} (isLiteral : x = literal negated l) : x.constant? ≠ none := by
    rw [isLiteral]
    exact Option.some_ne_none _
  unfold junction at made
  split at made
  · cases made
    rfl
  · next rightOpen =>
    split at made
    · cases made
      rfl
    · exact absurd rightOpen (constant made)
  · next leftOpen _ =>
    split at made
    · cases made
      rfl
    · exact absurd leftOpen (constant made)
  · cases made

/-- A comparison becomes the property on its left, or its negation, or stays one. -/
theorem comparison_eq_ok {op : Comparison} {left right x : Condition}
    (made : comparison op left right = .ok x) :
    ∃ name, left = property false name ∧
      ((∃ negated l, right = literal negated l ∧ op.isEquality = true ∧ l.kind = .boolean ∧
          x = if l.truthy = decide (op = .eq) then left else left.negate) ∨
        ((∀ l ∈ right.literal?, (op.isEquality && l.kind = .boolean) = false) ∧
          x = binary false (.compare op) left right)) := by
  unfold comparison at made
  split at made
  · cases made
  · next proper =>
    obtain ⟨name, rfl, _⟩ := misuse?_eq_none proper
    refine ⟨name, rfl, ?_⟩
    split at made
    · next l isLiteral =>
      split at made
      · next decided =>
        cases made
        simp only [Bool.and_eq_true, decide_eq_true_eq] at decided
        cases right with
        | literal negated m =>
          cases isLiteral
          exact .inl ⟨negated, l, rfl, decided.1, decided.2, rfl⟩
        | property negated other => cases isLiteral
        | binary negated found first last => cases isLiteral
      · next undecided =>
        cases made
        refine .inr ⟨fun m isSame => ?_, rfl⟩
        rw [isLiteral] at isSame
        cases isSame
        exact Bool.eq_false_iff.mpr undecided
    · next noLiteral =>
      cases made
      refine .inr ⟨fun m isLiteral => ?_, rfl⟩
      rw [noLiteral] at isLiteral
      cases isLiteral

theorem kind_of_infixed {op : BinaryOperator} {left right : Condition} {negated : Bool} {l : Literal}
    (made : infixed (.binary op) left right = .ok (literal negated l)) : l.kind = .boolean := by
  cases op with
  | junction op => exact kind_of_junction (Except.ok.inj made)
  | compare op =>
    obtain ⟨name, rfl, ⟨_, _, _, _, _, same⟩ | ⟨_, same⟩⟩ := comparison_eq_ok made
    · split at same <;> cases same
    · cases same

end Condition

namespace Grammar.Derivation

/-! ## Leaves as they are written -/

/-- The identifier that is written, in any number of parentheses. -/
def identifier? : Derivation → Option String
  | identifier token => some token.text
  | group inner => inner.identifier?
  | _ => none

/-- The identifier that is written behind a `!`, in any number of parentheses. -/
def denied? : Derivation → Option String
  | group inner => inner.denied?
  | prefixed .bang operand => operand.identifier?
  | _ => none

/-- The literal that is written, with its sign, in any number of parentheses. -/
def literal? : Derivation → Option Literal
  | literal token => (Literal.read token.text token.quoted token.offset).toOption
  | group inner => inner.literal?
  | prefixed .minus operand => operand.literal?.bind Literal.negateSign?
  | _ => none

/-! ## Values -/

/-- What a comparison makes of its two sides and of their values. -/
abbrev Comparing := Comparison → (left right : Derivation) → (leftValue rightValue : Value) → Bool

/-- The value of a derivation on a bag. -/
def value (bag : Bag) (compared : Comparing) : Derivation → Value
  | identifier token => bag.get token.text
  | literal token => ((literal token).literal?.map Literal.value).getD .undefined
  | group inner => inner.value bag compared
  | prefixed .bang operand => .bool (!(operand.value bag compared).truthy)
  | prefixed op operand => ((prefixed op operand).literal?.map Literal.value).getD .undefined
  | infixed (.junction .or) left right =>
    let value := left.value bag compared
    if value.truthy then value else right.value bag compared
  | infixed (.junction .and) left right =>
    let value := left.value bag compared
    if value.truthy then right.value bag compared else value
  | infixed (.compare op) left right =>
    .bool (compared op left right (left.value bag compared) (right.value bag compared))

/-- Equality with a boolean takes a value by its truth. -/
def takesAs (op : Comparison) (value : Value) (b : Bool) : Bool :=
  if b = decide (op = .eq) then value.truthy else !value.truthy

/-- Whether a literal is a boolean that equality takes a value by. -/
def isDecided (op : Comparison) (l : Option Literal) : Bool :=
  op.isEquality && l.any fun l => l.kind = .boolean

/-- A comparison of the values of its sides. Only an identifier is taken by its truth, and only next to
a boolean literal. -/
def written : Comparing := fun op left right leftValue rightValue =>
  if isDecided op right.literal? && left.identifier?.isSome then
    takesAs op leftValue rightValue.truthy
  else Condition.compares op leftValue (right.literal?.bind Literal.typeName?) rightValue

/-- A comparison of what its sides are folded to. -/
def folded (bag : Bag) : Comparing := fun op left right _ _ =>
  match left.build, right.build with
  | .ok x, .ok y =>
    if isDecided op y.literal? then takesAs op (x.evaluate bag) (y.satisfied bag)
    else Condition.compares op (x.evaluate bag) (y.literal?.bind Literal.typeName?) (y.evaluate bag)
  | _, _ => false

/-! ## Folding keeps the truth -/

theorem built_build {y : Derivation} {x : Condition} (built : y.build = .ok x) : x.Built := by
  induction y generalizing x with
  | identifier token =>
    cases built
    exact .property _
  | literal token =>
    obtain ⟨l, _, built⟩ := bind_eq_ok built
    cases built
    exact .literal l
  | group inner ih => exact ih built
  | prefixed op operand ih =>
    obtain ⟨z, onOperand, made⟩ := bind_eq_ok built
    exact .prefixed (ih onOperand) made
  | infixed op left right ihl ihr =>
    obtain ⟨l, onLeft, built⟩ := bind_eq_ok built
    obtain ⟨r, onRight, made⟩ := bind_eq_ok built
    exact .infixed (ihl onLeft) (ihr onRight) made

/-- A number is the only literal that folding cannot have made. -/
theorem literal?_of_number {y : Derivation} {negated : Bool} {l : Literal}
    (built : y.build = .ok (.literal negated l)) (isNumber : l.kind = .number) :
    y.literal? = some l := by
  induction y generalizing negated l with
  | identifier token => cases built
  | literal token =>
    obtain ⟨m, read, built⟩ := bind_eq_ok built
    cases built
    rw [literal?, read]
    rfl
  | group inner ih => exact ih built isNumber
  | prefixed op operand ih =>
    obtain ⟨z, onOperand, made⟩ := bind_eq_ok built
    obtain ⟨rfl, same⟩ | ⟨rfl, denied, m, signed, rfl, isSigned, same⟩ :=
      Condition.prefixed_eq_ok made
    · cases z with
      | literal denied m =>
        cases same
        cases isNumber
      | property denied name => cases same
      | binary denied op left right => cases same
    · cases same
      rw [literal?, ih onOperand (Literal.kind_of_negateSign? isSigned).1]
      exact isSigned
  | infixed op left right ihl ihr =>
    obtain ⟨l, onLeft, built⟩ := bind_eq_ok built
    obtain ⟨r, onRight, made⟩ := bind_eq_ok built
    rw [Condition.kind_of_infixed made] at isNumber
    cases isNumber

theorem satisfied_comparison (bag : Bag) {v : Condition.Vocabulary} {op : Comparison}
    {left right x : Condition} (shaped : right.Shaped v)
    (made : Condition.comparison op left right = .ok x) :
    x.satisfied bag =
      if isDecided op right.literal? then takesAs op (left.evaluate bag) (right.satisfied bag)
      else Condition.compares op (left.evaluate bag) (right.literal?.bind Literal.typeName?)
        (right.evaluate bag) := by
  obtain ⟨name, rfl, ⟨negated, l, rfl, isEquality, isBoolean, rfl⟩ | ⟨undecided, rfl⟩⟩ :=
    Condition.comparison_eq_ok made
  · cases shaped.1
    have decided : isDecided op (some l) = true := by simp [isDecided, isEquality, isBoolean]
    rw [Condition.literal?, decided, if_pos rfl, Condition.satisfied_literal, Bool.false_xor, takesAs]
    split
    · rfl
    · rw [Condition.satisfied_negate]
      rfl
  · have open' : isDecided op right.literal? = false := by
      cases found : right.literal? with
      | none => simp [isDecided]
      | some l => simpa [isDecided] using undecided l found
    rw [open', if_neg Bool.false_ne_true, Condition.satisfied_compare, Bool.false_xor,
      Condition.sidesCompare]

/-- The condition that is built is as true as the derivation, with comparisons of what their sides are
folded to. -/
theorem satisfied_build (bag : Bag) {y : Derivation} {x : Condition} (built : y.build = .ok x) :
    x.satisfied bag = (y.value bag (folded bag)).truthy := by
  induction y generalizing x with
  | identifier token =>
    cases built
    rfl
  | literal token =>
    obtain ⟨l, read, built⟩ := bind_eq_ok built
    cases built
    rw [value, literal?, read]
    rfl
  | group inner ih => exact ih built
  | prefixed op operand ih =>
    obtain ⟨z, onOperand, made⟩ := bind_eq_ok built
    obtain ⟨rfl, rfl⟩ | ⟨rfl, negated, l, m, rfl, signed, rfl⟩ := Condition.prefixed_eq_ok made
    · rw [Condition.satisfied_negate, ih onOperand]
      rfl
    · have whole : (prefixed .minus operand).literal? = some m :=
        literal?_of_number built (Literal.kind_of_negateSign? signed).2
      rw [value, whole]
      · rfl
      · rintro ⟨⟩
  | infixed op left right ihl ihr =>
    obtain ⟨l, onLeft, built⟩ := bind_eq_ok built
    obtain ⟨r, onRight, made⟩ := bind_eq_ok built
    have shapedLeft := (built_build onLeft).shaped
    have shapedRight := (built_build onRight).shaped
    cases op with
    | junction op =>
      cases Except.ok.inj made
      have truth := (Condition.Valuation.onBag bag).truth_junction shapedLeft shapedRight op
      refine truth.trans ?_
      show op.combine (l.satisfied bag) (r.satisfied bag) = _
      rw [ihl onLeft, ihr onRight]
      cases op <;> cases first : (left.value bag (folded bag)).truthy <;>
        simp [value, first, Connective.combine, Connective.absorbing]
    | compare op =>
      rw [satisfied_comparison bag shapedRight made, value, folded, onLeft, onRight]
      rfl

/-! ## Sides that are leaves -/

/-- Whether the sides of every comparison are written as leaves: an identifier on the left, and on the
right an identifier, with a `!` or without, or a literal. -/
def isPlain : Derivation → Bool
  | group inner => inner.isPlain
  | prefixed _ operand => operand.isPlain
  | infixed (.junction _) left right => left.isPlain && right.isPlain
  | infixed (.compare _) left right =>
    left.identifier?.isSome &&
      (right.identifier?.isSome || right.denied?.isSome || right.literal?.isSome)
  | _ => true

section Leaves

variable (bag : Bag) (compared : Comparing) {name : String}

theorem of_identifier? {y : Derivation} (isName : y.identifier? = some name) :
    y.build = .ok (.property false name) ∧ y.value bag compared = bag.get name ∧
      y.literal? = none := by
  induction y with
  | identifier token =>
    cases isName
    exact ⟨rfl, rfl, rfl⟩
  | group inner ih => exact ih isName
  | literal token => cases isName
  | prefixed op operand => cases isName
  | infixed op left right => cases isName

theorem of_denied? {y : Derivation} (isName : y.denied? = some name) :
    y.build = .ok (.property true name) ∧
      y.value bag compared = .bool (!(bag.get name).truthy) ∧ y.literal? = none := by
  induction y with
  | group inner ih => exact ih isName
  | prefixed op operand =>
    cases op with
    | bang =>
      obtain ⟨built, isValue, _⟩ := of_identifier? bag compared isName
      refine ⟨bind_eq_ok_iff.mpr ⟨_, built, rfl⟩, ?_, rfl⟩
      rw [value, isValue]
    | _ => cases isName
  | identifier token => cases isName
  | literal token => cases isName
  | infixed op left right => cases isName

theorem of_literal? {y : Derivation} {l : Literal} (isLiteral : y.literal? = some l) :
    y.build = .ok (.literal false l) ∧ y.value bag compared = l.value := by
  induction y generalizing l with
  | literal token =>
    refine ⟨?_, ?_⟩
    · cases read : Literal.read token.text token.quoted token.offset with
      | error e =>
        rw [literal?, read] at isLiteral
        cases isLiteral
      | ok m =>
        rw [literal?, read] at isLiteral
        cases isLiteral
        exact bind_eq_ok_iff.mpr ⟨l, read, rfl⟩
    · rw [value, isLiteral]
      rfl
  | group inner ih => exact ih isLiteral
  | prefixed op operand ih =>
    cases op with
    | minus =>
      obtain ⟨m, below, signed⟩ := Option.bind_eq_some_iff.mp isLiteral
      have made : Condition.prefixed .minus (.literal false m) = .ok (.literal false l) := by
        simp only [Condition.prefixed, Condition.literal?, Option.bind_some, signed]
      refine ⟨bind_eq_ok_iff.mpr ⟨_, (ih below).1, made⟩, ?_⟩
      rw [value, isLiteral]
      · rfl
      · rintro ⟨⟩
    | _ => cases isLiteral
  | identifier token => cases isLiteral
  | infixed op left right => cases isLiteral

/-- What is written as a leaf is folded to that leaf. -/
theorem of_isLeaf {y : Derivation}
    (isLeaf : (y.identifier?.isSome || y.denied?.isSome || y.literal?.isSome) = true) :
    ∃ x, y.build = .ok x ∧ x.literal? = y.literal? ∧ x.evaluate bag = y.value bag compared := by
  simp only [Bool.or_eq_true, Option.isSome_iff_exists] at isLeaf
  rcases isLeaf with (⟨name, isName⟩ | ⟨name, isName⟩) | ⟨l, isLiteral⟩
  · obtain ⟨built, isValue, noLiteral⟩ := of_identifier? bag compared isName
    exact ⟨_, built, noLiteral.symm, isValue.symm⟩
  · obtain ⟨built, isValue, noLiteral⟩ := of_denied? bag compared isName
    exact ⟨_, built, noLiteral.symm, isValue.symm⟩
  · obtain ⟨built, isValue⟩ := of_literal? bag compared isLiteral
    exact ⟨_, built, isLiteral.symm, isValue.symm⟩

end Leaves

theorem value_of_isPlain (bag : Bag) {y : Derivation} (plain : y.isPlain = true) :
    y.value bag (folded bag) = y.value bag written := by
  induction y with
  | identifier token => rfl
  | literal token => rfl
  | group inner ih => exact ih plain
  | prefixed op operand ih =>
    cases op with
    | bang => rw [value, value, ih plain]
    | _ => rfl
  | infixed op left right ihl ihr =>
    cases op with
    | junction op =>
      simp only [isPlain, Bool.and_eq_true] at plain
      cases op <;> simp only [value, ihl plain.1, ihr plain.2]
    | compare op =>
      simp only [isPlain, Bool.and_eq_true] at plain
      obtain ⟨isName, isLeaf⟩ := plain
      obtain ⟨name, onLeft⟩ := Option.isSome_iff_exists.mp isName
      obtain ⟨builtLeft, leftValue, _⟩ := of_identifier? bag written onLeft
      obtain ⟨r, builtRight, sameLiteral, sameValue⟩ := of_isLeaf bag written isLeaf
      have leftSame : (Condition.property false name).evaluate bag = left.value bag written :=
        leftValue.symm
      simp only [value, folded, written, builtLeft, builtRight, isName, Bool.and_true, sameLiteral,
        sameValue, leftSame, Condition.satisfied]

end Grammar.Derivation

/-! ## Texts -/

namespace Condition

open Grammar

/-- A condition that is read is satisfied on a bag exactly if the one derivation of its text is truthy
there, where a comparison compares what its sides are folded to. Where the sides of comparisons are
written as leaves, the derivation has its value as it is written. -/
theorem folding_keeps_truth {text : String} {x : Condition} (accepted : read text = .ok x) :
    ∃ ts y, (Cursor.start text).tokens = .ok ts ∧ Derives .or ts y ∧
      (∀ other, Derives .or ts other → other = y) ∧ y.build = .ok x ∧
      ∀ bag, x.satisfied bag = (y.value bag (Derivation.folded bag)).truthy ∧
        (y.isPlain = true → x.satisfied bag = (y.value bag Derivation.written).truthy) := by
  obtain ⟨d, condition, ended⟩ := read_eq_ok_iff.mp accepted
  obtain ⟨ts, y, listed, climbs, built⟩ := climbs_of_conditionAt condition ended
  have derives := derives_iff_climbs.mpr climbs
  refine ⟨ts, y, listed, derives, fun other also => also.unique derives, built, fun bag => ?_⟩
  have folded := Derivation.satisfied_build bag built
  exact ⟨folded, fun plain => by rw [folded, Derivation.value_of_isPlain bag plain]⟩

/-- `n < 3 && flag != true`. -/
def exPlain : Derivation :=
  .infixed (.junction .and)
    (.infixed (.compare .lt) (.identifier (exName "n" 0)) (.literal (exConstant "3" 4)))
    (.infixed (.compare .ne) (.identifier (exName "flag" 9)) (.literal (exConstant "true" 17)))

def exPlainTokens : List Token :=
  [exName "n" 0, exSymbol (.binary (.compare .lt)) 2, exConstant "3" 4,
    exSymbol (.binary (.junction .and)) 6,
    exName "flag" 9, exSymbol (.binary (.compare .ne)) 14, exConstant "true" 17]

theorem derives_exPlain : Derives .or exPlainTokens exPlain := by
  have compared (op : Comparison) (name text : String) (i j k : Nat) :
      Derives .comparison
        ([exName name i] ++ exSymbol (.binary (.compare op)) j :: [exConstant text k])
        (.infixed (.compare op) (.identifier (exName name i)) (.literal (exConstant text k))) :=
    .infixed rfl (.item (.item (.identifier rfl))) rfl (.item (.literal rfl))
  have joined := Derives.infixed (t := exSymbol (.binary (.junction .and)) 6)
    (rfl : layerOf (.junction .and) = .and) (.item (compared .lt "n" "3" 0 2 4)) rfl
    (compared .ne "flag" "true" 9 14 17)
  exact .item joined

theorem folding_keeps_truth_exPlain :
    ∃ x, read "n < 3 && flag != true" = .ok x ∧ x.text = "(n < 3) && !flag" ∧
      exPlain.isPlain = true ∧
      ∀ bag, x.satisfied bag = (exPlain.value bag Derivation.written).truthy := by
  have found : ((read "n < 3 && flag != true").map text).toOption = some "(n < 3) && !flag" := by
    decide +kernel
  have tokens : (Cursor.start "n < 3 && flag != true").tokens.toOption = some exPlainTokens := by
    decide +kernel
  cases accepted : read "n < 3 && flag != true" with
  | error e =>
    rw [accepted] at found
    cases found
  | ok x =>
    rw [accepted] at found
    obtain ⟨ts, y, listed, _, unique, _, truth⟩ := folding_keeps_truth accepted
    rw [listed] at tokens
    cases tokens
    obtain rfl := unique exPlain derives_exPlain
    exact ⟨x, rfl, Option.some.inj found, rfl, fun bag => (truth bag).2 rfl⟩

/-- `(a && true) == 5`. -/
def exMasked : Derivation :=
  .infixed (.compare .eq)
    (.group (.infixed (.junction .and) (.identifier (exName "a" 1)) (.literal (exConstant "true" 6))))
    (.literal (exConstant "5" 15))

def exMaskedTokens : List Token :=
  [exSymbol .openParen 0, exName "a" 1, exSymbol (.binary (.junction .and)) 3, exConstant "true" 6,
    exSymbol .closeParen 10, exSymbol (.binary (.compare .eq)) 12, exConstant "5" 15]

theorem derives_exMasked : Derives .or exMaskedTokens exMasked := by
  have joined : Derives .and
      ([exName "a" 1] ++ exSymbol (.binary (.junction .and)) 3 :: [exConstant "true" 6])
      (.infixed (.junction .and) (.identifier (exName "a" 1)) (.literal (exConstant "true" 6))) :=
    .infixed rfl (.item (.item (.item (.identifier rfl)))) rfl (.item (.item (.literal rfl)))
  have grouped := Derives.group (rfl : (exSymbol .openParen 0).kind = _) (.item joined)
    (rfl : (exSymbol .closeParen 10).kind = _)
  have constant : Derives .unary [exConstant "5" 15] _ := .item (.literal rfl)
  have compared := Derives.infixed (t := exSymbol (.binary (.compare .eq)) 12)
    (rfl : layerOf (.compare .eq) = .comparison) (.item (.item grouped)) rfl constant
  exact .item (.item compared)

/-- A bag where `a` is 5. -/
def exFive : Bag := .ofList [("a", .number ⟨0x4014000000000000⟩)]

/-- As it is written, `(a && true) == 5` compares `true` with 5 if `a` holds 5. It is read as
`a == 5`. -/
theorem folding_changes_comparison :
    (Cursor.start "(a && true) == 5").tokens = .ok exMaskedTokens ∧
      Derives .or exMaskedTokens exMasked ∧
      ∃ x, read "(a && true) == 5" = .ok x ∧ x.satisfied exFive = true ∧
        (exMasked.value exFive Derivation.written).truthy = false := by
  have tokens : (Cursor.start "(a && true) == 5").tokens = .ok exMaskedTokens :=
    eq_ok_of_toOption (by decide +kernel)
  have accepted : read "(a && true) == 5" =
      .ok (binary false (.compare .eq) (property false "a") (literal false ⟨.number, "5"⟩)) :=
    eq_ok_of_toOption (by decide +kernel)
  exact ⟨tokens, derives_exMasked, _, accepted, by decide +kernel, by decide +kernel⟩

end Condition

end StyleFlags
