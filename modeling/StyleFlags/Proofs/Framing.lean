import StyleFlags.Proofs.Keys

/-!
# How inputs of keys are framed

A NUL closes every name and every value in the input of a key, and nothing marks a NUL
that stands in a value itself. The input for one value is determined all the same: its
name has no NUL, so all that follows is the value. In the input for several values a string
can hold a NUL, the next name and one more NUL, and so pass for the values of both
properties. This is the only way in which two bags have one input.

Results:
1. `Value.keyText_eq_iff`: the texts of two values in keys are the same if and only if
   the values are alike.
2. `Key.fields_alike_or_shifted`: of two bags with one input the first values that are not
   alike are strings, one of which goes on over the next name.
3. `Key.nulFree_of_fields_eq`: if the strings of one bag hold no NUL, neither do those
   of any other bag with the same input.
4. `Key.inputs_identify_values`: what inputs tell of the values they are made from.
-/

namespace StyleFlags

/-! ## Values that are alike -/

theorem Number.rank_eq_of_equals {m n : Number} (equal : m.equals n = true) :
    m.isNaN = false ∧ n.isNaN = false ∧ m.rank = n.rank := by
  unfold equals compare? at equal
  split at equal
  · cases equal
  · next numbers =>
    simp only [Bool.or_eq_true, not_or, Bool.not_eq_true] at numbers
    have ordered : compare m.rank n.rank = .eq := by simpa using equal
    exact ⟨numbers.1, numbers.2, Std.LawfulEqOrd.eq_of_compare ordered⟩

/-- Numbers have the same text if they are equal, or if both are NaN. -/
theorem Number.text_eq_iff (m n : Number) :
    m.text = n.text ↔ (m.equals n || (m.isNaN && n.isNaN)) = true := by
  constructor
  · intro same
    have canonical := canonical_eq_of_text_eq same
    have alsoNaN : n.isNaN = m.isNaN := by
      rw [← isNaN_canonical, ← canonical, isNaN_canonical]
    cases isNaN : m.isNaN with
    | true => simp [alsoNaN, isNaN]
    | false =>
      have ordered : m.compare? n = m.compare? m := by
        rw [← compare?_canonical m n, ← canonical, compare?_canonical]
      rw [equals, ordered]
      simp [compare?, isNaN]
  · intro alike
    rcases Bool.or_eq_true_iff.mp alike with equal | bothNaN
    · obtain ⟨hm, hn, ranks⟩ := rank_eq_of_equals equal
      unfold rank at ranks
      cases zero : m.isZero with
      | true =>
        have isZero : n.isZero = true := by
          simp only [Number.isZero, beq_iff_eq] at zero ⊢
          grind
        rw [text_of_isZero hm zero, text_of_isZero hn isZero]
      | false =>
        have nonzero : m.magnitude ≠ 0 := by simpa [Number.isZero] using zero
        have signs : m.isNegative = n.isNegative := by grind
        have magnitudes : m.magnitude = n.magnitude := by grind
        rw [eq_of_magnitude signs magnitudes]
    · obtain ⟨hm, hn⟩ := Bool.and_eq_true_iff.mp bothNaN
      rw [text_of_isNaN hm, text_of_isNaN hn]

namespace Value

/-- Whether two values have the same representative. Numbers are taken by their value, and NaN is
like NaN. -/
def alike (v w : Value) : Bool :=
  match v.normalized, w.normalized with
  | number m, number n => m.equals n || (m.isNaN && n.isNaN)
  | a, b => a == b

theorem keyText_normalized (v : Value) : v.normalized.keyText = v.keyText := by
  cases v with
  | string s =>
    by_cases isEmpty : s = ""
    · rw [isEmpty]
      rfl
    · unfold normalized
      split <;> simp_all
  | _ => rfl

theorem keyText_eq_iff (v w : Value) : v.keyText = w.keyText ↔ v.alike w = true := by
  have hv := v.normalized_normalized
  have hw := w.normalized_normalized
  rw [← keyText_normalized v, ← keyText_normalized w, alike]
  generalize v.normalized = a at hv ⊢
  generalize w.normalized = b at hw ⊢
  constructor
  · intro same
    have canonical := canonical_eq_of_keyText_eq hv hw same
    split
    · next m n =>
      have texts : m.text = n.text := by simpa [keyText] using same
      exact (m.text_eq_iff n).mp texts
    · next other =>
      cases a <;> cases b <;> simp_all [Value.canonical]
  · intro alike
    split at alike
    · next m n => rw [keyText, keyText, (m.text_eq_iff n).mpr alike]
    · exact congrArg keyText (eq_of_beq alike)

theorem alike_symm {v w : Value} (alike : v.alike w = true) : w.alike v = true :=
  (keyText_eq_iff w v).mp ((keyText_eq_iff v w).mpr alike).symm

/-- Only a string has a NUL in its text. -/
theorem exists_string_of_nul_mem {v : Value} (held : Key.nul ∈ v.keyText.toList) :
    ∃ s, s ≠ "" ∧ v = string s := by
  cases v with
  | string s =>
    refine ⟨s, ?_, rfl⟩
    rintro rfl
    exact absurd held (by decide)
  | _ =>
    refine (Key.nulFree_of_strings (fun s isString => ?_) Key.nul held rfl).elim
    cases isString

/-- Only the text of a string begins with its tag. -/
theorem exists_string_of_keyText {v : Value} {a b : List Char}
    (tagged : v.keyText.toList ++ Key.nul :: a = 's' :: ':' :: b) :
    ∃ s, s ≠ "" ∧ v = string s ∧ s.toList ++ Key.nul :: a = b := by
  cases v with
  | string s =>
    by_cases isEmpty : s = ""
    · subst isEmpty
      exact absurd (List.cons.inj tagged).1 (by decide)
    · rw [keyText_string isEmpty] at tagged
      exact ⟨s, isEmpty, rfl, by simpa using tagged⟩
  | undefined => exact absurd (List.cons.inj tagged).1 (by decide)
  | null => exact absurd (List.cons.inj tagged).1 (by decide)
  | bool b => cases b <;> exact absurd (List.cons.inj tagged).1 (by decide)
  | number n => simp [keyText] at tagged
  | function name => simp [keyText] at tagged

end Value

/-- The bag of two properties. -/
def Bag.pair (p q : String) (v w : Value) : Bag := (Table.empty.insert q w).insert p v

namespace Bag

variable {p q r : String} {v w : Value}

theorem get_pair_left : (pair p q v w).get p = v := by
  rw [get, pair, Table.get?_insert, if_pos rfl]
  rfl

theorem get_pair_right (different : p ≠ q) : (pair p q v w).get q = w := by
  rw [get, pair, Table.get?_insert, if_neg different.symm, Table.get?_insert, if_pos rfl]
  rfl

theorem get_pair_of_ne (notFirst : r ≠ p) (notSecond : r ≠ q) :
    (pair p q v w).get r = .undefined := by
  rw [get, pair, Table.get?_insert, if_neg notFirst, Table.get?_insert, if_neg notSecond]
  rfl

end Bag

namespace Key

/-! ## Several values -/

/-- The fields of properties, one after the other. -/
def fieldsChars (ps : List String) (f : String → Value) : List Char :=
  ps.flatMap fun p => fieldChars p (f p)

theorem dependencyInput_eq_iff {ps qs : List String} {bag other : Bag} :
    dependencyInput ps bag = dependencyInput qs other ↔
      fieldsChars ps bag.get = fieldsChars qs other.get := by
  rw [dependencyInput_eq, dependencyInput_eq]
  constructor
  · intro same
    exact (List.cons.inj (List.append_cancel_left (encoded_injective same))).2
  · intro same
    unfold fieldsChars at same
    rw [dependencyChars, dependencyChars, same]

theorem fieldsChars_cons (p : String) (ps : List String) (f : String → Value) :
    fieldsChars (p :: ps) f =
      p.toList ++ nul :: ((f p).keyText.toList ++ nul :: fieldsChars ps f) := by
  simp [fieldsChars, fieldChars]

/-- Up to a property the values are alike. There both are strings, and the second goes on, behind
the first, with a NUL, the name of the next property and one more NUL. -/
def Shifted (ps : List String) (f g : String → Value) : Prop :=
  ∃ before p q after x y, ps = before ++ p :: q :: after ∧
    (∀ r ∈ before, (f r).alike (g r) = true) ∧ f p = .string x ∧ x ≠ "" ∧
    g p = .string (x ++ "\x00" ++ q ++ "\x00" ++ y)

theorem Shifted.cons {p : String} {ps : List String} {f g : String → Value} (shifted : Shifted ps f g)
    (alike : (f p).alike (g p) = true) : Shifted (p :: ps) f g := by
  obtain ⟨before, q, next, after, x, y, rfl, same, strings⟩ := shifted
  exact ⟨p :: before, q, next, after, x, y, rfl, List.forall_mem_cons.mpr ⟨alike, same⟩, strings⟩

/-- A value that goes on behind another one reaches over the next name. -/
theorem shifted_of_longer {p : String} {ps : List String} {f g : String → Value}
    (identifiers : ∀ q ∈ ps, isIdentifier q = true) {more : List Char}
    (longer : (g p).keyText.toList = (f p).keyText.toList ++ nul :: more)
    (rest : fieldsChars ps f = more ++ nul :: fieldsChars ps g) : Shifted (p :: ps) f g := by
  cases ps with
  | nil => simp [fieldsChars] at rest
  | cons q after =>
    rw [fieldsChars_cons, fieldsChars_cons] at rest
    have identifier := identifiers q List.mem_cons_self
    have clean := nul_notMem_of_isIdentifier identifier
    -- The first NUL of the rest is inside `more`: at its end a name would follow, not a value.
    have inside : ∃ y, more = q.toList ++ nul :: y := by
      rcases List.append_eq_append_iff.mp rest with ⟨tail, hmore, hrest⟩ | ⟨tail, hname, hrest⟩
      · cases tail with
        | nil =>
          refine absurd (List.cons.inj hrest).2 ?_
          rw [← Value.keyText_normalized]
          exact keyText_ne_name (Value.normalized_normalized _) identifier
        | cons c y =>
          obtain ⟨rfl, _⟩ := List.cons.inj hrest
          exact ⟨y, hmore⟩
      · cases tail with
        | nil =>
          refine absurd (List.cons.inj hrest).2.symm ?_
          rw [← Value.keyText_normalized]
          exact keyText_ne_name (Value.normalized_normalized _) identifier
        | cons c y =>
          obtain ⟨rfl, _⟩ := List.cons.inj hrest
          exact absurd rfl (clean nul (by simp [hname]))
    obtain ⟨y, rfl⟩ := inside
    obtain ⟨t, nonempty, isString⟩ := Value.exists_string_of_nul_mem (v := g p) (by simp [longer])
    rw [isString, Value.keyText_string nonempty] at longer
    obtain ⟨x, hx, isShorter, text⟩ := Value.exists_string_of_keyText (b := t.toList)
      (by simpa using longer.symm)
    refine ⟨[], p, q, after, x, String.ofList y, rfl, by simp, isShorter, hx, ?_⟩
    rw [isString]
    refine congrArg Value.string (String.toList_injective ?_)
    simpa [nul] using text.symm

/-- The value of the first property is alike in both bags, or the longer one reaches over the
next name. -/
theorem alike_or_shifted_of_longer {p : String} {ps : List String} {f g : String → Value}
    (identifiers : ∀ q ∈ ps, isIdentifier q = true) {tail : List Char}
    (longer : (g p).keyText.toList = (f p).keyText.toList ++ tail)
    (rest : nul :: fieldsChars ps f = tail ++ nul :: fieldsChars ps g) :
    ((f p).alike (g p) = true ∧ fieldsChars ps f = fieldsChars ps g) ∨ Shifted (p :: ps) f g := by
  cases tail with
  | nil =>
    refine .inl ⟨(Value.keyText_eq_iff _ _).mp (String.toList_injective ?_), (List.cons.inj rest).2⟩
    simpa using longer.symm
  | cons c more =>
    obtain ⟨rfl, others⟩ := List.cons.inj rest
    exact .inr (shifted_of_longer identifiers longer others)

/-- Where two bags have the same fields, their values are alike, at least up to a string that
reaches over the next name. -/
theorem fields_alike_or_shifted {ps : List String} {f g : String → Value}
    (identifiers : ∀ p ∈ ps, isIdentifier p = true) (same : fieldsChars ps f = fieldsChars ps g) :
    (∀ p ∈ ps, (f p).alike (g p) = true) ∨ Shifted ps f g ∨ Shifted ps g f := by
  induction ps with
  | nil => exact .inl (by simp)
  | cons p ps ih =>
    obtain ⟨identifier, others⟩ := List.forall_mem_cons.mp identifiers
    rw [fieldsChars_cons, fieldsChars_cons] at same
    have values := (name_unique identifier identifier same).2
    have aligned (alike : (f p).alike (g p) = true) (rest : fieldsChars ps f = fieldsChars ps g) :
        (∀ q ∈ p :: ps, (f q).alike (g q) = true) ∨ Shifted (p :: ps) f g ∨
          Shifted (p :: ps) g f := by
      rcases ih others rest with all | shifted | shifted
      · exact .inl (List.forall_mem_cons.mpr ⟨alike, all⟩)
      · exact .inr (.inl (shifted.cons alike))
      · exact .inr (.inr (shifted.cons (Value.alike_symm alike)))
    rcases List.append_eq_append_iff.mp values with ⟨tail, longer, rest⟩ | ⟨tail, longer, rest⟩
    · rcases alike_or_shifted_of_longer others longer rest with ⟨alike, fields⟩ | shifted
      · exact aligned alike fields
      · exact .inr (.inl shifted)
    · rcases alike_or_shifted_of_longer others longer rest with ⟨alike, fields⟩ | shifted
      · exact aligned (Value.alike_symm alike) fields.symm
      · exact .inr (.inr shifted)

/-! ## Strings without NULs -/

/-- Two NULs of each field are separators. -/
theorem count_nul_fieldsChars {ps : List String} (f : String → Value)
    (identifiers : ∀ p ∈ ps, isIdentifier p = true) :
    (fieldsChars ps f).count nul =
      2 * ps.length + (ps.flatMap fun p => (f p).keyText.toList).count nul := by
  induction ps with
  | nil => rfl
  | cons p ps ih =>
    obtain ⟨identifier, others⟩ := List.forall_mem_cons.mp identifiers
    have clean : p.toList.count nul = 0 :=
      List.count_eq_zero.mpr fun member => nul_notMem_of_isIdentifier identifier nul member rfl
    simp only [fieldsChars_cons, List.count_append, List.count_cons_self, ih others, clean,
      List.flatMap_cons, List.length_cons]
    omega

/-- Without a NUL in the values of one bag, all NULs of its fields are separators, and so are those
of the other bag. -/
theorem nulFree_of_fields_eq {ps : List String} {f g : String → Value}
    (identifiers : ∀ p ∈ ps, isIdentifier p = true) (free : ∀ p ∈ ps, NulFree (f p))
    (same : fieldsChars ps f = fieldsChars ps g) : ∀ p ∈ ps, NulFree (g p) := by
  have none : (ps.flatMap fun p => (f p).keyText.toList).count nul = 0 := by
    refine List.count_eq_zero.mpr fun member => ?_
    obtain ⟨p, listed, held⟩ := List.mem_flatMap.mp member
    exact free p listed nul held rfl
  have counts := count_nul_fieldsChars f identifiers
  rw [same, count_nul_fieldsChars g identifiers, none] at counts
  have noneLeft : (ps.flatMap fun p => (g p).keyText.toList).count nul = 0 := by omega
  rintro p listed c held rfl
  exact List.count_eq_zero.mp noneLeft (List.mem_flatMap.mpr ⟨p, listed, held⟩)

theorem fieldsChars_congr {ps : List String} {f g : String → Value}
    (alike : ∀ p ∈ ps, (f p).alike (g p) = true) : fieldsChars ps f = fieldsChars ps g := by
  induction ps with
  | nil => rfl
  | cons p ps ih =>
    obtain ⟨first, others⟩ := List.forall_mem_cons.mp alike
    rw [fieldsChars_cons, fieldsChars_cons, (Value.keyText_eq_iff _ _).mpr first, ih others]

/-! ## Bags with one input -/

/-- The first of two properties holds a string that reaches over the name of the second, or the
second holds what is left of it. -/
theorem fieldsChars_shift {p q x y z : String} {ps : List String} {f g : String → Value}
    (nonempty : x ≠ "") (fp : f p = .string x)
    (fq : f q = .string (y ++ "\x00" ++ q ++ "\x00s:" ++ z))
    (gp : g p = .string (x ++ "\x00" ++ q ++ "\x00s:" ++ y)) (gq : g q = .string z) (held : z ≠ "")
    (others : ∀ r ∈ ps, f r = g r) :
    fieldsChars (p :: q :: ps) f = fieldsChars (p :: q :: ps) g := by
  have rest : fieldsChars ps f = fieldsChars ps g :=
    fieldsChars_congr fun r listed => by
      rw [others r listed]
      exact (Value.keyText_eq_iff _ _).mp rfl
  have textF : (f q).keyText = "s:" ++ (y ++ "\x00" ++ q ++ "\x00s:" ++ z) := by
    rw [fq, Value.keyText_string (by simp)]
  have textG : (g p).keyText = "s:" ++ (x ++ "\x00" ++ q ++ "\x00s:" ++ y) := by
    rw [gp, Value.keyText_string (by simp)]
  simp only [fieldsChars_cons, rest, textF, textG, fp, gq, Value.keyText_string nonempty,
    Value.keyText_string held]
  simp [nul]

/-- The input for one value is none for several values, also where there are none. -/
theorem valueInput_ne_dependencyInput_of_identifiers {p : String} {ps : List String}
    (identifier : isIdentifier p = true) (identifiers : ∀ q ∈ ps, isIdentifier q = true) (v : Value)
    (bag : Bag) : valueInput p v ≠ dependencyInput ps bag := by
  have representative : valueInput p v = valueInput p v.normalized := by
    rw [valueInput, valueInput, field, field, v.keyText_normalized]
  rw [representative]
  cases ps with
  | nil =>
    intro same
    rw [valueInput, field_eq, dependencyInput_eq] at same
    have noNul : ∀ c ∈ "deps".toList, c ≠ nul := forall_of_all (by decide)
    obtain ⟨_, _, rest⟩ := parts_unique (nul_notMem_of_isIdentifier identifier) noNul rfl rfl
      (encoded_injective same)
    simp at rest
  | cons q qs =>
    exact valueInput_ne_dependencyInput identifier v.normalized_normalized (by simp) identifiers bag

theorem dependencyInput_eq_iff_alike {ps : List String} {bag other : Bag}
    (identifiers : ∀ p ∈ ps, isIdentifier p = true)
    (free : ∀ p ∈ ps, ∀ s, bag.get p = .string s → nul ∉ s.toList) :
    dependencyInput ps bag = dependencyInput ps other ↔
      ∀ p ∈ ps, (bag.get p).alike (other.get p) = true := by
  constructor
  · intro same p listed
    have clean : ∀ q ∈ ps, NulFree (bag.get q) := fun q member => nulFree_of_strings (free q member)
    have cleanToo := nulFree_of_fields_eq identifiers clean (dependencyInput_eq_iff.mp same)
    have texts := dependencyInput_injective (fun q member => ⟨identifiers q member, clean q member⟩)
      (fun q member => ⟨identifiers q member, cleanToo q member⟩) same
    exact (Value.keyText_eq_iff _ _).mp (texts.2 p listed)
  · intro alike
    exact dependencyInput_eq_iff.mpr (fieldsChars_congr alike)

/-- With two properties there are bags that no key tells apart. -/
theorem exists_bags_with_one_input {ps : List String} (distinct : ps.Nodup)
    (several : 2 ≤ ps.length) :
    ∃ bag other : Bag, dependencyInput ps bag = dependencyInput ps other ∧
      ∃ p ∈ ps, (bag.get p).alike (other.get p) = false := by
  obtain ⟨p, q, others, rfl⟩ : ∃ p q others, ps = p :: q :: others := by
    rcases ps with _ | ⟨p, _ | ⟨q, others⟩⟩
    · simp at several
    · simp at several
    · exact ⟨p, q, others, rfl⟩
  simp only [List.nodup_cons, List.mem_cons, not_or] at distinct
  obtain ⟨⟨different, hp⟩, hq, _⟩ := distinct
  refine ⟨.pair p q (.string "x") (.string ("y" ++ "\x00" ++ q ++ "\x00s:" ++ "z")),
    .pair p q (.string ("x" ++ "\x00" ++ q ++ "\x00s:" ++ "y")) (.string "z"), ?_, p, by simp, ?_⟩
  · refine dependencyInput_eq_iff.mpr (fieldsChars_shift (by decide) Bag.get_pair_left
      (Bag.get_pair_right different) Bag.get_pair_left (Bag.get_pair_right different) (by decide) ?_)
    intro r listed
    have notFirst : r ≠ p := fun same => hp (same ▸ listed)
    have notSecond : r ≠ q := fun same => hq (same ▸ listed)
    rw [Bag.get_pair_of_ne notFirst notSecond, Bag.get_pair_of_ne notFirst notSecond]
  · rw [Bag.get_pair_left, Bag.get_pair_left, Bool.eq_false_iff, Ne, ← Value.keyText_eq_iff,
      Value.keyText_string (by decide), Value.keyText_string (by simp)]
    intro same
    have chars := congrArg String.toList same
    simp at chars

/-- The inputs of keys over identifiers, of any two bags and values:
1. Two bags with one input give all properties alike values, or at the first one where they do not,
   both hold strings, and one string goes on behind the other with a NUL, the next name and a NUL.
2. If no string of one bag holds a NUL, two bags have one input exactly if all values are alike.
3. Two values of properties have one input exactly if the properties are the same and the
   values alike.
4. No input for one value is one for several values.
5. For two properties or more there are bags with one input and values that are not alike. -/
theorem inputs_identify_values {ps : List String} (identifiers : ∀ p ∈ ps, isIdentifier p = true) :
    (∀ bag other : Bag, dependencyInput ps bag = dependencyInput ps other →
      (∀ p ∈ ps, (bag.get p).alike (other.get p) = true) ∨
        Shifted ps bag.get other.get ∨ Shifted ps other.get bag.get) ∧
    (∀ bag other : Bag, (∀ p ∈ ps, ∀ s, bag.get p = .string s → nul ∉ s.toList) →
      (dependencyInput ps bag = dependencyInput ps other ↔
        ∀ p ∈ ps, (bag.get p).alike (other.get p) = true)) ∧
    (∀ p q v w, isIdentifier p = true → isIdentifier q = true →
      (valueInput p v = valueInput q w ↔ p = q ∧ v.alike w = true)) ∧
    (∀ p v bag, isIdentifier p = true → valueInput p v ≠ dependencyInput ps bag) ∧
    (ps.Nodup → 2 ≤ ps.length → ∃ bag other : Bag,
      dependencyInput ps bag = dependencyInput ps other ∧
        ∃ p ∈ ps, (bag.get p).alike (other.get p) = false) := by
  refine ⟨?_, ?_, ?_, ?_, ?_⟩
  · intro bag other same
    exact fields_alike_or_shifted identifiers (dependencyInput_eq_iff.mp same)
  · intro bag other free
    exact dependencyInput_eq_iff_alike identifiers free
  · intro p q v w hp hq
    constructor
    · intro same
      obtain ⟨names, texts⟩ := valueInput_injective hp hq same
      exact ⟨names, (v.keyText_eq_iff w).mp texts⟩
    · rintro ⟨rfl, alike⟩
      rw [valueInput, valueInput, field, field, (v.keyText_eq_iff w).mpr alike]
  · intro p v bag identifier
    exact valueInput_ne_dependencyInput_of_identifiers identifier identifiers v bag
  · exact exists_bags_with_one_input

/-- `a` holds `x`, and `b` a string in which a NUL closes `y`. -/
def exShort : Bag := .pair "a" "b" (.string "x") (.string "y\x00b\x00s:x\x00b\x00s:y")

/-- `a` and `b` hold the same string, which reads like the values `x` of `a` and `y` of `b`. -/
def exReaching : Bag := .pair "a" "b" (.string "x\x00b\x00s:y") (.string "x\x00b\x00s:y")

/-- `a` and `b` hold `x` and `y`. -/
def exPlain : Bag := .pair "a" "b" (.string "x") (.string "y")

theorem inputs_identify_values_exReaching :
    dependencyInput ["a", "b"] exShort = dependencyInput ["a", "b"] exReaching ∧
    (exShort.get "a").looseEq (exShort.get "b") = false ∧
    (exReaching.get "a").looseEq (exReaching.get "b") = true ∧
    (Shifted ["a", "b"] exShort.get exReaching.get ∨ Shifted ["a", "b"] exReaching.get exShort.get) ∧
    dependencyInput ["a", "b"] exPlain ≠ dependencyInput ["a", "b"] exShort := by
  have identifiers : ∀ p ∈ ["a", "b"], isIdentifier p = true := by decide
  obtain ⟨general, plain, _⟩ := inputs_identify_values identifiers
  have same : dependencyInput ["a", "b"] exShort = dependencyInput ["a", "b"] exReaching := by
    decide +kernel
  refine ⟨same, by decide +kernel, by decide +kernel, ?_, ?_⟩
  · refine (general exShort exReaching same).resolve_left fun alike => ?_
    exact absurd (alike "a" (by simp)) (by decide +kernel)
  · intro equal
    have free : ∀ p ∈ ["a", "b"], ∀ s, exPlain.get p = .string s → nul ∉ s.toList := by
      have a : exPlain.get "a" = .string "x" := by decide +kernel
      have b : exPlain.get "b" = .string "y" := by decide +kernel
      simp [a, b, nul]
    exact absurd ((plain exPlain exShort free).mp equal "b" (by simp)) (by decide +kernel)

end Key

end StyleFlags
