import StyleFlags.Key
import StyleFlags.Proofs.NumberText
import StyleFlags.Proofs.Source
import StyleFlags.Proofs.States

/-!
# What keys tell apart

Every input of a digest is the encoding of a text in which a NUL closes each
name and each value. Names hold no NUL, so the input for one value determines
its name and its value. The input for several values determines them if the
strings among them hold no NUL either.

Results:
1. `canonical_eq_of_keyText_eq`: values with one text in keys are not told apart
   by rules.
2. `valueInput_injective`, `dependencyInput_injective`: what the inputs determine.
3. `valueInput_ne_dependencyInput`, `contentInput_ne_valueInput`,
   `contentInput_ne_dependencyInput`: the three kinds of inputs never meet.
4. `Collisionless.ofInput_injective`: without collisions, the key determines the input.
-/

namespace StyleFlags

/-! ## Values as text in keys -/

namespace Value

theorem keyText_string {s : String} (nonempty : s ≠ "") : keyText (string s) = "s:" ++ s := by
  unfold keyText
  split <;> simp_all

theorem ne_empty_of_normalized {s : String} (normal : (string s).normalized = string s) :
    s ≠ "" := by
  rintro rfl
  cases normal

theorem normalized_normalized (v : Value) : v.normalized.normalized = v.normalized := by
  cases v with
  | string s =>
    by_cases isEmpty : s = ""
    · rw [isEmpty]
      rfl
    · have kept : (string s).normalized = string s := by
        unfold normalized
        split <;> simp_all
      rw [kept, kept]
  | _ => rfl

/-- How the text of a value in keys begins. -/
def tag : Value → List Char
  | undefined => ['∅']
  | null => ['n', 'u']
  | bool _ => ['b', ':']
  | number _ => ['n', ':']
  | string _ => ['s', ':']
  | function _ => ['ƒ']

theorem take_keyText {v : Value} (normal : v.normalized = v) : v.keyText.toList.take 2 = v.tag := by
  cases v with
  | string s =>
    rw [keyText_string (ne_empty_of_normalized normal)]
    simp [tag]
  | _ => simp [keyText, tag]

/-- Normalized values have one key text only if no rule tells them apart. -/
theorem canonical_eq_of_keyText_eq {v w : Value} (hv : v.normalized = v) (hw : w.normalized = w)
    (same : v.keyText = w.keyText) : v.canonical = w.canonical := by
  have tags : v.tag = w.tag := by
    rw [← take_keyText hv, same, take_keyText hw]
  cases v <;> cases w
  case bool.bool a b =>
    have texts : toString a = toString b := by simpa [keyText] using same
    have injective : ∀ a b : Bool, toString a = toString b → a = b := by decide
    rw [injective a b texts]
  case number.number m n =>
    have texts : m.text = n.text := by simpa [keyText] using same
    simp only [canonical, Number.canonical_eq_of_text_eq texts]
  case string.string s t =>
    rw [keyText_string (ne_empty_of_normalized hv), keyText_string (ne_empty_of_normalized hw)]
      at same
    have texts : s = t := by simpa using same
    rw [texts]
  case function.function f g =>
    rw [← hv, ← hw]
    rfl
  all_goals simp [tag] at tags ⊢

end Value

namespace Key

/-! ## Inputs as texts -/

/-- The character that closes names and values. -/
def nul : Char := '\x00'

/-- The encoding of some characters. -/
def encoded (chars : List Char) : List UInt8 := chars.flatMap String.utf8EncodeChar

theorem encoded_append (a b : List Char) : encoded (a ++ b) = encoded a ++ encoded b :=
  List.flatMap_append

theorem encoded_injective {a b : List Char} (same : encoded a = encoded b) : a = b := by
  have arrays : a.utf8Encode = b.utf8Encode := congrArg List.toByteArray same
  rw [← String.toByteArray_ofList, ← String.toByteArray_ofList, String.toByteArray_inj] at arrays
  exact String.ofList_injective arrays

/-- A name with its value, each closed by a NUL. -/
def fieldChars (property : String) (value : Value) : List Char :=
  property.toList ++ nul :: (value.keyText.toList ++ [nul])

theorem field_eq (property : String) (value : Value) :
    field property value = encoded (fieldChars property value) := by
  simp [field, fieldChars, bytes, encoded, nul, String.utf8EncodeChar]

/-- The text of several values, behind a mark that no value has. -/
def dependencyChars (properties : List String) (bag : Bag) : List Char :=
  "deps".toList ++ nul :: properties.flatMap fun property => fieldChars property (bag.get property)

theorem dependencyInput_eq (properties : List String) (bag : Bag) :
    dependencyInput properties bag = encoded (dependencyChars properties bag) := by
  have fields : (properties.flatMap fun p => field p (bag.get p)) =
      encoded (properties.flatMap fun p => fieldChars p (bag.get p)) := by
    simp only [field_eq, encoded, List.flatMap_assoc]
  rw [dependencyInput, fields, dependencyChars, encoded_append, List.append_assoc]
  rfl

/-! ## What inputs determine -/

theorem nul_notMem_of_isIdentifier {name : String} (identifier : isIdentifier name = true) :
    ∀ c ∈ name.toList, c ≠ nul := by
  simp only [isIdentifier, Bool.and_eq_true] at identifier
  rintro c member rfl
  have word := List.all_eq_true.mp identifier.1.2 nul member
  cases word

/-- The first name of a text of fields is determined, with all that follows its NUL. -/
theorem name_unique {p q : String} (hp : isIdentifier p = true) (hq : isIdentifier q = true)
    {a b : List Char} (same : p.toList ++ nul :: a = q.toList ++ nul :: b) : p = q ∧ a = b := by
  obtain ⟨names, _, rest⟩ := parts_unique (nul_notMem_of_isIdentifier hp)
    (nul_notMem_of_isIdentifier hq) rfl rfl same
  exact ⟨String.toList_injective names, rest⟩

theorem valueInput_injective {p q : String} {v w : Value} (hp : isIdentifier p = true)
    (hq : isIdentifier q = true) (same : valueInput p v = valueInput q w) :
    p = q ∧ v.keyText = w.keyText := by
  rw [valueInput, valueInput, field_eq, field_eq] at same
  obtain ⟨names, values⟩ := name_unique hp hq (encoded_injective same)
  exact ⟨names, String.toList_injective (List.append_cancel_right values)⟩

theorem isWord_of_isIdentifier {name : String} (identifier : isIdentifier name = true) {x : Char}
    {a b : List Char} (same : x :: a = name.toList ++ nul :: b) : Text.isWord x = true := by
  simp only [isIdentifier, Bool.and_eq_true] at identifier
  obtain ⟨⟨starts, words⟩, _⟩ := identifier
  cases chars : name.toList with
  | nil =>
    rw [chars] at starts
    cases starts
  | cons c rest =>
    rw [chars] at same words
    rw [(List.cons.inj same).1]
    exact List.all_eq_true.mp words c List.mem_cons_self

/-- Behind the first character of a name stands no colon. -/
theorem colon_ne_name {name : String} (identifier : isIdentifier name = true) {x : Char}
    {a b : List Char} : x :: ':' :: a ≠ name.toList ++ nul :: b := by
  intro same
  simp only [isIdentifier, Bool.and_eq_true] at identifier
  obtain ⟨⟨starts, words⟩, _⟩ := identifier
  have members := List.all_eq_true.mp words
  rcases chars : name.toList with _ | ⟨c, _ | ⟨d, rest⟩⟩
  · rw [chars] at starts
    cases starts
  · rw [chars] at same
    exact absurd (List.cons.inj (List.cons.inj same).2).1 (by decide)
  · rw [chars] at same members
    have colon : ':' = d := (List.cons.inj (List.cons.inj same).2).1
    have word := members d (by simp)
    rw [← colon] at word
    cases word

/-- No text of a value begins like a name that a NUL closes. -/
theorem keyText_ne_name {v : Value} (normal : v.normalized = v) {name : String}
    (identifier : isIdentifier name = true) {a b : List Char} :
    v.keyText.toList ++ nul :: a ≠ name.toList ++ nul :: b := by
  intro same
  cases v with
  | undefined => cases isWord_of_isIdentifier identifier same
  | function f =>
    have headed : 'ƒ' :: nul :: a = name.toList ++ nul :: b := by
      simpa [Value.keyText] using same
    cases isWord_of_isIdentifier identifier headed
  | bool b => exact colon_ne_name identifier (by simpa [Value.keyText] using same)
  | number n => exact colon_ne_name identifier (by simpa [Value.keyText] using same)
  | string s =>
    rw [Value.keyText_string (Value.ne_empty_of_normalized normal)] at same
    exact colon_ne_name identifier (by simpa using same)
  | null =>
    have noNul : ∀ c ∈ "null".toList, c ≠ nul := forall_of_all (by decide)
    obtain ⟨names, _, _⟩ :=
      parts_unique noNul (nul_notMem_of_isIdentifier identifier) rfl rfl same
    rw [← String.toList_injective names] at identifier
    exact absurd identifier (by decide)

/-- The input for a value is none for several values. -/
theorem valueInput_ne_dependencyInput {p : String} {v : Value} {properties : List String}
    (identifier : isIdentifier p = true) (normal : v.normalized = v) (nonempty : properties ≠ [])
    (identifiers : ∀ q ∈ properties, isIdentifier q = true) (bag : Bag) :
    valueInput p v ≠ dependencyInput properties bag := by
  intro same
  obtain ⟨q, others, rfl⟩ := List.exists_cons_of_ne_nil nonempty
  rw [valueInput, field_eq, dependencyInput_eq] at same
  have noNul : ∀ c ∈ "deps".toList, c ≠ nul := forall_of_all (by decide)
  obtain ⟨_, _, rest⟩ := parts_unique (nul_notMem_of_isIdentifier identifier) noNul rfl rfl
    (encoded_injective same)
  rw [List.flatMap_cons, fieldChars, List.append_assoc, List.cons_append] at rest
  exact keyText_ne_name normal (identifiers q List.mem_cons_self) rest

/-! ## Several values -/

/-- A value without a NUL in its text. -/
def NulFree (v : Value) : Prop := ∀ c ∈ v.keyText.toList, c ≠ nul

/-- Only a string can hold a NUL. -/
theorem nulFree_of_strings {v : Value} (free : ∀ s, v = .string s → nul ∉ s.toList) : NulFree v := by
  intro c member isNul
  subst isNul
  cases v with
  | undefined => exact absurd member (by decide)
  | null => exact absurd member (by decide)
  | bool b => cases b <;> exact absurd member (by decide)
  | number n =>
    have inText : nul ∈ n.text.toList := by simpa [Value.keyText, nul] using member
    rcases Number.mem_text inText with digit | other
    · cases digit
    · exact absurd other (by decide)
  | function f =>
    have inText : nul ∈ "ƒ".toList := by simpa [Value.keyText] using member
    exact absurd inText (by decide)
  | string s =>
    by_cases isEmpty : s = ""
    · subst isEmpty
      exact absurd member (by decide)
    · have inText : nul ∈ s.toList := by
        simpa [Value.keyText_string isEmpty, nul] using member
      exact free s rfl inText

/-- Fields without NULs are determined one after the other. -/
theorem fields_unique {f g : String → Value} {ps qs : List String}
    (hp : ∀ p ∈ ps, isIdentifier p = true ∧ NulFree (f p))
    (hq : ∀ q ∈ qs, isIdentifier q = true ∧ NulFree (g q))
    (same : (ps.flatMap fun p => fieldChars p (f p)) = qs.flatMap fun q => fieldChars q (g q)) :
    ps = qs ∧ ∀ p ∈ ps, (f p).keyText = (g p).keyText := by
  induction ps generalizing qs with
  | nil =>
    cases qs with
    | nil => simp
    | cons q qs => simp [fieldChars] at same
  | cons p ps ih =>
    cases qs with
    | nil => simp [fieldChars] at same
    | cons q qs =>
      obtain ⟨⟨identifier, free⟩, hps⟩ := List.forall_mem_cons.mp hp
      obtain ⟨⟨identifier', free'⟩, hqs⟩ := List.forall_mem_cons.mp hq
      simp only [List.flatMap_cons, fieldChars, List.append_assoc, List.cons_append,
        List.nil_append] at same
      obtain ⟨rfl, values⟩ := name_unique identifier identifier' same
      obtain ⟨texts, _, rest⟩ := parts_unique free free' rfl rfl values
      obtain ⟨rfl, others⟩ := ih hps hqs rest
      exact ⟨rfl, List.forall_mem_cons.mpr ⟨String.toList_injective texts, others⟩⟩

theorem dependencyInput_injective {ps qs : List String} {bag other : Bag}
    (hp : ∀ p ∈ ps, isIdentifier p = true ∧ NulFree (bag.get p))
    (hq : ∀ q ∈ qs, isIdentifier q = true ∧ NulFree (other.get q))
    (same : dependencyInput ps bag = dependencyInput qs other) :
    ps = qs ∧ ∀ p ∈ ps, (bag.get p).keyText = (other.get p).keyText := by
  rw [dependencyInput_eq, dependencyInput_eq] at same
  have fields := List.append_cancel_left (encoded_injective same)
  exact fields_unique hp hq (List.cons.inj fields).2

/-! ## Blocks of declarations -/

theorem contentInput_ne_valueInput {text : String} (dashed : ∀ c ∈ text.toList.head?, c = '-')
    {p : String} (identifier : isIdentifier p = true) (v : Value) :
    contentInput text ≠ valueInput p v := by
  intro same
  rw [valueInput, field_eq] at same
  have chars : text.toList = fieldChars p v := encoded_injective same
  cases found : text.toList with
  | nil =>
    rw [found] at chars
    simp [fieldChars] at chars
  | cons c rest =>
    rw [found] at dashed chars
    have word := isWord_of_isIdentifier identifier chars
    rw [dashed c rfl] at word
    cases word

theorem contentInput_ne_dependencyInput {text : String} (dashed : ∀ c ∈ text.toList.head?, c = '-')
    (properties : List String) (bag : Bag) :
    contentInput text ≠ dependencyInput properties bag := by
  intro same
  rw [dependencyInput_eq] at same
  have chars : text.toList = dependencyChars properties bag := encoded_injective same
  rw [chars] at dashed
  exact absurd (dashed 'd' rfl) (by decide)

/-! ## Digests -/

/-- The digits of a digest that stand in a key. -/
def digits (input : List UInt8) : List Char := Digest.hex ((Digest.digest input).take 8)

/-- No two of the inputs have the same digits. -/
def Collisionless (inputs : List (List UInt8)) : Prop :=
  ∀ x ∈ inputs, ∀ y ∈ inputs, digits x = digits y → x = y

instance (inputs : List (List UInt8)) : Decidable (Collisionless inputs) :=
  inferInstanceAs (Decidable (∀ x ∈ inputs, ∀ y ∈ inputs, digits x = digits y → x = y))

theorem Collisionless.ofInput_injective {inputs : List (List UInt8)}
    (collisionless : Collisionless inputs) {keyPrefix : String} {x y : List UInt8}
    (hx : x ∈ inputs) (hy : y ∈ inputs) (same : ofInput keyPrefix x = ofInput keyPrefix y) :
    x = y := by
  refine collisionless x hx y hy ?_
  have suffixes : String.ofList (digits x) = String.ofList (digits y) := by
    simpa [ofInput, digits] using same
  exact String.ofList_injective suffixes

end Key

end StyleFlags
