import StyleFlags.Number.Shortest
import StyleFlags.Proofs.Separated

/-!
# The text of a number tells numbers apart

A positive finite double owns an interval of the reals, and the intervals of
two doubles meet in no point: the middle between two neighbours belongs to the
even one. The digits that are printed lie in the interval of the number, so
they belong to no other one.

Results:
1. `readsBack_unique`: digits read back as one magnitude at most.
2. `readsBack_shortest`: the digits that are printed read back.
3. `canonical_eq_of_text_eq`: numbers with the same text are both no number,
   both a zero, or the same.
-/

namespace StyleFlags.Number

/-! ## Intervals -/

theorem units_lt_succ (m : Nat) : units m < units (m + 1) := by
  have fraction := Nat.mod_lt m (by decide : 0x10000000000000 > 0)
  by_cases last : m % 0x10000000000000 + 1 = 0x10000000000000
  · -- The next double has the next exponent and no fraction.
    have nextExponent : (m + 1) / 0x10000000000000 = m / 0x10000000000000 + 1 := by omega
    have nextFraction : (m + 1) % 0x10000000000000 = 0 := by omega
    simp only [units, nextExponent, nextFraction, Nat.shiftLeft_eq]
    by_cases subnormal : m / 0x10000000000000 = 0
    · rw [if_pos subnormal, if_neg (Nat.succ_ne_zero _), subnormal]
      omega
    · obtain ⟨e, positive⟩ := Nat.exists_eq_succ_of_ne_zero subnormal
      have grows := Nat.two_pow_pos e
      have double : 2 ^ (e + 1) = 2 * 2 ^ e := Nat.pow_succ'
      simp only [positive, Nat.succ_eq_add_one, Nat.add_sub_cancel, Nat.add_zero,
        Nat.add_eq_zero_iff, Nat.succ_ne_self, and_false, if_false, double]
      calc (0x10000000000000 + m % 0x10000000000000) * 2 ^ e
          < (0x10000000000000 + 0x10000000000000) * 2 ^ e := Nat.mul_lt_mul_of_pos_right (by omega) grows
        _ = 0x10000000000000 * (2 * 2 ^ e) := by omega
  · have sameExponent : (m + 1) / 0x10000000000000 = m / 0x10000000000000 := by omega
    have nextFraction : (m + 1) % 0x10000000000000 = m % 0x10000000000000 + 1 := by omega
    simp only [units, sameExponent, nextFraction, Nat.shiftLeft_eq]
    split
    · omega
    · exact Nat.mul_lt_mul_of_pos_right (by omega) (Nat.two_pow_pos _)

theorem units_le {m n : Nat} (le : m ≤ n) : units m ≤ units n := by
  induction le with
  | refl => exact Nat.le_refl _
  | step _ ih => exact Nat.le_trans ih (Nat.le_of_lt (units_lt_succ _))

/-- On a fixed grid, `onGrid` only scales what digits are compared with. -/
theorem onGrid_scale (digits : Nat) (exponent : Int) :
    ∃ value scale, 0 < scale ∧ ∀ halves, onGrid digits exponent halves = (value, halves * scale) := by
  cases exponent with
  | ofNat e =>
    exact ⟨digits * Nat.pow 10 e * (2 * unitsPerOne), 1, Nat.one_pos, fun halves => by simp [onGrid]⟩
  | negSucc e => exact ⟨_, Nat.pow 10 (e + 1), Nat.pow_pos (by decide), fun halves => rfl⟩

/-- Whatever lies strictly between the two ends reads back. -/
theorem readsBack_of_between {m digits value scale : Nat} {exponent : Int}
    (scaled : ∀ halves, onGrid digits exponent halves = (value, halves * scale))
    (lower : (units (m - 1) + units m) * scale < value)
    (upper : value < (units m + units (m + 1)) * scale) :
    readsBack m digits exponent = true := by
  simp only [readsBack, scaled]
  split
  · simp [Nat.le_of_lt lower, Nat.le_of_lt upper]
  · simp [lower, upper]

/-- Digits read back as one magnitude at most. -/
theorem readsBack_unique {m n digits : Nat} {exponent : Int} (hm : 0 < m) (hn : 0 < n)
    (onFirst : readsBack m digits exponent = true)
    (onSecond : readsBack n digits exponent = true) : m = n := by
  -- The intervals are in the order of the magnitudes, so the smaller one may be taken first.
  have apart : ∀ {m n : Nat}, 0 < m → m < n → readsBack m digits exponent = true →
      readsBack n digits exponent = true → False := by
    intro m n _ less onFirst onSecond
    obtain ⟨value, scale, positive, scaled⟩ := onGrid_scale digits exponent
    have below : units m ≤ units (n - 1) := units_le (by omega)
    have above : units (m + 1) ≤ units n := units_le less
    have meeting : (units m + units (m + 1)) * scale ≤ (units (n - 1) + units n) * scale :=
      Nat.mul_le_mul_right scale (by omega)
    simp only [readsBack, scaled] at onFirst onSecond
    by_cases neighbours : n = m + 1
    · subst neighbours
      simp only [Nat.add_sub_cancel] at onSecond
      by_cases even : m % 2 = 0
      · have odd : ¬ (m + 1) % 2 = 0 := by omega
        simp [even, odd] at onFirst onSecond
        omega
      · have nextEven : (m + 1) % 2 = 0 := by omega
        simp [even, nextEven] at onFirst onSecond
        omega
    · have gap : units m < units (n - 1) :=
        Nat.lt_of_lt_of_le (units_lt_succ m) (units_le (by omega))
      have strict : (units m + units (m + 1)) * scale < (units (n - 1) + units n) * scale :=
        Nat.mul_lt_mul_of_pos_right (by omega) positive
      have upper : value ≤ (units m + units (m + 1)) * scale := by
        split at onFirst <;> simp at onFirst <;> omega
      have lower : (units (n - 1) + units n) * scale ≤ value := by
        split at onSecond <;> simp at onSecond <;> omega
      omega
  rcases Nat.lt_trichotomy m n with less | same | more
  · exact (apart hm less onFirst onSecond).elim
  · exact same
  · exact (apart hn more onSecond onFirst).elim

/-! ## Digits that read back -/

theorem readsBack_onGrid? {m digits : Nat} {exponent : Int}
    (found : onGrid? m exponent = some digits) : readsBack m digits exponent = true := by
  unfold onGrid? at found
  simp only at found
  split at found
  · next low high =>
    split at found
    · cases found
      exact low
    · cases found
      exact high
  · next low _ =>
    cases found
    exact low
  · next _ high =>
    cases found
    exact high
  · cases found

theorem mul_ten_pow (u n : Nat) :
    2 * u * Nat.pow 10 n = u * Nat.pow 5 n * (2 * (1 <<< n)) := by
  have tens : Nat.pow 10 n = Nat.pow 5 n * 2 ^ n := Nat.mul_pow 5 2 n
  rw [tens, Nat.one_shiftLeft]
  simp only [Nat.mul_assoc, Nat.mul_comm, Nat.mul_left_comm]

/-- Every double lies on the grid with as many decimal places as the smallest one has binary
places. -/
theorem onGrid?_isSome {m e : Nat} (positive : 0 < m) (finest : unitsPerOne = 1 <<< (e + 1)) :
    (onGrid? m (.negSucc e)).isSome := by
  have exact : 2 * units m * Nat.pow 10 (e + 1) = units m * Nat.pow 5 (e + 1) * (2 * unitsPerOne) := by
    rw [finest]
    exact mul_ten_pow (units m) (e + 1)
  have value : 2 * units m * Nat.pow 10 (e + 1) / (1 * (2 * unitsPerOne)) = units m * Nat.pow 5 (e + 1) := by
    rw [exact, Nat.one_mul, finest, Nat.one_shiftLeft]
    exact Nat.mul_div_cancel _ (Nat.mul_pos (by decide) (Nat.two_pow_pos _))
  have inside : readsBack m (units m * Nat.pow 5 (e + 1)) (.negSucc e) = true := by
    have below := units_lt_succ (m - 1)
    rw [Nat.sub_add_cancel positive] at below
    have above := units_lt_succ m
    have tens : 0 < Nat.pow 10 (e + 1) := Nat.pow_pos (by decide)
    refine readsBack_of_between (fun halves => rfl) ?_ ?_
    · rw [← exact]
      exact Nat.mul_lt_mul_of_pos_right (by omega) tens
    · rw [← exact]
      exact Nat.mul_lt_mul_of_pos_right (by omega) tens
  unfold onGrid?
  simp only [onGrid, value, inside]
  generalize readsBack m (units m * Nat.pow 5 (e + 1) + 1) (.negSucc e) = high
  cases high <;> rfl

theorem onGrid?_coarsest? {m : Nat} {exponent : Int} {count : Nat} {d : Digits}
    (found : coarsest? m exponent count = some d) : onGrid? m d.exponent = some d.digits := by
  induction count generalizing exponent with
  | zero => cases found
  | succ count ih =>
    unfold coarsest? at found
    split at found
    · next digits here =>
      cases found
      exact here
    · exact ih found

theorem coarsest?_isSome {m : Nat} {exponent : Int} {count step : Nat} (inside : step < count)
    (found : (onGrid? m (exponent - step)).isSome) : (coarsest? m exponent count).isSome := by
  induction count generalizing exponent step with
  | zero => omega
  | succ count ih =>
    unfold coarsest?
    split
    · rfl
    · next missing =>
      cases step with
      | zero =>
        rw [Int.natCast_zero, Int.sub_zero, missing] at found
        cases found
      | succ step =>
        refine ih (Nat.lt_of_succ_lt_succ inside) ?_
        have same : exponent - 1 - (step : Int) = exponent - ((step + 1 : Nat) : Int) := by omega
        rw [same]
        exact found

/-- The digits that are printed read back. -/
theorem readsBack_shortest {m : Nat} (positive : 0 < m) :
    readsBack m (shortest m).digits (shortest m).exponent = true := by
  unfold shortest
  generalize (Nat.toDigits 10 (units m / unitsPerOne)).length = top
  have last : (top : Int) - ((top + 1074 : Nat) : Int) = .negSucc 1073 := by omega
  have isSome : (coarsest? m top (top + 1075)).isSome := by
    refine coarsest?_isSome (Nat.lt_succ_self (top + 1074)) ?_
    rw [last]
    exact onGrid?_isSome positive (by simp only [unitsPerOne, Nat.reduceAdd])
  obtain ⟨d, found⟩ := Option.isSome_iff_exists.mp isSome
  simp only [found, Option.getD_some]
  exact readsBack_onGrid? (onGrid?_coarsest? found)

/-! ## Positional text -/

theorem isDigit_toDigits {n : Nat} {c : Char} (member : c ∈ Nat.toDigits 10 n) :
    c.isDigit = true := Nat.isDigit_of_mem_toDigits (by decide) (by decide) member

theorem point_notMem_toDigits (n : Nat) : '.' ∉ Nat.toDigits 10 n :=
  fun member => absurd (isDigit_toDigits member) (by decide)

namespace Digits

/-- The digits with as many zeros before them as `places` behind the point need. -/
def padded (digits places : Nat) : List Char :=
  List.replicate (places + 1 - (Nat.toDigits 10 digits).length) '0' ++ Nat.toDigits 10 digits

theorem isDigit_of_mem_padded {digits places : Nat} {c : Char}
    (member : c ∈ padded digits places) : c.isDigit = true := by
  rcases List.mem_append.mp member with zero | digit
  · rw [(List.mem_replicate.mp zero).2]
    rfl
  · exact isDigit_toDigits digit

theorem ne_point_of_mem_padded {digits places : Nat} {c : Char}
    (member : c ∈ padded digits places) : c ≠ '.' := by
  rintro rfl
  exact absurd (isDigit_of_mem_padded member) (by decide)

theorem ofDigitChars_padded (digits places : Nat) :
    Nat.ofDigitChars 10 (padded digits places) 0 = digits := by
  simp [padded, Nat.ofDigitChars_append]

theorem places_lt_length_padded (digits places : Nat) :
    places < (padded digits places).length := by
  simp only [padded, List.length_append, List.length_replicate]
  omega

theorem toList_integer (digits zeros : Nat) :
    (positional ⟨digits, .ofNat zeros⟩).toList =
      Nat.toDigits 10 digits ++ List.replicate zeros '0' := by
  simp [positional]

theorem toList_fraction (digits e : Nat) :
    (positional ⟨digits, .negSucc e⟩).toList =
      (padded digits (e + 1)).take ((padded digits (e + 1)).length - (e + 1)) ++
        '.' :: (padded digits (e + 1)).drop ((padded digits (e + 1)).length - (e + 1)) := by
  simp [positional, padded]

/-- Digits with the same text read back as the same magnitudes. -/
theorem readsBack_congr {d e : Digits} (same : d.positional = e.positional) (m : Nat) :
    readsBack m d.digits d.exponent = readsBack m e.digits e.exponent := by
  have chars := congrArg String.toList same
  obtain ⟨a, p⟩ := d
  obtain ⟨b, q⟩ := e
  cases p with
  | ofNat i =>
    cases q with
    | ofNat j =>
      -- Both are integers, the same one.
      rw [toList_integer, toList_integer] at chars
      have value := congrArg (Nat.ofDigitChars 10 · 0) chars
      simp only [Nat.ofDigitChars_append, Nat.ofDigitChars_ten_toDigits,
        Nat.ofDigitChars_replicate_zero] at value
      simp only [readsBack, onGrid, Nat.pow_eq, Nat.mul_comm a, Nat.mul_comm b, value]
    | negSucc j =>
      rw [toList_integer, toList_fraction] at chars
      have inside : '.' ∈ Nat.toDigits 10 a ++ List.replicate i '0' := by
        rw [chars]
        simp
      simp [List.mem_replicate, point_notMem_toDigits] at inside
  | negSucc i =>
    cases q with
    | ofNat j =>
      rw [toList_integer, toList_fraction] at chars
      have inside : '.' ∈ Nat.toDigits 10 b ++ List.replicate j '0' := by
        rw [← chars]
        simp
      simp [List.mem_replicate, point_notMem_toDigits] at inside
    | negSucc j =>
      -- Both have a point at the same place, and the same digits around it.
      rw [toList_fraction, toList_fraction] at chars
      obtain ⟨whole, _, fraction⟩ := @parts_unique Char (· = '.') _ _ _ _ _ _
        (fun _ h => ne_point_of_mem_padded (List.mem_of_mem_take h))
        (fun _ h => ne_point_of_mem_padded (List.mem_of_mem_take h)) rfl rfl chars
      have longA := places_lt_length_padded a (i + 1)
      have longB := places_lt_length_padded b (j + 1)
      have places := congrArg List.length fraction
      simp only [List.length_drop] at places
      have samePlaces : i = j := by omega
      have digits : padded a (i + 1) = padded b (j + 1) := by
        rw [← List.take_append_drop ((padded a (i + 1)).length - (i + 1)) (padded a (i + 1)), whole,
          fraction, List.take_append_drop]
      have value := congrArg (Nat.ofDigitChars 10 · 0) digits
      simp only [ofDigitChars_padded] at value
      rw [value, samePlaces]

/-- Positional text holds digits and a point only. -/
theorem mem_positional {d : Digits} {c : Char} (member : c ∈ d.positional.toList) :
    c.isDigit = true ∨ c = '.' := by
  obtain ⟨a, p⟩ := d
  cases p with
  | ofNat i =>
    rw [toList_integer] at member
    rcases List.mem_append.mp member with digit | zero
    · exact .inl (isDigit_toDigits digit)
    · rw [(List.mem_replicate.mp zero).2]
      exact .inl rfl
  | negSucc i =>
    rw [toList_fraction] at member
    rcases List.mem_append.mp member with whole | fraction
    · exact .inl (isDigit_of_mem_padded (List.mem_of_mem_take whole))
    · rcases List.mem_cons.mp fraction with point | digit
      · exact .inr point
      · exact .inl (isDigit_of_mem_padded (List.mem_of_mem_drop digit))

/-- Positional text begins with a digit. -/
theorem positional_head (d : Digits) :
    ∃ c rest, d.positional.toList = c :: rest ∧ c.isDigit = true := by
  have headed : ∀ {l rest : List Char}, l ≠ [] → (∀ c ∈ l, c.isDigit = true) →
      ∃ c tail, l ++ rest = c :: tail ∧ c.isDigit = true := by
    intro l rest nonempty digits
    obtain ⟨c, tail, rfl⟩ := List.exists_cons_of_ne_nil nonempty
    exact ⟨c, tail ++ rest, rfl, digits c List.mem_cons_self⟩
  obtain ⟨a, p⟩ := d
  cases p with
  | ofNat i =>
    rw [toList_integer]
    exact headed Nat.toDigits_ne_nil fun c => isDigit_toDigits
  | negSucc i =>
    rw [toList_fraction]
    have long := places_lt_length_padded a (i + 1)
    refine headed ?_ fun c member => ?_
    · intro none
      have := congrArg List.length none
      simp only [List.length_take, List.length_nil] at this
      omega
    · exact isDigit_of_mem_padded (List.mem_of_mem_take member)

end Digits

/-! ## Text of numbers -/

/-- One number for both zeros, and one for everything that is no number. -/
def canonical (n : Number) : Number :=
  if n.isNaN then nan else if n.isZero then ⟨0⟩ else n

theorem toNat_bits (n : Number) :
    n.bits.toNat = n.magnitude + if n.isNegative then 0x8000000000000000 else 0 := by
  have small := n.bits.toNat_lt
  unfold magnitude isNegative
  split
  · next negative =>
    rw [decide_eq_true_eq] at negative
    omega
  · next positive =>
    rw [decide_eq_true_eq] at positive
    omega

theorem eq_of_magnitude {a b : Number} (sign : a.isNegative = b.isNegative)
    (magnitude : a.magnitude = b.magnitude) : a = b := by
  have bits : a.bits.toNat = b.bits.toNat := by
    rw [toNat_bits, toNat_bits, sign, magnitude]
  cases a
  cases b
  exact congrArg Number.mk (UInt64.toNat_inj.mp bits)

/-- The text of a positive magnitude, which may be infinite. -/
def magnitudeText (m : Nat) : String :=
  if m = infinity then "inf" else (shortest m).positional

theorem text_of_nonzero {n : Number} (number : n.isNaN = false) (nonzero : n.isZero = false) :
    n.text = if n.isNegative then "-" ++ magnitudeText n.magnitude
      else magnitudeText n.magnitude := by
  unfold text magnitudeText
  rw [number, nonzero]
  rfl

/-- The text of a magnitude begins with a digit, or it is that of infinity. -/
theorem magnitudeText_head (m : Nat) :
    ∃ c rest, (magnitudeText m).toList = c :: rest ∧ (c.isDigit = true ∨ c = 'i') := by
  unfold magnitudeText
  split
  · exact ⟨'i', ['n', 'f'], rfl, .inr rfl⟩
  · obtain ⟨c, rest, chars, isDigit⟩ := (shortest m).positional_head
    exact ⟨c, rest, chars, .inl isDigit⟩

theorem magnitudeText_injective {m n : Nat} (hm : 0 < m) (hn : 0 < n)
    (same : magnitudeText m = magnitudeText n) : m = n := by
  -- Digits are not the text of infinity.
  have finite : ∀ d : Digits, d.positional ≠ "inf" := by
    intro d infinite
    obtain ⟨c, rest, chars, isDigit⟩ := d.positional_head
    rw [infinite] at chars
    obtain ⟨rfl, -⟩ := List.cons.inj (show 'i' :: ['n', 'f'] = c :: rest from chars)
    exact absurd isDigit (by decide)
  unfold magnitudeText at same
  split at same
  · next first =>
    split at same
    · next second => rw [first, second]
    · exact (finite _ same.symm).elim
  · split at same
    · exact (finite _ same).elim
    · refine readsBack_unique hm hn (readsBack_shortest hm) ?_
      rw [Digits.readsBack_congr same]
      exact readsBack_shortest hn

/-- A zero digit stands for no positive magnitude. -/
theorem magnitudeText_ne_zero {m : Nat} (positive : 0 < m) : magnitudeText m ≠ "0" := by
  intro zero
  unfold magnitudeText at zero
  split at zero
  · exact absurd zero (by decide)
  · have same : (shortest m).positional = (⟨0, 0⟩ : Digits).positional := zero.trans (by decide)
    have inside := readsBack_shortest positive
    rw [Digits.readsBack_congr same] at inside
    have below := units_lt_succ (m - 1)
    rw [Nat.sub_add_cancel positive] at below
    simp only [readsBack, onGrid, Nat.zero_mul] at inside
    -- An even magnitude reads back from zero only if it has no units, and an odd one never.
    split at inside
    · have nothing : units m = 0 := (by simpa using inside : units (m - 1) = 0 ∧ units m = 0).2
      omega
    · simp at inside

/-- The text of a number that is neither zero nor NaN begins like no other text. -/
theorem text_head {n : Number} (number : n.isNaN = false) (nonzero : n.isZero = false) :
    n.text ≠ "NaN" ∧ n.text ≠ "0" ∧ (n.text.toList.head? = some '-' ↔ n.isNegative = true) := by
  have positive : 0 < n.magnitude := Nat.pos_of_ne_zero (by simpa [isZero] using nonzero)
  obtain ⟨c, rest, chars, head⟩ := magnitudeText_head n.magnitude
  rw [text_of_nonzero number nonzero]
  cases n.isNegative with
  | true =>
    have signed : ("-" ++ magnitudeText n.magnitude).toList = '-' :: c :: rest := by
      rw [String.toList_append, chars]
      rfl
    refine ⟨fun isNaN => ?_, fun isZero => ?_, by simp [signed]⟩
    · have := signed.symm.trans (congrArg String.toList isNaN)
      exact absurd (List.cons.inj this).1 (by decide)
    · have := signed.symm.trans (congrArg String.toList isZero)
      exact absurd (List.cons.inj this).1 (by decide)
  | false =>
    refine ⟨fun isNaN => ?_, magnitudeText_ne_zero positive, ?_⟩
    · have := chars.symm.trans (congrArg String.toList isNaN)
      obtain ⟨rfl, -⟩ := List.cons.inj (show c :: rest = 'N' :: ['a', 'N'] from this)
      exact absurd head (by decide)
    · simp only [Bool.false_eq_true, if_false, chars, List.head?_cons, Option.some.injEq, iff_false]
      rintro rfl
      exact absurd head (by decide)

theorem text_of_isNaN {n : Number} (isNaN : n.isNaN = true) : n.text = "NaN" := by
  rw [text, isNaN]
  rfl

theorem text_of_isZero {n : Number} (number : n.isNaN = false) (isZero : n.isZero = true) :
    n.text = "0" := by
  rw [text, number, isZero]
  rfl

/-- The characters of the text of a number. -/
theorem mem_text {n : Number} {c : Char} (member : c ∈ n.text.toList) :
    c.isDigit = true ∨ c ∈ "-.NaNinf".toList := by
  have unsigned {m : Nat} (member : c ∈ (magnitudeText m).toList) :
      c.isDigit = true ∨ c ∈ "-.NaNinf".toList := by
    unfold magnitudeText at member
    split at member
    · have infinite : ∀ c ∈ "inf".toList, c ∈ "-.NaNinf".toList := forall_of_all (by decide)
      exact .inr (infinite c member)
    · rcases Digits.mem_positional member with digit | rfl
      · exact .inl digit
      · exact .inr (by decide)
  cases isNaN : n.isNaN with
  | true =>
    have noNumber : ∀ c ∈ "NaN".toList, c ∈ "-.NaNinf".toList := forall_of_all (by decide)
    rw [text_of_isNaN isNaN] at member
    exact .inr (noNumber c member)
  | false =>
    cases isZero : n.isZero with
    | true =>
      rw [text_of_isZero isNaN isZero] at member
      rw [List.mem_singleton.mp member]
      exact .inl rfl
    | false =>
      rw [text_of_nonzero isNaN isZero] at member
      split at member
      · rw [String.toList_append] at member
        rcases List.mem_append.mp member with sign | rest
        · rw [List.mem_singleton.mp sign]
          exact .inr (by decide)
        · exact unsigned rest
      · exact unsigned member

/-- Numbers with the same text are both no number, both a zero, or the same. -/
theorem canonical_eq_of_text_eq {a b : Number} (same : a.text = b.text) :
    a.canonical = b.canonical := by
  unfold canonical
  cases ha : a.isNaN with
  | true =>
    cases hb : b.isNaN with
    | true => rfl
    | false =>
      rw [text_of_isNaN ha] at same
      cases zero : b.isZero with
      | true =>
        rw [text_of_isZero hb zero] at same
        exact absurd same (by decide)
      | false => exact ((text_head hb zero).1 same.symm).elim
  | false =>
    cases hb : b.isNaN with
    | true =>
      rw [text_of_isNaN hb] at same
      cases zero : a.isZero with
      | true =>
        rw [text_of_isZero ha zero] at same
        exact absurd same (by decide)
      | false => exact ((text_head ha zero).1 same).elim
    | false =>
      cases za : a.isZero with
      | true =>
        cases zb : b.isZero with
        | true => rfl
        | false =>
          rw [text_of_isZero ha za] at same
          exact ((text_head hb zb).2.1 same.symm).elim
      | false =>
        cases zb : b.isZero with
        | true =>
          rw [text_of_isZero hb zb] at same
          exact ((text_head ha za).2.1 same).elim
        | false =>
          have sign : a.isNegative = b.isNegative := by
            rw [Bool.eq_iff_iff, ← (text_head ha za).2.2, ← (text_head hb zb).2.2, same]
          refine eq_of_magnitude sign ?_
          rw [text_of_nonzero ha za, text_of_nonzero hb zb, sign] at same
          have texts : magnitudeText a.magnitude = magnitudeText b.magnitude := by
            cases negative : b.isNegative with
            | true => simpa [negative] using same
            | false => simpa [negative] using same
          refine magnitudeText_injective ?_ ?_ texts
          · exact Nat.pos_of_ne_zero (by simpa [isZero] using za)
          · exact Nat.pos_of_ne_zero (by simpa [isZero] using zb)

end StyleFlags.Number
