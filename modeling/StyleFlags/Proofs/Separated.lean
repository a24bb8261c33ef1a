/-!
# Separated parts

Names, keys and declarations are written as parts with separators between them.

Results:
1. `parts_unique`: parts that do not hold a separator are determined by the
   whole text.
2. `cut?_append`: where a backslash takes the meaning from the character behind
   it, a text that holds no bare separator is cut off whole.
3. `cutAt_append`: so is a text that holds no bare stop, whatever the stops are.
-/

namespace StyleFlags

/-- What a check of each character of a list shows. It evaluates, as it looks at no other character. -/
theorem forall_of_all {l : List Char} {p : Char → Prop} [DecidablePred p]
    (all : l.all (fun c => decide (p c)) = true) : ∀ c ∈ l, p c :=
  fun c member => of_decide_eq_true (List.all_eq_true.mp all c member)

/-- Two ways to cut a text at its first separator are the same. -/
theorem parts_unique {α : Type} {separates : α → Prop} {a b c d : List α} {x y : α}
    (ha : ∀ z ∈ a, ¬separates z) (hc : ∀ z ∈ c, ¬separates z) (hx : separates x)
    (hy : separates y) (same : a ++ x :: b = c ++ y :: d) : a = c ∧ x = y ∧ b = d := by
  induction a generalizing c with
  | nil =>
    cases c with
    | nil => simpa using same
    | cons e rest =>
      obtain ⟨rfl, _⟩ := List.cons.inj same
      exact absurd hx (hc _ List.mem_cons_self)
  | cons e rest ih =>
    cases c with
    | nil =>
      obtain ⟨rfl, _⟩ := List.cons.inj same
      exact absurd hy (ha _ List.mem_cons_self)
    | cons f more =>
      obtain ⟨rfl, tails⟩ := List.cons.inj same
      obtain ⟨rfl, equal⟩ := ih (fun z member => ha z (List.mem_cons_of_mem _ member))
        (fun z member => hc z (List.mem_cons_of_mem _ member)) tails
      exact ⟨rfl, equal⟩

/-! ## Escaped separators -/

/-- The separators of declarations. -/
def separators : List Char := [':', ';', '\n']

/-- A text without a separator, and without a line break even behind a backslash. -/
inductive Spelled : List Char → Prop
  | nil : Spelled []
  | plain {c : Char} {rest : List Char} : c ∉ separators → c ≠ '\\' → Spelled rest →
      Spelled (c :: rest)
  | escaped {c : Char} {rest : List Char} : c ≠ '\n' → Spelled rest → Spelled ('\\' :: c :: rest)

/-- Cuts a text at the first `stop` that stands behind no backslash. -/
def cut? (stop : Char) : List Char → Option (List Char × List Char)
  | [] => none
  | '\\' :: c :: rest => (cut? stop rest).map fun (before, after) => ('\\' :: c :: before, after)
  | c :: rest =>
    if c = stop then some ([], rest)
    else (cut? stop rest).map fun (before, after) => (c :: before, after)

namespace Spelled

theorem append {a b : List Char} (ha : Spelled a) (hb : Spelled b) : Spelled (a ++ b) := by
  induction ha with
  | nil => exact hb
  | plain bare notEscape _ ih => exact .plain bare notEscape ih
  | escaped sameLine _ ih => exact .escaped sameLine ih

theorem of_all {l : List Char} (bare : ∀ c ∈ l, c ∉ separators ∧ c ≠ '\\') : Spelled l := by
  induction l with
  | nil => exact .nil
  | cons c rest ih =>
    obtain ⟨head, tail⟩ := List.forall_mem_cons.mp bare
    exact .plain head.1 head.2 (ih tail)

theorem newline_notMem {l : List Char} (spelled : Spelled l) : '\n' ∉ l := by
  induction spelled with
  | nil => simp
  | plain bare _ _ ih =>
    intro member
    rcases List.mem_cons.mp member with rfl | member
    · exact bare (by decide)
    · exact ih member
  | escaped sameLine _ ih =>
    simp only [List.mem_cons, not_or]
    exact ⟨by decide, sameLine.symm, ih⟩

theorem cut?_append {l : List Char} (spelled : Spelled l) {stop : Char}
    (separates : stop ∈ separators) (rest : List Char) :
    cut? stop (l ++ stop :: rest) = some (l, rest) := by
  induction spelled with
  | nil =>
    have notEscape : stop ≠ '\\' := by
      rintro rfl
      exact absurd separates (by decide)
    unfold cut?
    split
    · next heq => exact absurd heq (by simp)
    · next heq => exact absurd (List.cons.inj heq).1 notEscape
    · next heq =>
      obtain ⟨rfl, rfl⟩ := List.cons.inj heq
      simp
  | @plain c tail bare notEscape _ ih =>
    have notStop : c ≠ stop := by
      rintro rfl
      exact bare separates
    rw [List.cons_append, cut?, if_neg notStop, ih]
    · rfl
    · rintro d more rfl
      exact absurd rfl notEscape
  | escaped _ _ ih =>
    rw [List.cons_append, List.cons_append, cut?, ih]
    rfl

end Spelled

/-! ## Other stops -/

/-- A text in which the characters of `stops` stand behind a backslash only, and no line break does. -/
inductive Escaped (stops : List Char) : List Char → Prop
  | nil : Escaped stops []
  | plain {c : Char} {rest : List Char} : c ∉ stops → c ≠ '\\' → Escaped stops rest →
      Escaped stops (c :: rest)
  | escaped {c : Char} {rest : List Char} : c ≠ '\n' → Escaped stops rest →
      Escaped stops ('\\' :: c :: rest)

/-- Cuts a text before the first of `stops` that stands behind no backslash. -/
def cutAt (stops : List Char) : List Char → List Char × List Char
  | [] => ([], [])
  | '\\' :: c :: rest => ('\\' :: c :: (cutAt stops rest).1, (cutAt stops rest).2)
  | c :: rest =>
    if stops.contains c then ([], c :: rest)
    else (c :: (cutAt stops rest).1, (cutAt stops rest).2)

theorem length_cutAt_le (stops text : List Char) : (cutAt stops text).2.length ≤ text.length := by
  fun_induction cutAt stops text with
  | case1 => exact Nat.le_refl _
  | case2 c rest ih => exact Nat.le_trans ih (Nat.le_add_right _ 2)
  | case3 c rest _ _ => exact Nat.le_refl _
  | case4 c rest _ _ ih => exact Nat.le_trans ih (Nat.le_add_right _ 1)

namespace Escaped

variable {stops l : List Char}

theorem append {m : List Char} (hl : Escaped stops l) (hm : Escaped stops m) :
    Escaped stops (l ++ m) := by
  induction hl with
  | nil => exact hm
  | plain bare notEscape _ ih => exact .plain bare notEscape ih
  | escaped sameLine _ ih => exact .escaped sameLine ih

theorem spelled (escaped : Escaped separators l) : Spelled l := by
  induction escaped with
  | nil => exact .nil
  | plain bare notEscape _ ih => exact .plain bare notEscape ih
  | escaped sameLine _ ih => exact .escaped sameLine ih

theorem cutAt_append (escaped : Escaped stops l) {stop : Char} (isStop : stop ∈ stops)
    (notEscape : stop ≠ '\\') (rest : List Char) :
    cutAt stops (l ++ stop :: rest) = (l, stop :: rest) := by
  induction escaped with
  | nil =>
    rw [List.nil_append, cutAt, if_pos (List.contains_iff_mem.mpr isStop)]
    rintro d more rfl
    exact absurd rfl notEscape
  | @plain c tail bare notBackslash _ ih =>
    rw [List.cons_append, cutAt, if_neg (mt List.contains_iff_mem.mp bare), ih]
    rintro d more rfl
    exact absurd rfl notBackslash
  | escaped _ _ ih => rw [List.cons_append, List.cons_append, cutAt, ih]

end Escaped

end StyleFlags
