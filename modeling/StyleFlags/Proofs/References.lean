import StyleFlags.Guard
import StyleFlags.Proofs.Names

/-!
# Reading values made of references

The value of a custom property is text, and what it means is read off the text:
`var(--name)` is a flag, `var(--name,fallback)` is a fallback behind a flag, and
blanks stand between parts of which one is enough. The name in a reference ends
at the first comma or parenthesis without a backslash, and no name of a flag has
one, so a guard is read from its text with the meaning that it was written with.

Results:
1. `Part.flag`, `Part.gated`, `Reads.last`, `Reads.more`: what is read from the
   front of a text, one rule for each form.
2. `reads_text`: a guard that is made of flags reads back, whatever follows it.
3. `isOn_read?_text`: its text alone tells when it is on.
-/

namespace StyleFlags.Guard

/-! ## The reader -/

/-- What every reference begins with. -/
def opening : List Char := ['v', 'a', 'r', '(', '-', '-']

/-- The characters that end the name in a reference. -/
def nameStops : List Char := [',', ')']

/-- What is left of a text behind something that was read from it. -/
abbrev Rest (text : List Char) := { rest : List Char // rest.length < text.length }

theorem length_cutAt_drop_lt {text : List Char} (opens : opening.isPrefixOf text = true) :
    (cutAt nameStops (text.drop opening.length)).2.length < text.length := by
  have long := (List.isPrefixOf_iff_prefix.mp opens).length_le
  have cut := length_cutAt_le nameStops (text.drop opening.length)
  have six : opening.length = 6 := rfl
  rw [List.length_drop] at cut
  omega

/-- The name of the reference that a text begins with, and the text from the end of the name on. -/
def readName? (text : List Char) : Option (String × Rest text) :=
  if opens : opening.isPrefixOf text = true then
    let cut := cutAt nameStops (text.drop opening.length)
    some (String.ofList cut.1, ⟨cut.2, length_cutAt_drop_lt opens⟩)
  else none

/-- What is left of a text behind this character. -/
def skip? (c : Char) : (text : List Char) → Option (Rest text)
  | [] => none
  | first :: rest => if first = c then some ⟨rest, Nat.lt_succ_self _⟩ else none

theorem skip?_cons (c : Char) (rest : List Char) :
    skip? c (c :: rest) = some ⟨rest, Nat.lt_succ_self _⟩ :=
  if_pos rfl

theorem skip?_eq_none {c : Char} {text : List Char} (other : text.head? ≠ some c) :
    skip? c text = none := by
  cases text with
  | nil => rfl
  | cons first rest => exact if_neg fun same => other (congrArg some same)

theorem double_length_lt {first second text : List Char} (hs : second.length < first.length)
    (hf : first.length < text.length) : 2 * second.length + 1 < 2 * text.length := by
  omega

mutual

/-- Reads one reference. -/
def readPart (text : List Char) : Option (Guard × Rest text) := do
  let (name, ⟨ended, he⟩) ← readName? text
  match skip? ')' ended with
  | some ⟨rest, hr⟩ => some (flag name, ⟨rest, Nat.lt_trans hr he⟩)
  | none =>
    let ⟨fallback, hf⟩ ← skip? ',' ended
    let (inner, ⟨closed, hc⟩) ← readValue fallback
    let ⟨rest, hr⟩ ← skip? ')' closed
    some (gated name inner, ⟨rest, Nat.lt_trans hr (Nat.lt_trans hc (Nat.lt_trans hf he))⟩)
termination_by 2 * text.length
decreasing_by exact double_length_lt hf he

/-- Reads references with blanks between them, as many as there are. -/
def readValue (text : List Char) : Option (Guard × Rest text) := do
  let (part, ⟨behind, hb⟩) ← readPart text
  match skip? ' ' behind with
  | some ⟨more, hm⟩ =>
    let (others, ⟨rest, hr⟩) ← readValue more
    some (either part others, ⟨rest, Nat.lt_trans hr (Nat.lt_trans hm hb)⟩)
  | none => some (part, ⟨behind, hb⟩)
termination_by 2 * text.length + 1
decreasing_by
  · exact Nat.lt_succ_self _
  · exact Nat.lt_succ_of_lt (double_length_lt hm hb)

end

/-- Reads a whole text. -/
def read? (text : String) : Option Guard :=
  match readValue text.toList with
  | some (g, ⟨[], _⟩) => some g
  | _ => none

/-! ## What is read -/

/-- One reference is read from the front of the text, and `rest` is left. -/
def Part (text : List Char) (g : Guard) (rest : List Char) : Prop :=
  ∃ shorter, readPart text = some (g, ⟨rest, shorter⟩)

/-- All references from the front of the text on are read, and `rest` is left. -/
def Reads (text : List Char) (g : Guard) (rest : List Char) : Prop :=
  ∃ shorter, readValue text = some (g, ⟨rest, shorter⟩)

theorem readName?_append {name : List Char} (escaped : Escaped nameStops name) (stop : Char)
    (isStop : stop ∈ nameStops) (rest : List Char) :
    ∃ shorter, readName? (opening ++ (name ++ stop :: rest)) =
      some (String.ofList name, ⟨stop :: rest, shorter⟩) := by
  have opens : opening.isPrefixOf (opening ++ (name ++ stop :: rest)) = true :=
    List.isPrefixOf_iff_prefix.mpr (List.prefix_append _ _)
  have notEscape : stop ≠ '\\' := by
    rintro rfl
    exact absurd isStop (by decide)
  have cut := escaped.cutAt_append isStop notEscape rest
  have behind : (opening ++ (name ++ stop :: rest)).drop opening.length = name ++ stop :: rest :=
    List.drop_left
  rw [← behind] at cut
  refine ⟨by simp [opening]; omega, ?_⟩
  simp only [readName?, opens, dif_pos, cut]

variable {name rest text : List Char} {g : Guard}

theorem Part.flag (escaped : Escaped nameStops name) (rest : List Char) :
    Part (opening ++ (name ++ ')' :: rest)) (.flag (String.ofList name)) rest := by
  obtain ⟨shorter, found⟩ := readName?_append escaped ')' (by decide) rest
  refine ⟨Nat.lt_of_succ_lt shorter, ?_⟩
  rw [readPart, found]
  simp only [Option.bind_eq_bind, Option.bind_some, skip?_cons]

theorem Part.gated (escaped : Escaped nameStops name) {fallback : List Char}
    (inner : Reads fallback g (')' :: rest)) :
    Part (opening ++ (name ++ ',' :: fallback)) (.gated (String.ofList name) g) rest := by
  obtain ⟨shorter, found⟩ := readName?_append escaped ',' (by decide) fallback
  obtain ⟨closed, read⟩ := inner
  refine ⟨Nat.lt_trans (Nat.lt_of_succ_lt closed) (Nat.lt_of_succ_lt shorter), ?_⟩
  have goesOn : skip? ')' (',' :: fallback) = none := skip?_eq_none (by simp)
  rw [readPart, found]
  simp only [Option.bind_eq_bind, Option.bind_some, goesOn, skip?_cons, read]

theorem Reads.last (part : Part text g rest) (ends : rest.head? ≠ some ' ') :
    Reads text g rest := by
  obtain ⟨shorter, read⟩ := part
  refine ⟨shorter, ?_⟩
  rw [readValue, read]
  simp only [Option.bind_eq_bind, Option.bind_some, skip?_eq_none ends]

theorem Reads.more {others : Guard} {more : List Char} (part : Part text g (' ' :: more))
    (next : Reads more others rest) : Reads text (either g others) rest := by
  obtain ⟨shorter, read⟩ := part
  obtain ⟨left, readNext⟩ := next
  refine ⟨Nat.lt_trans left (Nat.lt_of_succ_lt shorter), ?_⟩
  rw [readValue, read]
  simp only [Option.bind_eq_bind, Option.bind_some, skip?_cons, readNext]

/-! ## Guards made of flags -/

/-- A guard made of flags only, whose names end where they should. -/
def Legible : Guard → Prop
  | on => False
  | off => False
  | flag name => Escaped nameStops name.toList
  | gated name inner => Escaped nameStops name.toList ∧ inner.Legible
  | either left right => left.Legible ∧ right.Legible

theorem toList_flag (options : Options) (name : String) (rest : List Char) :
    ((flag name).text options).toList ++ rest = opening ++ (name.toList ++ ')' :: rest) := by
  simp [text, reference, opening]

theorem toList_gated (options : Options) (name : String) (inner : Guard) (rest : List Char) :
    ((gated name inner).text options).toList ++ rest =
      opening ++ (name.toList ++ ',' :: ((inner.text options).toList ++ ')' :: rest)) := by
  simp [text, referenceOr, opening]

theorem toList_either (options : Options) (left right : Guard) (rest : List Char) :
    ((either left right).text options).toList ++ rest =
      (left.text options).toList ++ ' ' :: ((right.text options).toList ++ rest) := by
  simp [text]

/-- A guard reads back from its text with its meaning: as all that is read, or together with what is
read behind a blank. -/
theorem reads_text (options : Options) (legible : g.Legible) :
    (∀ rest, rest.head? ≠ some ' ' → ∃ h, Reads ((g.text options).toList ++ rest) h rest ∧
      ∀ flags, h.isOn flags = g.isOn flags) ∧
    ∀ {more others rest}, Reads more others rest →
      ∃ h, Reads ((g.text options).toList ++ ' ' :: more) h rest ∧
        ∀ flags, h.isOn flags = (g.isOn flags || others.isOn flags) := by
  induction g with
  | on => exact legible.elim
  | off => exact legible.elim
  | flag name =>
    have part (rest : List Char) :
        Part (((flag name).text options).toList ++ rest) (flag name) rest := by
      have read := Part.flag legible rest
      rwa [String.ofList_toList, ← toList_flag options] at read
    refine ⟨fun rest ends => ⟨_, .last (part rest) ends, fun _ => rfl⟩, ?_⟩
    intro more others rest next
    exact ⟨_, .more (part (' ' :: more)) next, fun _ => rfl⟩
  | gated name inner ih =>
    obtain ⟨alone, _⟩ := ih legible.2
    have part (rest : List Char) :
        ∃ h, Part (((gated name inner).text options).toList ++ rest) (gated name h) rest ∧
          ∀ flags, h.isOn flags = inner.isOn flags := by
      obtain ⟨h, read, same⟩ := alone (')' :: rest) (by simp)
      have outer := Part.gated legible.1 read
      rw [String.ofList_toList, ← toList_gated] at outer
      exact ⟨h, outer, same⟩
    refine ⟨fun rest ends => ?_, fun {more others rest} next => ?_⟩
    · obtain ⟨h, read, same⟩ := part rest
      exact ⟨_, .last read ends, fun flags => by rw [isOn, isOn, same]⟩
    · obtain ⟨h, read, same⟩ := part (' ' :: more)
      exact ⟨_, .more read next, fun flags => by rw [isOn, isOn, isOn, same]⟩
  | either left right ihl ihr =>
    obtain ⟨_, before⟩ := ihl legible.1
    obtain ⟨alone, between⟩ := ihr legible.2
    refine ⟨fun rest ends => ?_, fun {more others rest} next => ?_⟩
    · obtain ⟨h, read, same⟩ := alone rest ends
      obtain ⟨k, readAll, sameAll⟩ := before read
      rw [← toList_either] at readAll
      exact ⟨k, readAll, fun flags => by rw [sameAll, same, isOn]⟩
    · obtain ⟨h, read, same⟩ := between next
      obtain ⟨k, readAll, sameAll⟩ := before read
      rw [← toList_either] at readAll
      exact ⟨k, readAll, fun flags => by rw [sameAll, same, isOn, Bool.or_assoc]⟩

/-- The text of a guard alone tells when the guard is on. -/
theorem isOn_read?_text (options : Options) (legible : g.Legible) :
    ∃ h, read? (g.text options) = some h ∧ ∀ flags, h.isOn flags = g.isOn flags := by
  obtain ⟨h, read, same⟩ := (reads_text options legible).1 [] (by simp)
  rw [List.append_nil] at read
  obtain ⟨shorter, found⟩ := read
  refine ⟨h, ?_, same⟩
  rw [read?, found]

end StyleFlags.Guard
