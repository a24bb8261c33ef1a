import StyleFlags.Proofs.Names
import StyleFlags.Proofs.Reassociation

/-!
# Names tell conditions apart

A name does not say which bar opens a group and which closes one. Their places
do: where an operand has to come a bar opens, and behind an operand it closes.
A decoder that knows its place reads a condition back from its name, one
character at a time, and every chain comes back leaning to the left.

Results:
1. `Decoder.holds_render`: reading what is written for a condition leaves the
   decoder with this condition, joined to what stands before it.
2. `Condition.ofName_name`: a name reads back as the condition with its chains
   grouped to the left.
3. `Condition.names_determine`: facts with one name are equal, and conditions with
   one name are equal up to the grouping of chains, so they have the same value.
-/

namespace StyleFlags

/-! ## A decoder of names -/

/-- The operator with a glyph. -/
def BinaryOperator.ofGlyph? (glyph : Char) : Option BinaryOperator :=
  [junction .or, junction .and, compare .eq, compare .ne, compare .gt, compare .ge, compare .lt,
    compare .le].find? fun op => op.glyph = glyph

theorem BinaryOperator.ofGlyph?_glyph (op : BinaryOperator) : ofGlyph? op.glyph = some op := by
  cases op with
  | junction op => cases op <;> decide
  | compare op => cases op <;> decide

theorem BinaryOperator.glyph_ne_bar (op : BinaryOperator) : op.glyph ≠ Name.bar := by
  cases op with
  | junction op => cases op <;> decide
  | compare op => cases op <;> decide

namespace Decoder

/-- What of an operand has been read: nothing but a negation, a part of a word, a part of a string, or
all of it. The parts are as they are spelled. -/
inductive Scan where
  | start (negated : Bool)
  | word (negated : Bool) (chars : List Char)
  | quoted (chars : List Char) (escaped : Bool)
  | whole (value : Condition)

/-- A group that is open: whether it is negated, and what stands before the operand that is read. -/
structure Group where
  negated : Bool
  left : Option (Condition × BinaryOperator)

/-- The state of the decoder, with the innermost group first. -/
structure State where
  scan : Scan
  groups : List Group

/-- The leaf that a text without quotes is. -/
def leaf (negated : Bool) (text : String) : Condition :=
  match Literal.kindOfText? text with
  | some kind => .literal negated ⟨kind, text⟩
  | none => .property negated text

def decoded (chars : List Char) : String := String.ofList (Name.unescapeFrom .plain chars)

/-- The operand, if it may end here. -/
def Scan.value? : Scan → Option Condition
  | start _ => none
  | word negated chars => some (leaf negated (decoded chars))
  | quoted _ _ => none
  | whole value => some value

/-- The content of a group whose last operand is `value`. -/
def Group.join (g : Group) (value : Condition) : Condition :=
  match g.left with
  | none => value
  | some (left, op) => .binary false op left value

/-- What a glyph behind an operand does: a bar closes the group, an operator goes on with it. -/
def State.behind (s : State) (value : Condition) (glyph : Char) : State :=
  match s.groups with
  | [] => s
  | group :: outer =>
    let content := group.join value
    if glyph = Name.bar then ⟨.whole (if group.negated then content.negate else content), outer⟩
    else
      match BinaryOperator.ofGlyph? glyph with
      | some op => ⟨.start false, ⟨group.negated, some (content, op)⟩ :: outer⟩
      | none => s

/-- Reads one character. -/
def State.step (s : State) (c : Char) : State :=
  match s.scan with
  | .start negated =>
    if c = Name.negation then ⟨.start true, s.groups⟩
    else if c = Name.quote then ⟨.quoted [] false, s.groups⟩
    else if c = Name.bar then ⟨.start false, ⟨negated, none⟩ :: s.groups⟩
    else ⟨.word negated [c], s.groups⟩
  | .word negated chars =>
    if Name.glyphs.contains c then s.behind (leaf negated (decoded chars)) c
    else ⟨.word negated (chars ++ [c]), s.groups⟩
  | .quoted chars true => ⟨.quoted (chars ++ [c]) false, s.groups⟩
  | .quoted chars false =>
    if c = Name.quote then ⟨.whole (.literal false (.string (decoded chars))), s.groups⟩
    else ⟨.quoted (chars ++ [c]) (c = '\\'), s.groups⟩
  | .whole value => s.behind value c

def State.run (s : State) (chars : List Char) : State := chars.foldl step s

/-- Nothing has been read. -/
def State.initial : State := ⟨.start false, [⟨false, none⟩]⟩

/-- What has been read, if all groups are closed. -/
def State.result? (s : State) : Option Condition :=
  match s.scan.value?, s.groups with
  | some value, [group] => some (group.join value)
  | _, _ => none

theorem run_append (s : State) (a b : List Char) : s.run (a ++ b) = (s.run a).run b :=
  List.foldl_append

theorem run_cons (s : State) (c : Char) (rest : List Char) :
    s.run (c :: rest) = (s.step c).run rest :=
  rfl

/-! ## Leaves -/

/-- The operand is read, and its value is `value`. -/
def State.Found (s : State) (groups : List Group) (value : Condition) : Prop :=
  ∃ scan : Scan, s = ⟨scan, groups⟩ ∧ scan.value? = some value

theorem State.Found.step {s : State} {groups : List Group} {value : Condition} {glyph : Char}
    (found : s.Found groups value) (isGlyph : glyph ∈ Name.glyphs) :
    s.step glyph = s.behind value glyph := by
  obtain ⟨scan, rfl, hasValue⟩ := found
  cases scan with
  | start negated => cases hasValue
  | word negated chars =>
    cases hasValue
    exact if_pos (List.contains_iff_mem.mpr isGlyph)
  | quoted chars escaped => cases hasValue
  | whole value =>
    cases hasValue
    rfl

variable {groups : List Group}

theorem run_letters {negated : Bool} {chars l : List Char}
    (letters : ∀ c ∈ l, c ∉ Name.glyphs) :
    State.run ⟨.word negated chars, groups⟩ l = ⟨.word negated (chars ++ l), groups⟩ := by
  induction l generalizing chars with
  | nil => rw [List.append_nil]; rfl
  | cons c rest ih =>
    obtain ⟨head, tail⟩ := List.forall_mem_cons.mp letters
    have step : State.step ⟨.word negated chars, groups⟩ c =
        ⟨.word negated (chars ++ [c]), groups⟩ :=
      if_neg (mt List.contains_iff_mem.mp head)
    rw [run_cons, step, ih tail, List.append_assoc, List.singleton_append]

theorem run_word {negated : Bool} {l : List Char} (letters : ∀ c ∈ l, c ∉ Name.glyphs)
    (nonempty : l ≠ []) :
    State.run ⟨.start negated, groups⟩ l = ⟨.word negated l, groups⟩ := by
  cases l with
  | nil => exact absurd rfl nonempty
  | cons c rest =>
    obtain ⟨head, tail⟩ := List.forall_mem_cons.mp letters
    have apart (glyph : Char) (isGlyph : glyph ∈ Name.glyphs) : c ≠ glyph := by
      rintro rfl
      exact head isGlyph
    have step : State.step ⟨.start negated, groups⟩ c = ⟨.word negated [c], groups⟩ := by
      simp only [State.step, if_neg (apart Name.negation (by decide)),
        if_neg (apart Name.quote (by decide)), if_neg (apart Name.bar (by decide))]
    rw [run_cons, step, run_letters tail]
    rfl

theorem run_quoted {chars l : List Char} (escaped : Escaped [Name.quote] l) :
    State.run ⟨.quoted chars false, groups⟩ l = ⟨.quoted (chars ++ l) false, groups⟩ := by
  induction escaped generalizing chars with
  | nil => rw [List.append_nil]; rfl
  | @plain c rest bare notEscape _ ih =>
    have step : State.step ⟨.quoted chars false, groups⟩ c =
        ⟨.quoted (chars ++ [c]) false, groups⟩ := by
      simp only [State.step, if_neg (mt List.mem_singleton.mpr bare), notEscape, decide_false]
    rw [run_cons, step, ih, List.append_assoc, List.singleton_append]
  | @escaped c rest _ _ ih =>
    have step : State.step ⟨.quoted chars false, groups⟩ '\\' =
        ⟨.quoted (chars ++ ['\\']) true, groups⟩ :=
      rfl
    rw [run_cons, step, run_cons]
    exact ih.trans (by simp)

theorem decoded_escapeChars (text : String) : decoded (Name.escapeChars text.toList) = text := by
  rw [decoded, Name.unescapeFrom_escapeChars, String.ofList_toList]

theorem found_word (negated : Bool) {text : String} (plain : text.toList.all Text.isPlain = true)
    (nonempty : text ≠ "") (groups : List Group) :
    (State.run ⟨.start negated, groups⟩ (Name.escapeChars text.toList)).Found groups
      (leaf negated text) := by
  have reads := decoded_escapeChars text
  refine ⟨_, run_word (notMem_glyphs_of_isPlain plain) fun empty => ?_, ?_⟩
  · rw [empty] at reads
    exact nonempty reads.symm
  · rw [Scan.value?, reads]

theorem found_string (text : String) (groups : List Group) :
    (State.run ⟨.start false, groups⟩
      (Name.quote :: (Name.escapeChars text.toList ++ [Name.quote]))).Found groups
      (.literal false (.string text)) := by
  have opens : State.step ⟨.start false, groups⟩ Name.quote = ⟨.quoted [] false, groups⟩ := rfl
  rw [run_cons, opens, run_append,
    run_quoted (Name.escaped_escapeChars Name.hidden_quote text.toList), List.nil_append]
  refine ⟨_, rfl, ?_⟩
  rw [Scan.value?, decoded_escapeChars]

/-- A leaf, below any operator. -/
theorem found_leaf {c : Condition} (isLeaf : c.op? = none) (shaped : c.Shaped .source)
    (parent : Option BinaryOperator) (groups : List Group) :
    (State.run ⟨.start false, groups⟩ (c.render .glyphs parent).toList).Found groups c := by
  cases c with
  | property negated name =>
    have nonempty : name ≠ "" := by
      rintro rfl
      cases shaped
    have word := found_word negated (isPlain_of_isIdentifier shaped) nonempty groups
    rw [leaf, Literal.kindOfText?_identifier shaped] at word
    rw [Condition.render, Condition.Spelling.glyphs, Name.toList_property]
    cases negated with
    | false => exact word
    | true => exact word
  | literal negated l =>
    obtain ⟨rfl, readable⟩ := shaped
    obtain ⟨kind, text⟩ := l
    rw [Condition.render, Condition.Spelling.glyphs, Name.toList_literal]
    split
    · next isString =>
      cases isString
      exact found_string text groups
    · next bare =>
      have isKind := Literal.kindOfText?_text readable bare
      have nonempty : text ≠ "" := by
        rintro rfl
        cases isKind
      have word := found_word false (Literal.isPlain_text readable bare) nonempty groups
      rwa [leaf, isKind] at word
  | binary negated op left right => cases isLeaf

/-! ## Groups -/

/-- A chain is read up to here: the group is open, and its content would be `content`. -/
def State.Holds (s : State) (negated : Bool) (outer : List Group) (content : Condition) : Prop :=
  ∃ left value, s.Found (⟨negated, left⟩ :: outer) value ∧ Group.join ⟨negated, left⟩ value = content

section Holds

variable {s : State} {negated : Bool} {outer : List Group} {content : Condition}

theorem State.Holds.operator (holds : s.Holds negated outer content) (op : BinaryOperator) :
    s.step op.glyph = ⟨.start false, ⟨negated, some (content, op)⟩ :: outer⟩ := by
  obtain ⟨left, value, found, rfl⟩ := holds
  rw [found.step op.glyph_mem]
  obtain ⟨scan, rfl, _⟩ := found
  simp only [State.behind, if_neg op.glyph_ne_bar, op.ofGlyph?_glyph]

theorem State.Holds.close (holds : s.Holds negated outer content) :
    s.step Name.bar = ⟨.whole (if negated then content.negate else content), outer⟩ := by
  obtain ⟨left, value, found, rfl⟩ := holds
  rw [found.step (by decide)]
  obtain ⟨scan, rfl, _⟩ := found
  simp only [State.behind, if_pos]

theorem State.Holds.result (holds : s.Holds false [] content) : s.result? = some content := by
  obtain ⟨left, value, ⟨scan, rfl, isValue⟩, rfl⟩ := holds
  simp only [State.result?, isValue]

/-- A group that is written out, with a negation before it or not. -/
theorem found_group {chars : List Char}
    (inside : (State.run ⟨.start false, ⟨negated, none⟩ :: outer⟩ chars).Holds negated outer content) :
    (State.run ⟨.start false, outer⟩
      ((if negated then [Name.negation] else []) ++ Name.bar :: (chars ++ [Name.bar]))).Found outer
      (if negated then content.negate else content) := by
  have opens : State.run ⟨.start false, outer⟩ ((if negated then [Name.negation] else []) ++
      Name.bar :: (chars ++ [Name.bar])) =
      State.run ⟨.start false, ⟨negated, none⟩ :: outer⟩ (chars ++ [Name.bar]) := by
    cases negated <;> rfl
  rw [opens, run_append]
  exact ⟨_, inside.close, rfl⟩

end Holds

/-! ## Conditions -/

/-- What is written for the two sides of an operator, without bars. -/
def joined (op : BinaryOperator) (left right : Condition) : List Char :=
  (left.render .glyphs (some op)).toList ++ op.glyph :: (right.render .glyphs (some op)).toList

theorem toList_render_binary (negated : Bool) (op : BinaryOperator) (left right : Condition)
    (parent : Option BinaryOperator) :
    (Condition.render .glyphs parent (.binary negated op left right)).toList =
      if negated = false ∧ some op = parent then joined op left right
      else (if negated then [Name.negation] else []) ++
        Name.bar :: (joined op left right ++ [Name.bar]) := by
  cases negated with
  | true => simp [Condition.render, joined, Condition.Spelling.glyphs]
  | false =>
    by_cases same : some op = parent
    · simp [Condition.render, joined, Condition.Spelling.glyphs, same]
    · simp [Condition.render, joined, Condition.Spelling.glyphs, same]

/-- What comes of a condition behind the part of a chain that stands before it. -/
def extend (op : Connective) (left : Option Condition) (c : Condition) : Condition :=
  match left with
  | none => c
  | some l => Condition.attach op l c

/-- A group that holds a part of a chain. -/
def chain (negated : Bool) (op : Connective) (left : Option Condition) : Group :=
  ⟨negated, left.map fun l => (l, .junction op)⟩

theorem attach_extend (op : Connective) (left : Option Condition) (a b : Condition) :
    Condition.attach op (extend op left a) b = extend op left (Condition.attach op a b) := by
  cases left with
  | none => rfl
  | some l => exact Condition.attach_assoc op l a b

variable {c : Condition} {op : Connective} {negated : Bool} {left : Option Condition}
  {outer : List Group}

/-- An operand that is no chain itself is one more item of the chain. -/
theorem State.Found.holds {s : State} (found : s.Found (chain negated op left :: outer) c)
    (apart : ∀ first last, c ≠ .binary false (.junction op) first last) :
    s.Holds negated outer (extend op left c) := by
  refine ⟨_, c, found, ?_⟩
  cases left with
  | none => rfl
  | some l => exact (Condition.attach_of_not_chain apart).symm

end Decoder

namespace Condition

theorem leftward_of_leaf {c : Condition} (isLeaf : c.op? = none) : c.leftward = c := by
  cases c with
  | property negated name => rfl
  | literal negated l => rfl
  | binary negated op left right => cases isLeaf

theorem leftward_comparison {v : Vocabulary} {negated : Bool} {op : Comparison}
    {left right : Condition} (shaped : (binary negated (.compare op) left right).Shaped v) :
    (binary negated (.compare op) left right).leftward = binary negated (.compare op) left right := by
  obtain ⟨⟨name, rfl, _⟩, operand⟩ := shaped
  rw [leftward, leftward_of_leaf operand.shaped.1]
  rfl

end Condition

namespace Decoder

/-- The sides of a comparison are leaves. -/
theorem holds_comparison {op : Comparison} {left right : Condition}
    (shaped : (Condition.binary false (.compare op) left right).Shaped .source) (negated : Bool)
    (outer : List Group) :
    (State.run ⟨.start false, ⟨negated, none⟩ :: outer⟩ (joined (.compare op) left right)).Holds
      negated outer (.binary false (.compare op) left right) := by
  obtain ⟨⟨name, rfl, known⟩, operand⟩ := shaped
  obtain ⟨isLeaf, shaped⟩ := operand.shaped
  have first := found_leaf (c := .property false name) rfl known (some (.compare op))
    (⟨negated, none⟩ :: outer)
  have holds : State.Holds _ negated outer _ := ⟨none, _, first, rfl⟩
  rw [joined, run_append, run_cons, holds.operator]
  exact ⟨_, right, found_leaf isLeaf shaped _ _, rfl⟩

theorem leftward_ne_chain {negated : Bool} {op op' : Connective} {left right : Condition}
    (apart : ¬(negated = false ∧ op' = op)) (first last : Condition) :
    (Condition.binary negated (.junction op') left right).leftward ≠
      .binary false (.junction op) first last := by
  obtain ⟨a, b, attached⟩ := Condition.attach_eq_binary op' left.leftward right.leftward
  rw [Condition.leftward, attached]
  cases negated with
  | true =>
    intro same
    cases same
  | false =>
    intro same
    cases same
    exact apart ⟨rfl, rfl⟩

/-- Reading what is written for a condition below a connective. The induction goes over the condition;
what stands before it in the chain is arbitrary, since the right side of a chain is read with the left
side before it. -/
theorem holds_render {c : Condition} (shaped : c.Shaped .source) (op : Connective) (negated : Bool)
    (left : Option Condition) (outer : List Group) :
    (State.run ⟨.start false, chain negated op left :: outer⟩
      (c.render .glyphs (some (.junction op))).toList).Holds negated outer
      (extend op left c.leftward) := by
  induction c generalizing op negated left outer with
  | property denied name =>
    refine State.Found.holds (found_leaf rfl shaped _ _) ?_
    intro first last same
    cases same
  | literal denied l =>
    refine State.Found.holds (found_leaf rfl shaped _ _) ?_
    intro first last same
    cases same
  | binary denied op' a b iha ihb =>
    rw [toList_render_binary]
    cases op' with
    | junction op' =>
      obtain ⟨_, _, ha, hb⟩ := shaped
      have sides (negated : Bool) (left : Option Condition) (outer : List Group) :
          (State.run ⟨.start false, chain negated op' left :: outer⟩
            (joined (.junction op') a b)).Holds negated outer
            (extend op' left (Condition.attach op' a.leftward b.leftward)) := by
        rw [joined, run_append, run_cons, (iha ha op' negated left outer).operator, ← attach_extend]
        exact ihb hb op' negated (some (extend op' left a.leftward)) outer
      by_cases flat : denied = false ∧ op' = op
      · obtain ⟨rfl, rfl⟩ := flat
        rw [if_pos ⟨rfl, rfl⟩]
        exact sides negated left outer
      · rw [if_neg (by simpa using flat)]
        exact State.Found.holds (found_group (sides denied none _)) (leftward_ne_chain flat)
    | compare op' =>
      have content : (Condition.binary denied (.compare op') a b).leftward =
          if denied then (Condition.binary false (.compare op') a b).negate
          else .binary false (.compare op') a b := by
        rw [Condition.leftward_comparison shaped]
        cases denied <;> rfl
      rw [if_neg (by simp), content]
      refine State.Found.holds (found_group (holds_comparison shaped denied _)) ?_
      rw [← content, Condition.leftward_comparison shaped]
      intro first last same
      cases same

end Decoder

namespace Condition

open Decoder

/-- Reads a condition back from its name. -/
def ofName (name : String) : Option Condition := (State.initial.run name.toList).result?

theorem ofName_name {c : Condition} (shaped : c.Shaped .source) : ofName c.name = some c.leftward := by
  refine State.Holds.result ?_
  cases c with
  | property negated name => exact ⟨none, _, found_leaf rfl shaped _ _, rfl⟩
  | literal negated l => exact ⟨none, _, found_leaf rfl shaped _ _, rfl⟩
  | binary negated op left right =>
    cases op with
    | junction op => exact holds_render shaped op false none []
    | compare op =>
      rw [leftward_comparison shaped, name, toList_render_binary]
      cases negated with
      | false =>
        rw [if_pos ⟨rfl, rfl⟩]
        exact holds_comparison shaped false []
      | true => exact ⟨none, _, found_group (holds_comparison shaped true _), rfl⟩

theorem Shaped.name_eq_iff {c d : Condition} (hc : c.Shaped .source) (hd : d.Shaped .source) :
    c.name = d.name ↔ Reassociated c d := by
  refine ⟨fun same => .of_leftward_eq (Option.some.inj ?_), Reassociated.name_eq⟩
  rw [← ofName_name hc, same, ofName_name hd]

/-- Whether all names and literals of a condition are in the vocabulary. -/
def Over (v : Vocabulary) : Condition → Prop
  | property _ name => v.name name
  | literal _ l => v.literal l
  | binary _ _ left right => left.Over v ∧ right.Over v

theorem Shaped.of_over {v : Vocabulary} {c : Condition} (shaped : c.Shaped .all) (known : c.Over v) :
    c.Shaped v := by
  induction c with
  | property negated name => exact known
  | literal negated l => exact ⟨shaped.1, known⟩
  | binary negated op left right ihl ihr =>
    cases op with
    | junction op =>
      obtain ⟨leftOpen, rightOpen, hl, hr⟩ := shaped
      exact ⟨leftOpen, rightOpen, ihl hl known.1, ihr hr known.2⟩
    | compare op =>
      obtain ⟨⟨name, rfl, _⟩, operand⟩ := shaped
      refine ⟨⟨name, rfl, known.1⟩, ?_⟩
      cases right with
      | property negated other => exact known.2
      | literal negated l => exact ⟨operand.1, known.2, operand.2.2⟩
      | binary negated found first last => exact operand.elim

/-- Facts about what sources can write are equal if they have one name. Conditions that can be built,
over what sources can write, have one name if and only if they are equal up to the grouping of chains,
and then they have the same value on every bag. -/
theorem names_determine :
    (∀ f g : Fact, f.Scanned → g.Scanned → f.name = g.name → f = g) ∧
      ∀ c d : Condition, c.Built → d.Built → c.Over .source → d.Over .source →
        (c.name = d.name ↔ Reassociated c d) ∧
          (c.name = d.name → ∀ bag, c.evaluate bag = d.evaluate bag) := by
  constructor
  · intro f g hf hg same
    rw [← Fact.ofName_name hf, same, Fact.ofName_name hg]
  · intro c d builtC builtD overC overD
    have alike := (builtC.shaped.of_over overC).name_eq_iff (builtD.shaped.of_over overD)
    exact ⟨alike, fun same bag => (alike.mp same).evaluate_eq bag⟩

/-- A string that holds a bar, a quote and an operator. -/
def exString : Literal := .string "´∣ || b"

def exComparison : Condition :=
  binary false (.compare .eq) (property false "size") (literal false exString)

/-- `(a || !b) || size == '´∣ || b'`. -/
def exLeftward : Condition :=
  binary false (.junction .or)
    (binary false (.junction .or) (property false "a") (property true "b")) exComparison

/-- The same chain, grouped to the right. -/
def exRightward : Condition :=
  binary false (.junction .or) (property false "a")
    (binary false (.junction .or) (property true "b") exComparison)

theorem names_determine_exLeftward :
    (Fact.name ⟨"size", .compare .eq (.literal .null)⟩ ≠
        Fact.name ⟨"size", .compare .eq (.literal (.string "null"))⟩) ∧
      exLeftward.name = exRightward.name ∧ Reassociated exLeftward exRightward ∧
        ∀ bag, exLeftward.evaluate bag = exRightward.evaluate bag := by
  have readable : exString.Readable := Literal.readable_iff.mpr (.inl rfl)
  have junction {c d : Condition} (hc : c.Built) (hd : d.Built) :
      (Condition.junction .or c d).Built :=
    .infixed hc hd (rfl : infixed (.binary (.junction .or)) c d = .ok _)
  have operand : exComparison.Built :=
    .infixed (.property "size") (.literal exString)
      (rfl : infixed (.binary (.compare .eq)) _ _ = .ok _)
  have denied : (property true "b").Built := .negate (.property "b")
  have builtLeft : exLeftward.Built := junction (junction (.property "a") denied) operand
  have builtRight : exRightward.Built := junction (.property "a") (junction denied operand)
  have a : isIdentifier "a" = true := by decide
  have b : isIdentifier "b" = true := by decide
  have size : isIdentifier "size" = true := by decide
  obtain ⟨alike, values⟩ := names_determine.2 exLeftward exRightward builtLeft builtRight
    ⟨⟨a, b⟩, size, readable⟩ ⟨a, b, size, readable⟩
  have same : exLeftward.name = exRightward.name := by decide +kernel
  refine ⟨fun equal => ?_, same, alike.mp same, values same⟩
  have equal := names_determine.1 ⟨"size", .compare .eq (.literal .null)⟩
    ⟨"size", .compare .eq (.literal (.string "null"))⟩
    ⟨size, Literal.readable_iff.mpr (.inr (.inr rfl))⟩ ⟨size, Literal.readable_iff.mpr (.inl rfl)⟩ equal
  cases equal

end Condition

end StyleFlags
