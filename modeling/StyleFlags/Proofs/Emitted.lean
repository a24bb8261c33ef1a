import StyleFlags.Proofs.Resolved
import StyleFlags.Proofs.Seams

/-!
# References in what is emitted

A source may hold references of its own, which are copied, so the text that is
emitted does not tell which references a directive has opened. Here a text is
emitted with these references marked. What is marked, and which directives a
source holds, is read off the source alone: an expansion has to agree with both,
in its text and in the directives that it lists.

Results:
1. `Emitted.chars_trim`: trimming a branch loses no reference.
2. `Directive.Rewrites.expands`, `Directive.Expands.exists_rewrites`: what is emitted with marks
   is what expanding puts in the place of directives.
3. `Directive.expand_eq_ok_iff`: a source expands to a text exactly if it is rewritten to it.
4. `Directive.RewritesFrom.exists_refersTo`: every reference that is opened belongs to one of
   the directives of the source.
5. `Sheet.references_declared_and_properties_registered`: the references in what is emitted and
   in prepared values are declared, and the bags that are accepted are those whose
   properties occur in tests.
-/

namespace StyleFlags

/-! ## Texts with marks -/

/-- A part of what is emitted: a character, or the beginning of a reference that a directive opens,
up to the comma behind its name. -/
inductive Emitted where
  | char (c : Char)
  | reference (name : String)
deriving DecidableEq, Repr

namespace Emitted

/-- A part as it is written. -/
def spelling : Emitted → List Char
  | char c => [c]
  | reference name => Guard.opening ++ (name.toList ++ [','])

/-- The text without its marks. -/
def chars (out : List Emitted) : List Char := out.flatMap spelling

/-- Text that no directive has opened a reference in. -/
def copied (text : List Char) : List Emitted := text.map char

/-- A reference, with what takes its place. -/
def guarded (name : String) (inside : List Emitted) : List Emitted :=
  reference name :: (inside ++ [char ')'])

def isBlank : Emitted → Bool
  | char c => Text.isBlank c
  | reference _ => false

/-- Drops the white space at both ends. -/
def trim (out : List Emitted) : List Emitted :=
  ((out.dropWhile isBlank).reverse.dropWhile isBlank).reverse

theorem chars_append (out rest : List Emitted) : chars (out ++ rest) = chars out ++ chars rest :=
  List.flatMap_append

theorem chars_cons (e : Emitted) (rest : List Emitted) :
    chars (e :: rest) = e.spelling ++ chars rest := List.flatMap_cons

@[simp] theorem chars_copied (text : List Char) : chars (copied text) = text := by
  rw [chars, copied, List.flatMap_map]
  exact List.flatMap_singleton' text

theorem chars_guarded (name : String) (inside : List Emitted) :
    String.ofList (chars (guarded name inside)) =
      referenceOr name (String.ofList (chars inside)) := by
  refine String.toList_injective ?_
  rw [guarded, chars_cons, chars_append]
  simp [spelling, chars, referenceOr, Guard.opening]

/-- From where a reference is opened, its name can be read. -/
theorem exists_readName? {name : String} (escaped : Escaped Guard.nameStops name.toList)
    (rest : List Emitted) :
    ∃ left, Guard.readName? (chars (reference name :: rest)) = some (name, left) := by
  have parts : chars (reference name :: rest) =
      Guard.opening ++ (name.toList ++ ',' :: chars rest) := by
    simp [chars_cons, spelling]
  obtain ⟨shorter, read⟩ := Guard.readName?_append escaped ',' (by decide) (chars rest)
  rw [String.ofList_toList] at read
  rw [parts]
  exact ⟨_, read⟩

theorem notMem_copied {text : List Char} {name : String} : reference name ∉ copied text := by
  simp [copied]

/-- Dropping blanks commutes with any spelling in which no reference begins with a blank. -/
theorem flatMap_dropWhile {spell : Emitted → List Char} (single : ∀ c, spell (char c) = [c])
    (visible : ∀ name, ∃ first rest, spell (reference name) = first :: rest ∧
      Text.isBlank first = false) (out : List Emitted) :
    (out.dropWhile isBlank).flatMap spell = (out.flatMap spell).dropWhile Text.isBlank := by
  induction out with
  | nil => rfl
  | cons e rest ih =>
    rw [List.flatMap_cons]
    cases e with
    | char c =>
      rw [single, List.singleton_append]
      cases blank : Text.isBlank c with
      | true =>
        rw [List.dropWhile_cons_of_pos (by exact blank), List.dropWhile_cons_of_pos blank, ih]
      | false =>
        rw [List.dropWhile_cons_of_neg (by simp [isBlank, blank]),
          List.dropWhile_cons_of_neg (by simp [blank]), List.flatMap_cons, single,
          List.singleton_append]
    | reference name =>
      obtain ⟨first, tail, spelled, shown⟩ := visible name
      rw [spelled, List.cons_append, List.dropWhile_cons_of_neg (by simp [isBlank]),
        List.dropWhile_cons_of_neg (by simp [shown]), List.flatMap_cons, spelled, List.cons_append]

/-- Trimming drops characters only, as a reference neither begins nor ends with a blank. -/
theorem chars_trim (out : List Emitted) : chars (trim out) = Text.trim (chars out) := by
  have front (out : List Emitted) :
      chars (out.dropWhile isBlank) = (chars out).dropWhile Text.isBlank :=
    flatMap_dropWhile (fun _ => rfl) (fun name => ⟨'v', _, rfl, by decide⟩) out
  have back (out : List Emitted) :
      (out.reverse.dropWhile isBlank).flatMap (List.reverse ∘ spelling) =
        (chars out).reverse.dropWhile Text.isBlank := by
    rw [chars, List.reverse_flatMap]
    refine flatMap_dropWhile (fun _ => rfl) (fun name => ?_) out.reverse
    refine ⟨',', (Guard.opening ++ name.toList).reverse, ?_, by decide⟩
    simp [spelling]
  rw [trim, chars, List.flatMap_reverse, back, front]
  rfl

theorem mem_of_mem_trim {out : List Emitted} {e : Emitted} (member : e ∈ trim out) : e ∈ out := by
  have kept := (List.dropWhile_sublist _).mem (List.mem_reverse.mp member)
  exact (List.dropWhile_sublist _).mem (List.mem_reverse.mp kept)

end Emitted

/-! ## What takes the place of a directive -/

namespace Directive

open Emitted

/-- The directive with these branches. -/
def ofBranches (test : Condition) (consequent : List Emitted) (alternate : Option (List Emitted)) :
    Directive where
  test := test
  consequent := String.ofList (chars consequent)
  alternate := alternate.map fun out => String.ofList (chars out)

/-- What takes the place of a directive with these branches. A constant test keeps one branch, with
the references that are opened in it; any other test opens a reference for every branch. -/
inductive Emits (d : Directive) (consequent : List Emitted) :
    Option (List Emitted) → List Emitted → Prop
  | constant {alternate : Option (List Emitted)} {truth : Bool} : d.test.constant? = some truth →
      Emits d consequent alternate (if truth then consequent else alternate.getD [])
  | single {name : String} : d.test.constant? = none → d.guardName "if-" d.positive = .ok name →
      Emits d consequent none (guarded name consequent)
  | double {alternate : List Emitted} {first second : String} : d.test.constant? = none →
      d.guardName "if-" d.positive = .ok first → d.guardName "else-" d.negative = .ok second →
      Emits d consequent (some alternate)
        (guarded first consequent ++ char ' ' :: guarded second alternate)

theorem chars_double (first second : String) (consequent alternate : List Emitted) :
    String.ofList (chars (guarded first consequent ++ char ' ' :: guarded second alternate)) =
      referenceOr first (String.ofList (chars consequent)) ++ " " ++
        referenceOr second (String.ofList (chars alternate)) := by
  rw [chars_append, chars_cons, String.ofList_append, String.ofList_append, chars_guarded,
    chars_guarded, ← String.append_assoc]
  rfl

/-- What is emitted for a directive, without its marks, is the text of the directive. -/
theorem text_eq_ok_iff (test : Condition) (consequent : List Emitted)
    (alternate : Option (List Emitted)) {written : String} :
    text (ofBranches test consequent alternate) = .ok written ↔
      ∃ out, Emits (ofBranches test consequent alternate) consequent alternate out ∧
        written = String.ofList (chars out) := by
  generalize same : ofBranches test consequent alternate = d
  have inside : d.consequent = String.ofList (chars consequent) := by rw [← same]; rfl
  have other : d.alternate = alternate.map fun out => String.ofList (chars out) := by
    rw [← same]
    rfl
  constructor
  · intro done
    unfold text at done
    split at done
    · next truth constant =>
      cases done
      refine ⟨_, .constant constant, ?_⟩
      cases truth with
      | true => exact inside
      | false =>
        rw [other]
        cases alternate <;> rfl
    · next isOpen =>
      obtain ⟨first, named, done⟩ := bind_eq_ok done
      rw [other] at done
      cases alternate with
      | none =>
        cases done
        exact ⟨_, .single isOpen named, by rw [chars_guarded, inside]⟩
      | some alternate =>
        obtain ⟨second, namedElse, done⟩ := bind_eq_ok done
        cases done
        exact ⟨_, .double isOpen named namedElse, by rw [chars_double, inside]⟩
  · rintro ⟨out, emits, rfl⟩
    cases emits with
    | @constant _ truth constant =>
      rw [text, constant, other, inside]
      cases truth with
      | true => rfl
      | false => cases alternate <;> rfl
    | single isOpen named =>
      rw [text, isOpen, named, other, inside, chars_guarded]
      rfl
    | double isOpen named namedElse =>
      rw [text, isOpen, named, other, inside, namedElse, chars_double]
      rfl

/-! ## What takes the place of a source -/

/-- How a part of a source is rewritten: the directives in it, in the order in which they end, and
what is emitted. -/
inductive Rewrites : Part → Cursor → List Directive → List Emitted → Cursor → Prop
  | copied {c d : Cursor} {word : Token} :
      c.Next word d → word.kind = .identifier → word.text ≠ "if" →
      Rewrites .directive c [] (copied word.text.toList) d
  | single {c d e : Cursor} {test : Condition} {ds : List Directive} {inside out : List Emitted}
      {stop : String} :
      Opens c test d → Rewrites (.branch [",", ")"] stop) d ds inside e → stop ≠ "," →
      Emits (ofBranches test (trim inside) none) (trim inside) none out →
      Rewrites .directive c (ds ++ [ofBranches test (trim inside) none]) out (e.advance 1)
  | double {c d e f : Cursor} {test : Condition} {ds es : List Directive}
      {inside other out : List Emitted} {stop : String} :
      Opens c test d → Rewrites (.branch [",", ")"] ",") d ds inside e →
      Rewrites (.branch [")"] stop) (e.advance 1) es other f →
      Emits (ofBranches test (trim inside) (some (trim other))) (trim inside) (some (trim other))
        out →
      Rewrites .directive c (ds ++ es ++ [ofBranches test (trim inside) (some (trim other))]) out
        (f.advance 1)
  | ended {c d : Cursor} {stops : List String} {stop : String} {inside : List Char} :
      c.piece stops keywords = .ok (inside, .stop stop, d) →
      Rewrites (.branch stops stop) c [] (copied inside) d
  | nested {c d e f : Cursor} {stops : List String} {stop word : String} {ds es : List Directive}
      {before : List Char} {out behind : List Emitted} :
      c.piece stops keywords = .ok (before, .keyword word, d) → Rewrites .directive d ds out e →
      Rewrites (.branch stops stop) e es behind f →
      Rewrites (.branch stops stop) c (ds ++ es) (copied before ++ out ++ behind) f

/-- How a source is rewritten from a place on. -/
inductive RewritesFrom : Cursor → List Directive → List Emitted → Prop
  | ended {c d : Cursor} {text : List Char} :
      c.upTo keywords = (text, none, d) → RewritesFrom c [] (copied text)
  | directive {c d e : Cursor} {text : List Char} {word : String} {ds es : List Directive}
      {out rest : List Emitted} :
      c.upTo keywords = (text, some word, d) → Rewrites .directive d ds out e →
      RewritesFrom e es rest → RewritesFrom c (ds ++ es) (copied text ++ out ++ rest)

theorem branch_chars (inside : List Emitted) :
    branch (chars inside) = String.ofList (chars (trim inside)) := by
  rw [branch, chars_trim]

/-- What is emitted is what expanding puts in the place of a part. -/
theorem Rewrites.expands {part : Part} {c d : Cursor} {ds : List Directive} {out : List Emitted}
    (rewrites : Rewrites part c ds out d) : Expands part c ds (chars out) d := by
  induction rewrites with
  | copied next isName notIf =>
    rw [chars_copied]
    exact .copied next isName notIf
  | single head _ ends emits consequent =>
    have written := (text_eq_ok_iff _ _ _).mpr ⟨_, emits, rfl⟩
    have expands := Expands.single head consequent ends (by rw [branch_chars]; exact written)
    rwa [String.toList_ofList, branch_chars] at expands
  | double head _ _ emits consequent alternate =>
    have written := (text_eq_ok_iff _ _ _).mpr ⟨_, emits, rfl⟩
    have expands := Expands.double head consequent alternate
      (by rw [branch_chars, branch_chars]; exact written)
    rwa [String.toList_ofList, branch_chars, branch_chars] at expands
  | ended found =>
    rw [chars_copied]
    exact .ended found
  | nested found _ _ inner outer =>
    rw [chars_append, chars_append, chars_copied]
    exact .nested found inner outer

/-- What expanding puts in the place of a part can be marked. -/
theorem Expands.exists_rewrites {part : Part} {c d : Cursor} {ds : List Directive}
    {text : List Char} (expands : Expands part c ds text d) :
    ∃ out, Rewrites part c ds out d ∧ text = chars out := by
  induction expands with
  | copied next isName notIf => exact ⟨_, .copied next isName notIf, (chars_copied _).symm⟩
  | single head _ ends written consequent =>
    obtain ⟨inside, rewrites, rfl⟩ := consequent
    rw [branch_chars] at written ⊢
    obtain ⟨out, emits, rfl⟩ := (text_eq_ok_iff _ (trim inside) none).mp written
    exact ⟨out, .single head rewrites ends emits, String.toList_ofList⟩
  | double head _ _ written consequent alternate =>
    obtain ⟨inside, rewrites, rfl⟩ := consequent
    obtain ⟨other, rewrites', rfl⟩ := alternate
    rw [branch_chars, branch_chars] at written ⊢
    obtain ⟨out, emits, rfl⟩ :=
      (text_eq_ok_iff _ (trim inside) (some (trim other))).mp written
    exact ⟨out, .double head rewrites rewrites' emits, String.toList_ofList⟩
  | ended found => exact ⟨_, .ended found, (chars_copied _).symm⟩
  | nested found _ _ inner outer =>
    obtain ⟨out, rewrites, rfl⟩ := inner
    obtain ⟨behind, rewrites', rfl⟩ := outer
    refine ⟨_, .nested found rewrites rewrites', ?_⟩
    rw [chars_append, chars_append, chars_copied]

theorem exists_rewritesFrom {c : Cursor} {ds : List Directive} {text : List Char}
    (done : expandFrom c = ⟨ds, .ok text⟩) : ∃ out, RewritesFrom c ds out ∧ text = chars out := by
  rcases found : c.upTo keywords with ⟨front, _ | word, d⟩
  · rw [expandFrom_of_none found] at done
    cases done
    exact ⟨_, .ended found, (chars_copied _).symm⟩
  · rcases (expandAt d).ok_or_error with ⟨es, ⟨other, e, shorter⟩, expanded⟩ | ⟨es, fault, failed⟩
    · have smaller : e.size < c.size := by
        have bound := Cursor.size_upTo keywords c
        rw [found] at bound
        exact Nat.lt_of_lt_of_le shorter bound
      rw [expandFrom_of_ok found expanded] at done
      obtain ⟨fs, behind, below, rfl, rfl⟩ := resume_eq_ok done
      obtain ⟨out, rewrites, rfl⟩ := (expandAt_eq_ok_iff.mp ⟨shorter, expanded⟩).exists_rewrites
      obtain ⟨rest, others, rfl⟩ := exists_rewritesFrom below
      refine ⟨_, .directive found rewrites others, ?_⟩
      rw [chars_append, chars_append, chars_copied]
    · rw [expandFrom_of_error found failed] at done
      cases done
termination_by c.size

theorem RewritesFrom.expandFrom_eq {c : Cursor} {ds : List Directive} {out : List Emitted}
    (rewrites : RewritesFrom c ds out) : expandFrom c = ⟨ds, .ok (chars out)⟩ := by
  induction rewrites with
  | ended found => rw [expandFrom_of_none found, chars_copied]
  | directive found first _ others =>
    obtain ⟨shorter, expanded⟩ := expandAt_eq_ok_iff.mpr first.expands
    rw [expandFrom_of_ok found expanded, others, chars_append, chars_append, chars_copied]
    rfl

/-- A source expands to a text exactly if it is rewritten to it, and then the directives that are
listed are those of the source. -/
theorem expand_eq_ok_iff {source text : String} {ds : List Directive} :
    expand source = ⟨ds, .ok text⟩ ↔
      ∃ out, RewritesFrom (.start source) ds out ∧ text = String.ofList (chars out) := by
  constructor
  · intro done
    obtain ⟨_, whole, rfl⟩ := expand_eq_ok done
    obtain ⟨out, rewrites, rfl⟩ := exists_rewritesFrom whole
    exact ⟨out, rewrites, rfl⟩
  · rintro ⟨out, rewrites, rfl⟩
    rw [expand_eq, rewrites.expandFrom_eq]
    rfl

theorem exists_rewritesFrom_start {source text : String}
    (done : (expand source).result = .ok text) :
    ∃ out, RewritesFrom (.start source) (expand source).directives out := by
  have whole : expand source = ⟨(expand source).directives, .ok text⟩ := by rw [← done]
  obtain ⟨out, rewrites, _⟩ := expand_eq_ok_iff.mp whole
  exact ⟨out, rewrites⟩

/-! ## Whose references they are -/

/-- A reference in what takes the place of a directive is its own, or in one of its branches. -/
theorem Emits.refersTo_or_mem {test : Condition} {consequent out : List Emitted}
    {alternate : Option (List Emitted)} {name : String}
    (emits : Emits (ofBranches test consequent alternate) consequent alternate out)
    (member : .reference name ∈ out) :
    (ofBranches test consequent alternate).RefersTo name ∨ .reference name ∈ consequent ∨
      ∃ other ∈ alternate, .reference name ∈ other := by
  cases emits with
  | @constant _ truth constant =>
    cases truth with
    | true => exact .inr (.inl member)
    | false =>
      cases alternate with
      | none => cases member
      | some other => exact .inr (.inr ⟨other, rfl, member⟩)
  | single isOpen named =>
    rw [guarded, List.mem_cons, List.mem_append] at member
    rcases member with own | inside | closing
    · cases own
      exact .inl ⟨isOpen, .inl named⟩
    · exact .inr (.inl inside)
    · cases List.mem_singleton.mp closing
  | @double other first second isOpen named namedElse =>
    simp only [guarded, List.mem_append, List.mem_cons, List.not_mem_nil, or_false, reduceCtorEq,
      false_or, Emitted.reference.injEq] at member
    rcases member with (rfl | inside) | rfl | inOther
    · exact .inl ⟨isOpen, .inl named⟩
    · exact .inr (.inl inside)
    · exact .inl ⟨isOpen, .inr ⟨rfl, namedElse⟩⟩
    · exact .inr (.inr ⟨other, rfl, inOther⟩)

/-- Every reference that is opened in a part belongs to a directive in it. -/
theorem Rewrites.exists_refersTo {part : Part} {c d : Cursor} {ds : List Directive}
    {out : List Emitted} {name : String} (rewrites : Rewrites part c ds out d)
    (member : .reference name ∈ out) : ∃ d ∈ ds, d.RefersTo name := by
  induction rewrites with
  | copied _ _ _ => exact absurd member notMem_copied
  | ended _ => exact absurd member notMem_copied
  | single _ _ _ emits consequent =>
    rcases emits.refersTo_or_mem member with own | inside | ⟨_, none, _⟩
    · exact ⟨_, List.mem_append_right _ (List.mem_singleton_self _), own⟩
    · obtain ⟨d, listed, refers⟩ := consequent (mem_of_mem_trim inside)
      exact ⟨d, List.mem_append_left _ listed, refers⟩
    · cases none
  | double _ _ _ emits consequent alternate =>
    rcases emits.refersTo_or_mem member with own | inside | ⟨_, same, inOther⟩
    · exact ⟨_, List.mem_append_right _ (List.mem_singleton_self _), own⟩
    · obtain ⟨d, listed, refers⟩ := consequent (mem_of_mem_trim inside)
      exact ⟨d, List.mem_append_left _ (List.mem_append_left _ listed), refers⟩
    · cases same
      obtain ⟨d, listed, refers⟩ := alternate (mem_of_mem_trim inOther)
      exact ⟨d, List.mem_append_left _ (List.mem_append_right _ listed), refers⟩
  | nested _ _ _ inner outer =>
    rcases List.mem_append.mp member with front | behind
    · obtain ⟨d, listed, refers⟩ := inner ((List.mem_append.mp front).resolve_left notMem_copied)
      exact ⟨d, List.mem_append_left _ listed, refers⟩
    · obtain ⟨d, listed, refers⟩ := outer behind
      exact ⟨d, List.mem_append_right _ listed, refers⟩

theorem RewritesFrom.exists_refersTo {c : Cursor} {ds : List Directive} {out : List Emitted}
    {name : String} (rewrites : RewritesFrom c ds out) (member : .reference name ∈ out) :
    ∃ d ∈ ds, d.RefersTo name := by
  induction rewrites with
  | ended _ => exact absurd member notMem_copied
  | directive _ first _ others =>
    rcases List.mem_append.mp member with front | behind
    · obtain ⟨d, listed, refers⟩ :=
        first.exists_refersTo ((List.mem_append.mp front).resolve_left notMem_copied)
      exact ⟨d, List.mem_append_left _ listed, refers⟩
    · obtain ⟨d, listed, refers⟩ := others behind
      exact ⟨d, List.mem_append_right _ listed, refers⟩

/-- Whether a directive is in a source, nested in others or not. -/
def Within (d : Directive) (source : String) : Prop :=
  ∃ ds out, RewritesFrom (.start source) ds out ∧ d ∈ ds

/-- What is recorded of sources that expand are the directives in them. -/
theorem mem_recorded_iff {sources : List String} {d : Directive}
    (parsed : ∀ source ∈ sources, ∃ text, (expand source).result = .ok text) :
    d ∈ recorded sources ↔ ∃ source ∈ sources, d.Within source := by
  refine List.mem_flatMap.trans (exists_congr fun source => and_congr_right fun listed => ?_)
  constructor
  · intro member
    obtain ⟨text, done⟩ := parsed source listed
    obtain ⟨out, rewrites⟩ := exists_rewritesFrom_start done
    exact ⟨_, out, rewrites, member⟩
  · rintro ⟨ds, out, rewrites, member⟩
    rwa [expand_eq_ok_iff.mpr ⟨out, rewrites, rfl⟩]

end Directive

/-! ## Sheets -/

namespace Sheet

/-- Every source is rewritten to the text that it expands to. Where a directive opens a reference in
this text, a name is read that the base block declares, and so are all names that prepared values
refer to. The registered properties are those that occur in the tests of directives in the sources,
nested or not, that are no constants; the bags that are accepted are those with no other ones. -/
theorem references_declared_and_properties_registered (title : String) (options : Options)
    (sources : List String)
    (parsed : ∀ source ∈ sources, ∃ text, (Directive.expand source).result = .ok text) :
    (∀ source ∈ sources, ∃ ds out, Directive.RewritesFrom (.start source) ds out) ∧
    (∀ source ∈ sources, ∀ ds out, Directive.RewritesFrom (.start source) ds out →
      (Directive.expand source).result = .ok (String.ofList (Emitted.chars out)) ∧
      ∀ name rest, .reference name :: rest <:+ out →
        (∃ left, Guard.readName? (Emitted.chars (.reference name :: rest)) = some (name, left)) ∧
        name ∈ (ofSources title options sources).baseNames) ∧
    (∀ e ∈ (Registry.ofSources title options sources).prepared.entries,
      ∀ name ∈ Guard.referred e.2.toList, name ∈ (ofSources title options sources).baseNames) ∧
    (∀ name, name ∈ (ofSources title options sources).properties.toList ↔
      ∃ source ∈ sources, ∃ d : Directive, d.Within source ∧ d.test.constant? = none ∧
        name ∈ d.test.occurrences) ∧
    ∀ history bag,
      (∃ selection, (((ofSources title options sources).serializeAll history).serialize bag).1 =
        .ok selection) ↔
      ∀ e ∈ bag.entries, ∃ source ∈ sources, ∃ d : Directive, d.Within source ∧
        d.test.constant? = none ∧ e.1 ∈ d.test.occurrences := by
  have registered (name : String) : name ∈ (ofSources title options sources).properties.toList ↔
      ∃ source ∈ sources, ∃ d : Directive, d.Within source ∧ d.test.constant? = none ∧
        name ∈ d.test.occurrences := by
    refine Registry.mem_properties_ofSources.trans ?_
    constructor
    · rintro ⟨d, recorded, occurs⟩
      obtain ⟨source, listed, within⟩ := (Directive.mem_recorded_iff parsed).mp recorded
      exact ⟨source, listed, d, within, occurs⟩
    · rintro ⟨source, listed, d, within, occurs⟩
      exact ⟨d, (Directive.mem_recorded_iff parsed).mpr ⟨source, listed, within⟩, occurs⟩
  refine ⟨fun source listed => ?_, fun source listed ds out rewrites => ⟨?_, ?_⟩, ?_, registered,
    fun history bag => ?_⟩
  · obtain ⟨text, done⟩ := parsed source listed
    exact ⟨_, Directive.exists_rewritesFrom_start done⟩
  · rw [Directive.expand_eq_ok_iff.mpr ⟨out, rewrites, rfl⟩]
  · intro name rest suffix
    obtain ⟨d, member, refers⟩ := rewrites.exists_refersTo (suffix.subset List.mem_cons_self)
    have recorded : d ∈ Directive.recorded sources :=
      (Directive.mem_recorded_iff parsed).mpr ⟨source, listed, ds, out, rewrites, member⟩
    obtain ⟨need, needed, rfl, escaped⟩ :=
      refers.exists_need options (Directive.proper_of_mem_recorded recorded)
    exact ⟨Emitted.exists_readName? escaped rest, mem_baseNames recorded needed⟩
  · intro e entry name member
    obtain ⟨d, recorded, prepared⟩ := Registry.mem_prepared_ofSources entry
    obtain ⟨need, needed, rfl⟩ := Directive.referred_prepared options
      (Directive.proper_of_mem_recorded recorded) prepared member
    exact mem_baseNames recorded needed
  · rw [exists_serialize_iff]
    exact forall₂_congr fun e _ => registered e.1

section Nested

open Directive Emitted

/-- A source with a reference of its own, and a junction in the branch of another directive. -/
def exNested : String := "u: var(--u); if(a, if(b == c && !d, x, y)) v"

/-- The place behind some characters of the source. -/
def exPlace (n : Nat) : Cursor := (Cursor.start exNested).advance n

/-- `b == c && !d` -/
def exInnerTest : Condition :=
  .binary false (.junction .and)
    (.binary false (.compare .eq) (.property false "b") (.property false "c")) (.property true "d")

/-- What takes the place of the inner directive. -/
def exBranch : List Emitted :=
  guarded "if-∣b≡c∣∧¬d" [.char 'x'] ++ .char ' ' :: guarded "else-∣b≡c∣∧¬d" [.char 'y']

/-- What takes the place of the source. -/
def exRewritten : List Emitted :=
  copied "u: var(--u); ".toList ++ guarded "a" exBranch ++ copied " v".toList

def exInner : Directive := ofBranches exInnerTest [.char 'x'] (some [.char 'y'])

def exOuter : Directive := ofBranches (.property false "a") exBranch none

/-- The references are marked where directives open them, also in the branch, and the one that the
source has itself is not. -/
theorem rewritesFrom_exNested : RewritesFrom (.start exNested) [exInner, exOuter] exRewritten := by
  have outerHead : Opens (exPlace 13) (.property false "a") (exPlace 18) :=
    ⟨⟨.identifier, "if", false, 13⟩, exPlace 15, ⟨.operator .openParen, "(", false, 15⟩, exPlace 16,
      exPlace 17, ⟨.operator .comma, ",", false, 17⟩,
      ⟨by decide, eq_ok_of_toOption (by decide +kernel)⟩, rfl, rfl,
      ⟨by decide, eq_ok_of_toOption (by decide +kernel)⟩, rfl,
      ⟨by decide, eq_ok_of_toOption (by decide +kernel)⟩,
      ⟨by decide, eq_ok_of_toOption (by decide +kernel)⟩, rfl⟩
  have innerHead : Opens (exPlace 19) exInnerTest (exPlace 35) :=
    ⟨⟨.identifier, "if", false, 19⟩, exPlace 21, ⟨.operator .openParen, "(", false, 21⟩, exPlace 22,
      exPlace 34, ⟨.operator .comma, ",", false, 34⟩,
      ⟨by decide, eq_ok_of_toOption (by decide +kernel)⟩, rfl, rfl,
      ⟨by decide, eq_ok_of_toOption (by decide +kernel)⟩, rfl,
      ⟨by decide, eq_ok_of_toOption (by decide +kernel)⟩,
      ⟨by decide, eq_ok_of_toOption (by decide +kernel)⟩, rfl⟩
  have first : Rewrites (.branch [",", ")"] ",") (exPlace 35) [] (copied " x".toList)
      (exPlace 37) :=
    .ended (eq_ok_of_toOption (by decide +kernel))
  have second : Rewrites (.branch [")"] ")") (exPlace 38) [] (copied " y".toList) (exPlace 40) :=
    .ended (eq_ok_of_toOption (by decide +kernel))
  have inner : Rewrites .directive (exPlace 19) [exInner] exBranch (exPlace 41) :=
    .double innerHead first second (.double rfl (eq_ok_of_toOption (by decide +kernel))
      (eq_ok_of_toOption (by decide +kernel)))
  have before : (exPlace 18).piece [",", ")"] keywords =
      .ok (" ".toList, .keyword "if", exPlace 19) := eq_ok_of_toOption (by decide +kernel)
  have branch : Rewrites (.branch [",", ")"] ")") (exPlace 18) [exInner]
      (copied " ".toList ++ exBranch ++ copied []) (exPlace 41) :=
    .nested before inner (.ended (eq_ok_of_toOption (by decide +kernel)))
  have outer : Rewrites .directive (exPlace 13) [exInner, exOuter] (guarded "a" exBranch)
      (exPlace 42) :=
    .single outerHead branch (by decide) (.single rfl (eq_ok_of_toOption (by decide +kernel)))
  have start : (Cursor.start exNested).upTo keywords =
      ("u: var(--u); ".toList, some "if", exPlace 13) := by decide +kernel
  have ended : (exPlace 42).upTo keywords = (" v".toList, none, exPlace 44) := by decide +kernel
  exact .directive start outer (.ended ended)

/-- The last reference is opened in a branch, and its name is declared; the name that the source
refers to itself is not. A property is registered that occurs in the inner test only. -/
theorem references_declared_and_properties_registered_exNested :
    (expand exNested).result = .ok
      "u: var(--u); var(--a,var(--if-∣b≡c∣∧¬d,x) var(--else-∣b≡c∣∧¬d,y)) v" ∧
    (∃ left, Guard.readName? "var(--else-∣b≡c∣∧¬d,y)) v".toList =
      some ("else-∣b≡c∣∧¬d", left)) ∧
    "else-∣b≡c∣∧¬d" ∈ (ofSources "scheme" {} [exNested]).baseNames ∧
    "u" ∉ (ofSources "scheme" {} [exNested]).baseNames ∧
    ∃ selection, ((ofSources "scheme" {} [exNested]).serialize (.ofList [("d", .null)])).1 =
      .ok selection := by
  have rewrites := rewritesFrom_exNested
  have parsed : ∀ source ∈ [exNested], ∃ text, (expand source).result = .ok text := by
    intro source listed
    cases List.mem_singleton.mp listed
    exact ⟨_, congrArg Expansion.result (expand_eq_ok_iff.mpr ⟨_, rewrites, rfl⟩)⟩
  obtain ⟨_, emitted, _, _, accepted⟩ :=
    references_declared_and_properties_registered "scheme" {} [exNested] parsed
  obtain ⟨result, references⟩ := emitted exNested List.mem_cons_self _ _ rewrites
  have text : String.ofList (chars exRewritten) =
      "u: var(--u); var(--a,var(--if-∣b≡c∣∧¬d,x) var(--else-∣b≡c∣∧¬d,y)) v" := by decide +kernel
  have opens : .reference "else-∣b≡c∣∧¬d" :: copied "y)) v".toList <:+ exRewritten := by
    decide +kernel
  have behind : chars (.reference "else-∣b≡c∣∧¬d" :: copied "y)) v".toList) =
      "var(--else-∣b≡c∣∧¬d,y)) v".toList := by decide +kernel
  obtain ⟨read, declared⟩ := references _ _ opens
  rw [behind] at read
  refine ⟨text ▸ result, read, declared, by decide +kernel, (accepted [] _).mpr ?_⟩
  intro e entry
  cases List.mem_singleton.mp entry
  exact ⟨exNested, List.mem_cons_self, exInner, ⟨_, _, rewrites, List.mem_cons_self⟩, rfl,
    by decide⟩

end Nested

end Sheet

end StyleFlags
