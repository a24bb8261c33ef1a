import StyleFlags.Proofs.Arrival

/-!
# Which branches show

A branch of a directive shows while its guard is on. What the name of a guard means
is looked up in a registry, where directives of other sources may have prepared
another value under the same name, and the last one stays. Names are made from
tests, so such values are on for the same flags, and no flag has the name of a
prepared value. So a directive finds in every registry of its source the guards
that it has asked for: a branch shows when the test is decided for it, and none
shows while the test is undecided.

Results:
1. `Fact.name_ne_prepared`: the name of a flag is not that of a prepared value.
2. `Directive.Lookup.denotes`: what a directive refers to denotes in a registry of its source
   what it denotes to the directive alone.
3. `Directive.guards_exclusive`: a guard that is on is right about the test, so the guards are
   never both on.
4. `Directive.some_guard_on_iff_decided`: one of them is on exactly when the test is decided,
   which it is if all its order comparisons compare ordered values.
-/

namespace StyleFlags

/-! ## Names of flags and of prepared values -/

namespace Fact

/-- Up to its first glyph, the name of a flag is its property, or it begins with a negation. -/
theorem takeWhile_name {f : Fact} (identifier : isIdentifier f.property = true) :
    f.name.toList.takeWhile isLetter = Name.escapeChars f.property.toList ∨
      f.name.toList.takeWhile isLetter = [] := by
  obtain ⟨property, test⟩ := f
  have letters := isLetter_of_mem identifier
  cases test with
  | truthy negated =>
    rw [name, Name.toList_property]
    cases negated with
    | false =>
      rw [if_neg Bool.false_ne_true, List.nil_append, ← List.append_nil (Name.escapeChars _),
        List.takeWhile_append_of_pos letters]
      exact .inl rfl
    | true => exact .inr rfl
  | compare op operand =>
    rw [toList_name_compare, List.takeWhile_append_of_pos letters, List.takeWhile_cons,
      isLetter_eq_false op.glyph_mem, if_neg Bool.false_ne_true, List.append_nil]
    exact .inl rfl

/-- No flag has the name of a prepared value, as a property has no hyphen. -/
theorem name_ne_prepared {f : Fact} (identifier : isIdentifier f.property = true) (denied : Bool)
    (rest : String) : f.name ≠ Directive.stem denied ++ rest := by
  intro same
  have front : f.name.toList.takeWhile isLetter =
      (Directive.stem denied).toList ++ rest.toList.takeWhile isLetter := by
    rw [same, String.toList_append]
    refine List.takeWhile_append_of_pos ?_
    cases denied <;> exact forall_of_all (by decide)
  rcases takeWhile_name identifier with spelled | nothing
  · have property : f.property.toList = (Directive.stem denied).toList ++
        Name.unescapeFrom .plain (rest.toList.takeWhile isLetter) := by
      rw [← Name.unescapeFrom_escapeChars f.property.toList, ← spelled, front]
      cases denied <;> rfl
    have hyphen : '-' ∈ f.property.toList := by
      rw [property]
      refine List.mem_append_left _ ?_
      cases denied <;> decide
    simp only [isIdentifier, Bool.and_eq_true] at identifier
    exact absurd (List.all_eq_true.mp identifier.1.2 _ hyphen) (by decide)
  · rw [nothing] at front
    cases denied <;> cases front

end Fact

/-! ## What names mean in a registry -/

/-- What a custom property means where a registry is used: the guard that is prepared under this
name, and else the flag of this name. -/
def Registry.meaning? (r : Registry) (name : String) : Option Guard :=
  match r.prepared.get? name with
  | some value => Guard.read? value
  | none => some (.flag name)

/-- In a registry of sources, a name means what one of their directives has prepared under it, and
the flag of this name if none has. -/
theorem Registry.meaning?_cases (title : String) (options : Options) (sources : List String)
    (name : String) :
    (∃ e ∈ Directive.recorded sources, ∃ value, .prepared name value ∈ e.needs options ∧
      (ofSources title options sources).meaning? name = Guard.read? value) ∨
    ((∀ e ∈ Directive.recorded sources, ∀ value, .prepared name value ∉ e.needs options) ∧
      (ofSources title options sources).meaning? name = some (.flag name)) := by
  unfold meaning?
  cases found : (ofSources title options sources).prepared.get? name with
  | some value =>
    obtain ⟨e, recorded, needed⟩ := mem_prepared_ofSources (Table.get?_eq_some_iff.mp found)
    exact .inl ⟨e, recorded, value, needed, rfl⟩
  | none =>
    refine .inr ⟨fun e recorded value needed => ?_, rfl⟩
    obtain ⟨final, entry⟩ := exists_mem_prepared_ofSources title recorded needed
    rw [Table.get?_eq_some_iff.mpr entry] at found
    cases found

namespace Directive

variable {options : Options} {d : Directive} {source : String} {meaning : String → Option Guard}

theorem meaning?_cases (options : Options) (d : Directive) (name : String) :
    (∃ value, .prepared name value ∈ d.needs options ∧
      d.meaning? options name = Guard.read? value) ∨
    ((∀ value, .prepared name value ∉ d.needs options) ∧
      d.meaning? options name = some (.flag name)) := by
  unfold meaning?
  cases found : (d.needs options).findSome? (Need.preparedAs? name) with
  | some value =>
    obtain ⟨need, needed, isPrepared⟩ := List.exists_of_findSome?_eq_some found
    refine .inl ⟨value, ?_, rfl⟩
    rwa [← Need.preparedAs?_eq_some.mp isPrepared]
  | none =>
    refine .inr ⟨fun value needed => ?_, rfl⟩
    have silent := List.findSome?_eq_none_iff.mp found _ needed
    rw [Need.preparedAs?_eq_some.mpr rfl] at silent
    cases silent

/-- Where a directive of a source finds what names mean: among its own needs, or in a registry of
sources with its own one among them. -/
inductive Lookup (options : Options) (d : Directive) (source : String) :
    (String → Option Guard) → Prop
  | alone : Lookup options d source (d.meaning? options)
  | among (title : String) {sources : List String} : source ∈ sources →
      Lookup options d source (Registry.ofSources title options sources).meaning?

/-- What a directive refers to denotes the same wherever it is looked up. -/
theorem Lookup.denotes (lookup : d.Lookup options source meaning)
    (listed : d ∈ (expand source).directives) {name : String} (refers : d.RefersTo name)
    {c : Condition} (denotes : Guard.Denotes (d.meaning? options) name c) :
    Guard.Denotes meaning name c := by
  cases lookup with
  | alone => exact denotes
  | @among title sources inSources =>
    have recorded : d ∈ recorded sources := List.mem_flatMap.mpr ⟨source, inSources, listed⟩
    have proper := proper_of_mem_recorded recorded
    obtain ⟨g, own, same⟩ := denotes
    rcases Registry.meaning?_cases title options sources name with
      ⟨e, recorded', value, needed, means⟩ | ⟨unprepared, means⟩
    · rcases meaning?_cases options d name with ⟨other, needed', means'⟩ | ⟨unprepared, _⟩
      · -- The value that has stayed may be another one, but it is on for the same flags.
        obtain ⟨h, k, read, read', alike⟩ :=
          sameReading_prepared (proper_of_mem_recorded recorded') proper needed needed'
        have isOwn : k = g := Option.some.inj (read'.symm.trans (means'.symm.trans own))
        refine ⟨h, means.trans read, fun flags => ?_⟩
        rw [alike, isOwn, same]
      · -- What is referred to is a flag, and no value is prepared under the name of one.
        obtain ⟨need, needed', rfl, _⟩ := refers.exists_need options proper
        cases need with
        | prepared name other => exact absurd needed' (unprepared other)
        | fact f =>
          obtain ⟨denied, named, _⟩ := prepared_mem_needs needed
          exact absurd named (Fact.name_ne_prepared (proper.facts needed').1 denied _)
    · rcases meaning?_cases options d name with ⟨other, needed', _⟩ | ⟨_, means'⟩
      · exact absurd needed' (unprepared d recorded other)
      · exact ⟨g, means.trans (means'.symm.trans own), same⟩

/-- Wherever names are looked up, the guards of a directive follow the verdict on the test, while
flags follow their facts. -/
theorem Lookup.exists_guards (lookup : d.Lookup options source meaning)
    (listed : d ∈ (expand source).directives) (isOpen : d.test.constant? = none)
    (twoBranches : d.alternate.isSome = true) {flags : String → Bool} {bag : Bag}
    (follow : d.FlagsFollow options flags bag) :
    ∃ g h, d.GuardedBy meaning g h ∧
      g.isOn flags = (d.test.verdict bag == some true) ∧
      h.isOn flags = (d.test.verdict bag == some false) := by
  have proper : d.Proper := tests_shaped source d listed
  obtain ⟨first, second, named, namedElse, denotes, denotesElse⟩ :=
    exists_guardNames options proper isOpen twoBranches
  exact exists_guards_verdict options proper isOpen twoBranches named namedElse
    (lookup.denotes listed ⟨isOpen, .inl named⟩ denotes)
    (lookup.denotes listed ⟨isOpen, .inr ⟨twoBranches, namedElse⟩⟩ denotesElse) follow

/-! ## Which branches show -/

section Source

variable {flags : String → Bool} {bag : Bag}

/-- A guard that is on tells whether the test is satisfied, so the guards of the two branches of a
directive are never both on. It is all the same whether names are looked up among the needs of the
directive or in a registry that other sources have filled too. -/
theorem guards_exclusive (listed : d ∈ (expand source).directives)
    (isOpen : d.test.constant? = none) (twoBranches : d.alternate.isSome = true)
    (lookup : d.Lookup options source meaning) (follow : d.FlagsFollow options flags bag) :
    ∃ g h, d.GuardedBy meaning g h ∧
      (g.isOn flags = true → d.test.satisfied bag = true) ∧
      (h.isOn flags = true → d.test.satisfied bag = false) ∧
      ¬(g.isOn flags = true ∧ h.isOn flags = true) := by
  obtain ⟨g, h, guarded, onTrue, onFalse⟩ :=
    lookup.exists_guards listed isOpen twoBranches follow
  have holds (gOn : g.isOn flags = true) : d.test.satisfied bag = true :=
    Condition.satisfied_of_verdict (by simpa [onTrue] using gOn)
  have fails (hOn : h.isOn flags = true) : d.test.satisfied bag = false :=
    Condition.satisfied_of_verdict (by simpa [onFalse] using hOn)
  refine ⟨g, h, guarded, holds, fails, ?_⟩
  rintro ⟨gOn, hOn⟩
  have both := (holds gOn).symm.trans (fails hOn)
  cases both

/-- `if(!(a && b && (n < 2 || c)), x, y)` -/
def exUnless : Directive where
  test := .binary true (.junction .and)
    (.binary false (.junction .and) (.property false "a") (.property false "b"))
    (.binary false (.junction .or)
      (.binary false (.compare .lt) (.property false "n") (.literal false ⟨.number, "2"⟩))
      (.property false "c"))
  consequent := "x"
  alternate := some "y"

/-- The second source has the same test, grouped to the right. -/
def exRegrouped : List String :=
  ["if(!(a && b && (n < 2 || c)), x, y)", "if(!(a && (b && (n < 2 || c))), z, w)"]

/-- The flags that are on while `n` is a string and nothing else is set. -/
def exUnset : String → Bool := (["¬a", "¬b", "¬c"].contains ·)

/-- Under the name of the guard of its alternate, the directive finds what the second source has
prepared. Without `a` the test holds, though `n` cannot be compared. -/
theorem guards_exclusive_exUnless :
    .prepared "else-¬a⋁¬b⋁∣∣n⋝2∣∧¬c∣" "var(--n⋖2,var(--a,var(--b))) var(--c,var(--a,var(--b)))" ∈
      exUnless.needs {} ∧
    (Registry.ofSources "scheme" {} exRegrouped).prepared.get? "else-¬a⋁¬b⋁∣∣n⋝2∣∧¬c∣" =
      some "var(--n⋖2,var(--b,var(--a))) var(--c,var(--b,var(--a)))" ∧
    exUnless.FlagsFollow {} exUnset (.ofList [("n", .string "s")]) ∧
    ∃ g h, exUnless.GuardedBy (Registry.ofSources "scheme" {} exRegrouped).meaning? g h ∧
      h.isOn exUnset = false ∧ ¬(g.isOn exUnset = true ∧ h.isOn exUnset = true) := by
  have listed : exUnless ∈ (expand "if(!(a && b && (n < 2 || c)), x, y)").directives := by
    decide +kernel
  have follow : exUnless.FlagsFollow {} exUnset (.ofList [("n", .string "s")]) := by decide +kernel
  have holds : exUnless.test.satisfied (.ofList [("n", .string "s")]) = true := by decide +kernel
  have lookup : exUnless.Lookup {} "if(!(a && b && (n < 2 || c)), x, y)"
      (Registry.ofSources "scheme" {} exRegrouped).meaning? := .among "scheme" List.mem_cons_self
  obtain ⟨g, h, guarded, _, fails, apart⟩ := guards_exclusive listed rfl rfl lookup follow
  refine ⟨by decide +kernel, by decide +kernel, follow, g, h, guarded,
    eq_false_of_ne_true fun isOn => ?_, apart⟩
  have failed := fails isOn
  rw [holds] at failed
  cases failed

/-- One of the guards is on exactly when the test is decided, so whenever all its order comparisons
compare ordered values. This too holds wherever names are looked up. -/
theorem some_guard_on_iff_decided (listed : d ∈ (expand source).directives)
    (isOpen : d.test.constant? = none) (twoBranches : d.alternate.isSome = true)
    (lookup : d.Lookup options source meaning) (follow : d.FlagsFollow options flags bag) :
    ∃ g h, d.GuardedBy meaning g h ∧
      (g.isOn flags || h.isOn flags) = (d.test.verdict bag).isSome ∧
      (d.test.Comparable bag → (g.isOn flags || h.isOn flags) = true) := by
  obtain ⟨g, h, guarded, onTrue, onFalse⟩ :=
    lookup.exists_guards listed isOpen twoBranches follow
  have decided : (g.isOn flags || h.isOn flags) = (d.test.verdict bag).isSome := by
    rw [onTrue, onFalse]
    rcases d.test.verdict bag with _ | _ | _ <;> rfl
  exact ⟨g, h, guarded, decided, fun comparable => decided.trans comparable.verdict_isSome⟩

/-- `if(n < 2, x, y)` -/
def exBelow : Directive where
  test := .binary false (.compare .lt) (.property false "n") (.literal false ⟨.number, "2"⟩)
  consequent := "x"
  alternate := some "y"

/-- A string is neither below 2 nor at least 2, so neither branch shows. -/
theorem some_guard_on_iff_decided_exBelow :
    exBelow.FlagsFollow {} (fun _ => false) (.ofList [("n", .string "a")]) ∧
    ∃ g h, exBelow.GuardedBy (Registry.ofSources "scheme" {} ["if(n < 2, x, y)"]).meaning? g h ∧
      (g.isOn (fun _ => false) || h.isOn (fun _ => false)) = false := by
  have listed : exBelow ∈ (expand "if(n < 2, x, y)").directives := by decide +kernel
  have follow : exBelow.FlagsFollow {} (fun _ => false) (.ofList [("n", .string "a")]) := by
    decide +kernel
  have undecided : (exBelow.test.verdict (.ofList [("n", .string "a")])).isSome = false := by
    decide +kernel
  have lookup : exBelow.Lookup {} "if(n < 2, x, y)"
      (Registry.ofSources "scheme" {} ["if(n < 2, x, y)"]).meaning? :=
    .among "scheme" List.mem_cons_self
  obtain ⟨g, h, guarded, decided, _⟩ := some_guard_on_iff_decided listed rfl rfl lookup follow
  exact ⟨follow, g, h, guarded, decided.trans undecided⟩

end Source

end Directive

end StyleFlags
