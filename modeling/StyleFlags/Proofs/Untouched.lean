import StyleFlags.Proofs.Parts

/-!
# Sources that stay as they are

Of the words that begin a directive, only `if` is replaced. Scanning stops at
the others too, reads the word as a token, and writes it back before it goes on.
So a source where no `if` begins a directive comes out as it went in, whatever
else it holds: strings and parentheses that are not closed do not matter, as
outside of directives neither is looked for.

Results:
1. `Cursor.upTo_parts`: what is copied up to a stop, and the place of the stop.
2. `Directive.next_of_beginsWith`: a word that begins a directive is the next token.
3. `Directive.expandFrom_of_inert`: from any place in such a source, what lies ahead is
   copied.
4. `Registry.expand_inert`: such a source is unchanged, and so is the registry.
-/

namespace StyleFlags

/-! ## Stops -/

namespace Cursor

variable {stops : List String}

theorem upToFrom_parts {behind ahead text : List Char} {stop? : Option String} {d : Cursor}
    (found : upToFrom stops behind ahead = (text, stop?, d)) :
    ahead = text ++ d.ahead ∧ d.behind = text.reverse ++ behind ∧ (stop? = none → d.ahead = []) ∧
      ∀ stop, stop? = some stop → d.meetsAny? stops = some stop := by
  induction ahead generalizing behind text with
  | nil =>
    cases found
    refine ⟨rfl, rfl, fun _ => rfl, fun stop met => ?_⟩
    cases met
  | cons first rest ih =>
    cases met : meetsAny? ⟨behind, first :: rest⟩ stops with
    | some other =>
      simp only [upToFrom, met] at found
      cases found
      refine ⟨rfl, rfl, fun ended => ?_, fun stop same => met.trans same⟩
      cases ended
    | none =>
      rw [upToFrom_cons_of_none met] at found
      obtain ⟨rfl, below⟩ := Prod.mk.inj found
      obtain ⟨parts, passed, stopped⟩ := ih (Prod.ext rfl below)
      refine ⟨?_, ?_, stopped⟩
      · rw [List.cons_append, ← parts]
      · rw [passed, List.reverse_cons, List.append_assoc, List.singleton_append]

/-- The text up to a stop is passed, and there the stop is met; if there is none, all is passed. -/
theorem upTo_parts {c d : Cursor} {text : List Char} {stop? : Option String}
    (found : c.upTo stops = (text, stop?, d)) :
    c.ahead = text ++ d.ahead ∧ d = c.passed text d.ahead ∧ (stop? = none → d.ahead = []) ∧
      ∀ stop, stop? = some stop → d.meetsAny? stops = some stop := by
  obtain ⟨parts, passed, stopped⟩ := upToFrom_parts found
  refine ⟨parts, ?_, stopped⟩
  rw [Cursor.passed, ← passed]

end Cursor

namespace Directive

/-! ## Words that are copied -/

theorem ofWord?_keyword : ∀ word ∈ keywords, LiteralKind.ofWord? word = none := by
  decide

/-- A word that begins a directive is the next token. -/
theorem next_of_beginsWith {c : Cursor} {word : String} (listed : word ∈ keywords)
    (begins : BeginsWith word c.behind.reverse c.ahead) :
    ∃ rest, c.ahead = word.toList ++ rest ∧
      c.Next ⟨.identifier, word, false, c.position⟩ (c.passed word.toList rest) := by
  obtain ⟨_, gap, rest, ahead, gaps⟩ := begins
  rw [List.append_assoc] at ahead
  obtain ⟨isName, words⟩ := keywords_words word listed
  have ends : Text.Ends Text.isWord (gap ++ '(' :: rest) := by
    cases gap with
    | nil => exact Text.ends_cons.mpr (by decide)
    | cons x tail => exact Text.ends_cons.mpr (isWord_of_isGap (gaps x List.mem_cons_self))
  have token : Cursor.wordToken word.toList c.position = ⟨.identifier, word, false, c.position⟩ := by
    simp [Cursor.wordToken, ofWord?_keyword word listed]
  refine ⟨_, ahead, Cursor.next_iff.mpr ⟨[], word.toList, _, ahead, by simp, ?_, rfl, rfl⟩⟩
  rw [← token]
  cases spelled : word.toList with
  | nil =>
    rw [spelled] at isName
    cases isName
  | cons first tail =>
    rw [spelled] at isName words
    exact .word isName (fun x member => List.all_eq_true.mp words x (List.mem_cons_of_mem _ member))
      ends

/-- Such a word is copied, unless it is `if`. -/
theorem expands_of_beginsWith {c : Cursor} {word : String} (listed : word ∈ keywords)
    (notIf : word ≠ "if") (begins : BeginsWith word c.behind.reverse c.ahead) :
    ∃ rest, c.ahead = word.toList ++ rest ∧
      Expands .directive c [] word.toList (c.passed word.toList rest) :=
  (next_of_beginsWith listed begins).imp fun _ read => ⟨read.1, .copied read.2 rfl notIf⟩

/-! ## Texts without `if` -/

/-- Whether `if` begins no directive in a text. -/
def Inert (text : List Char) : Prop :=
  ∀ before after, text = before ++ after → ¬BeginsWith "if" before after

/-- From any place in such a text, what lies ahead is copied. -/
theorem expandFrom_of_inert {c : Cursor} (inert : Inert c.source) :
    expandFrom c = ⟨[], .ok c.ahead⟩ := by
  rcases found : c.upTo keywords with ⟨text, _ | stop, d⟩
  · obtain ⟨ahead, _, ended, _⟩ := Cursor.upTo_parts found
    rw [expandFrom_of_none found, ahead, ended rfl, List.append_nil]
  · obtain ⟨ahead, passed, _, stopped⟩ := Cursor.upTo_parts found
    have met := stopped stop rfl
    have listed := List.mem_of_find?_eq_some met
    have begins : BeginsWith stop d.behind.reverse d.ahead :=
      (meets_iff (keywords_words stop listed).1).mp (List.find?_some met)
    have atStop : d.source = c.source := by
      rw [passed]
      exact Cursor.source_passed ahead
    have notIf : stop ≠ "if" := by
      rintro rfl
      exact inert _ _ atStop.symm begins
    obtain ⟨rest, ahead', expands⟩ := expands_of_beginsWith listed notIf begins
    obtain ⟨shorter, expanded⟩ := expands.runs
    have behindWord : (d.passed stop.toList rest).source = c.source :=
      (Cursor.source_passed ahead').trans atStop
    have smaller : (d.passed stop.toList rest).size < c.size := by
      have bound := Cursor.size_upTo keywords c
      rw [found] at bound
      exact Nat.lt_of_lt_of_le shorter bound
    rw [expandFrom_of_ok found expanded, expandFrom_of_inert (behindWord.symm ▸ inert), ahead, ahead']
    simp [resume, Except.map, Cursor.passed]
termination_by c.size

theorem inert_iff {text : List Char} :
    Inert text ↔ (Cursor.upTo ["if"] ⟨[], text⟩).2.1 = none := by
  have met {before after : List Char} :
      Cursor.meetsAny? ⟨before.reverse ++ [], after⟩ ["if"] = none ↔
        ¬BeginsWith "if" before after := by
    rw [Cursor.meetsAny?, List.find?_eq_none, List.forall_mem_singleton, meets_iff (by decide)]
    simp
  rw [Cursor.upTo, upToFrom_eq_none_iff]
  constructor
  · intro inert before after parts _
    exact met.mpr (inert before after parts)
  · intro unmet before after parts begins
    refine met.mp (unmet before after parts ?_) begins
    rintro rfl
    obtain ⟨_, gap, rest, spelled, _⟩ := begins
    simp at spelled

instance (text : List Char) : Decidable (Inert text) := decidable_of_iff _ inert_iff.symm

end Directive

namespace Registry

/-- A source where `if` begins no directive is unchanged, and so is the registry. -/
theorem expand_inert (r : Registry) {source : String} (inert : Directive.Inert source.toList) :
    r.expand source = (.ok source, r) := by
  have copied : Directive.expandFrom (.start source) = ⟨[], .ok source.toList⟩ :=
    Directive.expandFrom_of_inert (by rwa [Cursor.source_start])
  rw [expand, Directive.expand_eq, copied]
  simp [Except.map]

/-- Words within words, words before no parenthesis, both of the other directives, operators that
stand alone and quotes and parentheses that are not closed. -/
theorem expand_inert_exEmpty :
    exEmpty.expand "elif(a) $if (b) ifé(c) if é match (token(d), 'e\" & ) |( iff(\n" =
      (.ok "elif(a) $if (b) ifé(c) if é match (token(d), 'e\" & ) |( iff(\n", exEmpty) :=
  expand_inert exEmpty (by decide +kernel)

end Registry

end StyleFlags
