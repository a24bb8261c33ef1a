import StyleFlags.Proofs.Parsing

/-!
# How directives are expanded

What expanding does where it succeeds, as a relation: a directive is a head with
its test and one or two branches, and a branch is text with directives of its
own. The relation says nothing of how far the functions can still go, which only
their termination needs, so a proof about what is expanded is an induction over
the directives and their branches.

Results:
1. `Directive.expands_of_expandAt`, `Directive.expands_of_balanced`: what expanding
   succeeds on is related.
2. `Directive.Expands.runs`: what is related, expanding succeeds on.
3. `Directive.expandAt_eq_ok_iff`: so for a directive the two are the same.
-/

namespace StyleFlags

/-! ## Steps of an expansion -/

namespace Expansion

variable {α β : Type} {ds : List Directive}

theorem ok_or_error (x : Expansion α) :
    (∃ ds a, x = ⟨ds, .ok a⟩) ∨ ∃ ds fault, x = ⟨ds, .error fault⟩ := by
  obtain ⟨ds, result⟩ := x
  cases result with
  | ok a => exact .inl ⟨ds, a, rfl⟩
  | error fault => exact .inr ⟨ds, fault, rfl⟩

theorem bind_eq_iff {x : Expansion α} {f : α → Expansion β} {b : β} :
    (x >>= f) = ⟨ds, .ok b⟩ ↔
      ∃ first a second, x = ⟨first, .ok a⟩ ∧ f a = ⟨second, .ok b⟩ ∧ ds = first ++ second := by
  obtain ⟨first, result⟩ := x
  cases result with
  | error e =>
    constructor
    · rintro ⟨⟩
    · rintro ⟨_, _, _, ⟨⟩, _⟩
  | ok a =>
    constructor
    · intro done
      cases next : f a with
      | mk second outcome =>
        have joined : (⟨first ++ second, outcome⟩ : Expansion β) = ⟨ds, .ok b⟩ := by
          rw [← done]
          show _ = Expansion.mk (first ++ (f a).directives) (f a).result
          rw [next]
        cases joined
        exact ⟨first, a, second, rfl, next, rfl⟩
    · rintro ⟨_, _, second, ⟨⟩, next, rfl⟩
      show Expansion.mk (first ++ (f a).directives) (f a).result = _
      rw [next]

theorem pure_eq_iff {a b : α} : (pure a : Expansion α) = ⟨ds, .ok b⟩ ↔ ds = [] ∧ a = b := by
  constructor
  · rintro ⟨⟩
    exact ⟨rfl, rfl⟩
  · rintro ⟨rfl, rfl⟩
    rfl

theorem lift_bind_eq_iff {x : Except CompileError α} {f : α → Expansion β} {b : β} :
    (liftM x >>= f) = ⟨ds, .ok b⟩ ↔ ∃ a, x = .ok a ∧ f a = ⟨ds, .ok b⟩ := by
  cases x with
  | error e =>
    constructor
    · rintro ⟨⟩
    · rintro ⟨_, ⟨⟩, _⟩
  | ok a =>
    constructor
    · intro done
      exact ⟨a, rfl, done⟩
    · rintro ⟨_, ⟨⟩, done⟩
      exact done

theorem lift_bind {x : Except CompileError α} {a : α} (done : x = .ok a) (f : α → Expansion β) :
    ((liftM x : Expansion α) >>= f) = f a := by
  rw [done]
  rfl

theorem record_bind_pure_eq_iff {d : Directive} {f : String → α} {a : α} :
    (do let text ← record d; return f text) = (⟨ds, .ok a⟩ : Expansion α) ↔
      ∃ text, d.text = .ok text ∧ ds = [d] ∧ f text = a := by
  unfold record
  cases d.text with
  | error e =>
    constructor
    · rintro ⟨⟩
    · rintro ⟨_, ⟨⟩, _⟩
  | ok text =>
    constructor
    · rintro ⟨⟩
      exact ⟨text, rfl, rfl, rfl⟩
    · rintro ⟨_, ⟨⟩, rfl, rfl⟩
      rfl

end Expansion

namespace Directive

open Condition

/-! ## Expanding as a relation -/

/-- A part of a source: a directive, or a branch up to one of some stops. -/
inductive Part where
  | directive
  | branch (stops : List String) (stop : String)

/-- Whether the head of a directive is at `c`: the word `if`, a parenthesis, the test and a comma. -/
def Opens (c : Cursor) (test : Condition) (d : Cursor) : Prop :=
  ∃ word behind opening inside ended comma,
    c.Next word behind ∧ word.kind = .identifier ∧ word.text = "if" ∧
    behind.Next opening inside ∧ opening.kind = .operator .openParen ∧
    ConditionAt 0 inside test ended ∧ ended.Next comma d ∧ comma.kind = .operator .comma

/-- What is expanded: the directives in the order in which they end, and the text in their place. -/
inductive Expands : Part → Cursor → List Directive → List Char → Cursor → Prop
  | copied {c d : Cursor} {word : Token} :
      c.Next word d → word.kind = .identifier → word.text ≠ "if" →
      Expands .directive c [] word.text.toList d
  | single {c d e : Cursor} {test : Condition} {ds : List Directive} {inside : List Char}
      {stop out : String} :
      Opens c test d → Expands (.branch [",", ")"] stop) d ds inside e → stop ≠ "," →
      text ⟨test, branch inside, none⟩ = .ok out →
      Expands .directive c (ds ++ [⟨test, branch inside, none⟩]) out.toList (e.advance 1)
  | double {c d e f : Cursor} {test : Condition} {ds es : List Directive}
      {inside other : List Char} {stop out : String} :
      Opens c test d → Expands (.branch [",", ")"] ",") d ds inside e →
      Expands (.branch [")"] stop) (e.advance 1) es other f →
      text ⟨test, branch inside, some (branch other)⟩ = .ok out →
      Expands .directive c (ds ++ es ++ [⟨test, branch inside, some (branch other)⟩]) out.toList
        (f.advance 1)
  | ended {c d : Cursor} {stops : List String} {stop : String} {inside : List Char} :
      c.piece stops keywords = .ok (inside, .stop stop, d) →
      Expands (.branch stops stop) c [] inside d
  | nested {c d e f : Cursor} {stops : List String} {stop word : String} {ds es : List Directive}
      {before out behind : List Char} :
      c.piece stops keywords = .ok (before, .keyword word, d) → Expands .directive d ds out e →
      Expands (.branch stops stop) e es behind f →
      Expands (.branch stops stop) c (ds ++ es) (before ++ out ++ behind) f

/-! ## Heads and branches -/

theorem Opens.size_lt {c d : Cursor} {test : Condition} (head : Opens c test d) : d.size < c.size := by
  obtain ⟨_, e, _, f, g, _, first, _, _, second, _, ⟨shorter, _⟩, third, _⟩ := head
  calc d.size < g.size := third.size_lt
    _ < f.size := shorter
    _ < e.size := second.size_lt
    _ < c.size := first.size_lt

/-- The span of a branch. -/
abbrev span (stops : List String) (limit : Nat) (c : Cursor) (within : c.size ≤ limit) :
    Expansion (Cursor.Balanced c) :=
  c.balanced stops keywords limit (fun _ k _ => expandAt k) within

/-- Behind its head, a directive has its branches, and is recorded after them. -/
theorem expandAt_of_opens {c d : Cursor} {test : Condition} (head : Opens c test d)
    (smaller : d.size < c.size) :
    expandAt c = do
      let (consequent, stop, ⟨e, he⟩) ← closeBranch <| ← span [",", ")"] d.size d (Nat.le_refl _)
      if stop = "," then
        let (alternate, _, ⟨f, hf⟩) ← closeBranch <| ← span [")"] e.size e (Nat.le_refl _)
        let text ← Expansion.record ⟨test, consequent, some alternate⟩
        return (text.toList, ⟨f, Nat.lt_of_le_of_lt (Nat.le_trans hf he) smaller⟩)
      else
        let text ← Expansion.record ⟨test, consequent, none⟩
        return (text.toList, ⟨e, Nat.lt_of_le_of_lt he smaller⟩) := by
  obtain ⟨word, e, opening, f, g, comma, first, isName, isIf, second, opens, ⟨hg, condition⟩, third,
    isComma⟩ := head
  have readWord : c.expect .identifier = .ok (word, ⟨e, first.size_lt⟩) :=
    Cursor.expect_eq_ok.mpr ⟨first, isName⟩
  have readOpening : e.expect (.operator .openParen) = .ok (opening, ⟨f, second.size_lt⟩) :=
    Cursor.expect_eq_ok.mpr ⟨second, opens⟩
  have readComma : g.expect (.operator .comma) = .ok (comma, ⟨d, third.size_lt⟩) :=
    Cursor.expect_eq_ok.mpr ⟨third, isComma⟩
  rw [expandAt]
  refine (Expansion.lift_bind readWord _).trans ((if_pos isIf).trans ?_)
  refine (Expansion.lift_bind readOpening _).trans ?_
  refine (Expansion.lift_bind condition _).trans ?_
  exact Expansion.lift_bind readComma _

/-- A directive that is expanded is a word that is copied, or has a head. -/
theorem copied_or_opens {c : Cursor} {ds : List Directive} {out : List Char} {d : c.Shorter}
    (done : expandAt c = ⟨ds, .ok (out, d)⟩) :
    (∃ word, c.Next word d.val ∧ word.kind = .identifier ∧ word.text ≠ "if" ∧ ds = [] ∧
      out = word.text.toList) ∨ ∃ test e, Opens c test e := by
  rw [expandAt] at done
  obtain ⟨⟨word, e, he⟩, read, done⟩ := Expansion.lift_bind_eq_iff.mp done
  obtain ⟨first, isName⟩ := Cursor.expect_eq_ok.mp read
  simp only at done
  split at done
  · next isIf =>
    obtain ⟨⟨opening, f, hf⟩, read, done⟩ := Expansion.lift_bind_eq_iff.mp done
    obtain ⟨second, opens⟩ := Cursor.expect_eq_ok.mp read
    obtain ⟨⟨test, g, hg⟩, condition, done⟩ := Expansion.lift_bind_eq_iff.mp done
    obtain ⟨⟨comma, h, hh⟩, read, _⟩ := Expansion.lift_bind_eq_iff.mp done
    obtain ⟨third, isComma⟩ := Cursor.expect_eq_ok.mp read
    exact .inr ⟨test, h, word, e, opening, f, g, comma, first, isName, isIf, second, opens,
      ⟨hg, condition⟩, third, isComma⟩
  · next notIf =>
    obtain ⟨rfl, same⟩ := Expansion.pure_eq_iff.mp done
    cases same
    exact .inl ⟨word, first, isName, notIf, rfl, rfl⟩

/-! ## What succeeds is related -/

theorem expands_of_balanced {stops : List String} {stop : String} {limit : Nat}
    (handled : ∀ k : Cursor, k.size ≤ limit → ∀ ds out d, expandAt k = ⟨ds, .ok (out, d)⟩ →
      Expands .directive k ds out d.val)
    {c : Cursor} {within : c.size ≤ limit} {ds : List Directive} {balanced : Cursor.Balanced c}
    (done : span stops limit c within = ⟨ds, .ok balanced⟩) (stopped : balanced.stop = some stop) :
    Expands (.branch stops stop) c ds balanced.text balanced.place.val := by
  rw [span, Cursor.balanced] at done
  split at done
  · cases done
  · cases done
    cases stopped
  · next found =>
    cases done
    cases stopped
    exact .ended found
  · next before word d found =>
    have bound := Cursor.size_piece found
    obtain ⟨first, ⟨out, e, shorter⟩, second, expanded, behind, parts⟩ :=
      Expansion.bind_eq_iff.mp done
    obtain ⟨third, rest, fourth, below, ended, parts'⟩ := Expansion.bind_eq_iff.mp behind
    obtain ⟨rfl, rfl⟩ := Expansion.pure_eq_iff.mp ended
    have inner := handled d (Nat.le_trans bound within) _ _ _ expanded
    have outer := expands_of_balanced handled below stopped
    rw [parts, parts', List.append_nil]
    exact .nested found inner outer
termination_by c.size

theorem closeBranch_eq_ok {c : Cursor} {balanced : Cursor.Balanced c} {inside stop : String}
    {d : c.NotLonger} :
    closeBranch balanced = .ok (inside, stop, d) ↔
      balanced.stop = some stop ∧ inside = branch balanced.text ∧
        d.val = balanced.place.val.advance 1 := by
  unfold closeBranch
  split
  · next noStop => simp [noStop]
  · next other found =>
    rw [found]
    constructor
    · rintro ⟨⟩
      exact ⟨rfl, rfl, rfl⟩
    · rintro ⟨⟨⟩, rfl, same⟩
      obtain ⟨d, hd⟩ := d
      cases same
      rfl

/-- What a directive does, if it is known what the directives in its branches do. -/
theorem expands_of_handled {c : Cursor} {ds : List Directive} {out : List Char} {d : c.Shorter}
    (handled : ∀ k : Cursor, k.size < c.size → ∀ ds out d, expandAt k = ⟨ds, .ok (out, d)⟩ →
      Expands .directive k ds out d.val)
    (done : expandAt c = ⟨ds, .ok (out, d)⟩) : Expands .directive c ds out d.val := by
  rcases copied_or_opens done with ⟨word, first, isName, notIf, rfl, rfl⟩ | ⟨test, e, head⟩
  · exact .copied first isName notIf
  · have smaller := head.size_lt
    rw [expandAt_of_opens head smaller] at done
    obtain ⟨es, balanced, rest, spanned, done, parts⟩ := Expansion.bind_eq_iff.mp done
    obtain ⟨⟨inside, stop, f, hf⟩, closed, done⟩ := Expansion.lift_bind_eq_iff.mp done
    obtain ⟨stopped, isInside, same⟩ := closeBranch_eq_ok.mp closed
    have closer : f.size ≤ e.size := hf
    have consequent : Expands (.branch [",", ")"] stop) e es balanced.text balanced.place.val :=
      expands_of_balanced (fun k within => handled k (Nat.lt_of_le_of_lt within smaller)) spanned
        stopped
    subst isInside
    simp only at done
    split at done
    · next isComma =>
      obtain ⟨fs, balanced', rest', spanned, done, parts'⟩ := Expansion.bind_eq_iff.mp done
      obtain ⟨⟨alternate, stop', g, hg⟩, closed, done⟩ := Expansion.lift_bind_eq_iff.mp done
      obtain ⟨stopped, isAlternate, last⟩ := closeBranch_eq_ok.mp closed
      have other : Expands (.branch [")"] stop') f fs balanced'.text balanced'.place.val :=
        expands_of_balanced (fun k within => handled k
          (Nat.lt_of_le_of_lt (Nat.le_trans within closer) smaller)) spanned stopped
      subst isAlternate
      obtain ⟨out', written, recorded, done⟩ := Expansion.record_bind_pure_eq_iff.mp done
      cases done
      cases same
      cases last
      rw [parts, parts', recorded, ← List.append_assoc]
      exact .double head (isComma ▸ consequent) other written
    · next notComma =>
      obtain ⟨out', written, recorded, done⟩ := Expansion.record_bind_pure_eq_iff.mp done
      cases done
      cases same
      rw [parts, recorded]
      exact .single head consequent notComma written

theorem expands_of_expandAt {c : Cursor} {ds : List Directive} {out : List Char} {d : c.Shorter}
    (done : expandAt c = ⟨ds, .ok (out, d)⟩) : Expands .directive c ds out d.val :=
  expands_of_handled (fun _ _ _ _ _ => expands_of_expandAt) done
termination_by c.size
decreasing_by assumption

/-! ## What is related succeeds -/

/-- What the functions do with a part that is expanded. -/
def Part.Runs : Part → Cursor → List Directive → List Char → Cursor → Prop
  | .directive, c, ds, out, d => ∃ shorter, expandAt c = ⟨ds, .ok (out, ⟨d, shorter⟩)⟩
  | .branch stops stop, c, ds, inside, d => ∀ limit within, ∃ balanced : Cursor.Balanced c,
      span stops limit c within = ⟨ds, .ok balanced⟩ ∧ balanced.text = inside ∧
        balanced.stop = some stop ∧ balanced.place.val = d

theorem runs_ended {c d : Cursor} {stops : List String} {stop : String} {inside : List Char}
    (found : c.piece stops keywords = .ok (inside, .stop stop, d)) :
    Part.Runs (.branch stops stop) c [] inside d := by
  intro limit within
  refine ⟨⟨inside, some stop, ⟨d, Cursor.size_piece found⟩⟩, ?_, rfl, rfl, rfl⟩
  rw [span, Cursor.balanced]
  -- Of the outcomes of the piece, only the one that was found is left.
  split
  all_goals
    rename_i other
    rw [found] at other
    cases other
  rfl

theorem runs_nested {c d e f : Cursor} {stops : List String} {stop word : String}
    {ds es : List Directive} {before out behind : List Char}
    (found : c.piece stops keywords = .ok (before, .keyword word, d))
    (inner : Part.Runs .directive d ds out e) (outer : Part.Runs (.branch stops stop) e es behind f) :
    Part.Runs (.branch stops stop) c (ds ++ es) (before ++ out ++ behind) f := by
  intro limit within
  obtain ⟨shorter, expanded⟩ := inner
  have bound := Cursor.size_piece found
  have closer : e.size ≤ c.size := Nat.le_trans (Nat.le_of_lt shorter) bound
  obtain ⟨rest, below, rfl, stopped, rfl⟩ := outer limit (Nat.le_trans closer within)
  refine ⟨⟨before ++ out ++ rest.text, rest.stop,
    ⟨rest.place.val, Nat.le_trans rest.place.property closer⟩⟩, ?_, rfl, stopped, rfl⟩
  rw [span, Cursor.balanced]
  split
  all_goals
    rename_i other
    rw [found] at other
    cases other
  refine Expansion.bind_eq_iff.mpr ⟨ds, _, es, expanded, ?_, rfl⟩
  exact Expansion.bind_eq_iff.mpr
    ⟨es, rest, [], below, Expansion.pure_eq_iff.mpr ⟨rfl, rfl⟩, (List.append_nil es).symm⟩

theorem closeBranch_of_stop {c : Cursor} {balanced : Cursor.Balanced c} {stop : String}
    (stopped : balanced.stop = some stop) :
    closeBranch balanced = .ok (branch balanced.text, stop, ⟨_, size_advance_place balanced⟩) :=
  closeBranch_eq_ok.mpr ⟨stopped, rfl, rfl⟩

theorem runs_single {c d e : Cursor} {test : Condition} {ds : List Directive} {inside : List Char}
    {stop out : String} (head : Opens c test d)
    (consequent : Part.Runs (.branch [",", ")"] stop) d ds inside e) (ends : stop ≠ ",")
    (written : text ⟨test, branch inside, none⟩ = .ok out) :
    Part.Runs .directive c (ds ++ [⟨test, branch inside, none⟩]) out.toList (e.advance 1) := by
  have smaller := head.size_lt
  obtain ⟨balanced, spanned, rfl, stopped, rfl⟩ := consequent d.size (Nat.le_refl _)
  refine ⟨Nat.lt_of_le_of_lt (size_advance_place balanced) smaller, ?_⟩
  rw [expandAt_of_opens head smaller]
  refine Expansion.bind_eq_iff.mpr ⟨ds, balanced, _, spanned, ?_, rfl⟩
  refine Expansion.lift_bind_eq_iff.mpr ⟨_, closeBranch_of_stop stopped, (if_neg ends).trans ?_⟩
  exact Expansion.record_bind_pure_eq_iff.mpr ⟨out, written, rfl, rfl⟩

theorem runs_double {c d e f : Cursor} {test : Condition} {ds es : List Directive}
    {inside other : List Char} {stop out : String} (head : Opens c test d)
    (consequent : Part.Runs (.branch [",", ")"] ",") d ds inside e)
    (alternate : Part.Runs (.branch [")"] stop) (e.advance 1) es other f)
    (written : text ⟨test, branch inside, some (branch other)⟩ = .ok out) :
    Part.Runs .directive c (ds ++ es ++ [⟨test, branch inside, some (branch other)⟩]) out.toList
      (f.advance 1) := by
  have smaller := head.size_lt
  obtain ⟨first, spanned, rfl, stopped, rfl⟩ := consequent d.size (Nat.le_refl _)
  obtain ⟨second, spanned', rfl, stopped', rfl⟩ := alternate _ (Nat.le_refl _)
  have closer := Nat.le_trans (size_advance_place second) (size_advance_place first)
  refine ⟨Nat.lt_of_le_of_lt closer smaller, ?_⟩
  rw [expandAt_of_opens head smaller, List.append_assoc]
  refine Expansion.bind_eq_iff.mpr ⟨ds, first, _, spanned, ?_, rfl⟩
  refine Expansion.lift_bind_eq_iff.mpr ⟨_, closeBranch_of_stop stopped, (if_pos rfl).trans ?_⟩
  refine Expansion.bind_eq_iff.mpr ⟨es, second, _, spanned', ?_, rfl⟩
  refine Expansion.lift_bind_eq_iff.mpr ⟨_, closeBranch_of_stop stopped', ?_⟩
  exact Expansion.record_bind_pure_eq_iff.mpr ⟨out, written, rfl, rfl⟩

theorem Expands.runs {part : Part} {c d : Cursor} {ds : List Directive} {out : List Char}
    (expands : Expands part c ds out d) : part.Runs c ds out d := by
  induction expands with
  | @copied c d word first isName notIf =>
    refine ⟨first.size_lt, ?_⟩
    rw [expandAt]
    exact Expansion.lift_bind_eq_iff.mpr
      ⟨(word, ⟨d, first.size_lt⟩), Cursor.expect_eq_ok.mpr ⟨first, isName⟩, if_neg notIf⟩
  | single head _ ends written consequent => exact runs_single head consequent ends written
  | double head _ _ written consequent alternate =>
    exact runs_double head consequent alternate written
  | ended found => exact runs_ended found
  | nested found _ _ inner outer => exact runs_nested found inner outer

theorem expandAt_eq_ok_iff {c d : Cursor} {ds : List Directive} {out : List Char} :
    (∃ shorter, expandAt c = ⟨ds, .ok (out, ⟨d, shorter⟩)⟩) ↔ Expands .directive c ds out d := by
  constructor
  · rintro ⟨_, done⟩
    exact expands_of_expandAt done
  · exact Expands.runs

end Directive

end StyleFlags
