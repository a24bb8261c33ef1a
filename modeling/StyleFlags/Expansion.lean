import StyleFlags.Condition.Read
import StyleFlags.Directive
import StyleFlags.Text.Span

/-!
# Expanding directives

Finds the directives of a source and puts their references in their place. The
words `match` and `token` are reserved for directives too, and are copied. The
branches of a directive are raw text with directives of their own, which are
replaced first. An expansion lists the directives in the order in which they
end, also those before an error.
-/

namespace StyleFlags

/-- The outcome of reading part of a source, with the directives read to their end. -/
structure Expansion (α : Type) where
  directives : List Directive
  result : Except CompileError α

namespace Expansion

variable {α β : Type}

instance : Monad Expansion where
  pure a := ⟨[], .ok a⟩
  bind x f :=
    match x.result with
    | .error e => ⟨x.directives, .error e⟩
    | .ok a =>
      let y := f a
      ⟨x.directives ++ y.directives, y.result⟩

instance : MonadLift (Except CompileError) Expansion := ⟨fun result => ⟨[], result⟩⟩

instance : MonadLift (Except Fault) Expansion := ⟨fun
  | .ok a => ⟨[], .ok a⟩
  | .error fault => ⟨[], .error fault.error⟩⟩

/-- Records a directive, and yields what takes its place. -/
def record (d : Directive) : Expansion String := ⟨[d], d.text⟩

end Expansion

namespace Directive

/-- The words that begin a directive. -/
def keywords : List String := ["if", "match", "token"]

/-- White space around a branch does not belong to it. -/
def branch (text : List Char) : String := String.ofList (Text.trim text)

theorem size_advance_place {c : Cursor} (span : Cursor.Balanced c) :
    (span.place.val.advance 1).size ≤ c.size := by
  have := span.place.property
  rw [Cursor.size_advance]
  omega

/-- Moves over the stop of a branch. Without a stop, the directive is not closed. -/
def closeBranch {c : Cursor} (span : Cursor.Balanced c) :
    Except CompileError (String × String × c.NotLonger) :=
  match span.stop with
  | none => .error (.unexpectedEnd ")")
  | some stop =>
    .ok (branch span.text, stop, ⟨span.place.val.advance 1, size_advance_place span⟩)

/-- A directive is longer than its branches. -/
theorem size_lt_of_parts {c d e f g h : Cursor} (hd : d.size < c.size) (he : e.size < d.size)
    (hf : f.size < e.size) (hg : g.size < f.size) (hh : h.size ≤ g.size) : h.size < c.size := by
  omega

/-- Replaces the directive at the cursor, and moves over it. -/
def expandAt (c : Cursor) : Expansion (List Char × c.Shorter) := do
  let (keyword, ⟨d, hd⟩) ← c.expect .identifier
  if keyword.text = "if" then
    let (_, ⟨e, he⟩) ← d.expect (.operator .openParen)
    let (test, ⟨f, hf⟩) ← Condition.readAt 0 e
    let (_, ⟨g, hg⟩) ← f.expect (.operator .comma)
    let (consequent, stop, ⟨h, hh⟩) ← closeBranch <| ←
      g.balanced [",", ")"] keywords g.size (fun _ k _within => expandAt k) (Nat.le_refl _)
    if stop = "," then
      let (alternate, _, ⟨i, hi⟩) ← closeBranch <| ←
        h.balanced [")"] keywords h.size (fun _ k _within => expandAt k) (Nat.le_refl _)
      let text ← Expansion.record ⟨test, consequent, some alternate⟩
      return (text.toList, ⟨i, size_lt_of_parts hd he hf hg (Nat.le_trans hi hh)⟩)
    else
      let text ← Expansion.record ⟨test, consequent, none⟩
      return (text.toList, ⟨h, size_lt_of_parts hd he hf hg hh⟩)
  else return (keyword.text.toList, ⟨d, hd⟩)
termination_by c.size

/-- Replaces every directive from the cursor on. -/
def expandFrom (c : Cursor) : Expansion (List Char) :=
  match found : c.upTo keywords with
  | (text, none, _) => pure text
  | (text, some _, d) =>
    have bound : d.size ≤ c.size := by
      have := Cursor.size_upTo keywords c
      rw [found] at this
      exact this
    do
      let (out, ⟨e, shorter⟩) ← expandAt d
      let rest ← expandFrom e
      return text ++ out ++ rest
termination_by c.size

/-- Replaces every directive of a source. -/
def expand (source : String) : Expansion String := do
  return String.ofList (← expandFrom (Cursor.start source))

end Directive

end StyleFlags
