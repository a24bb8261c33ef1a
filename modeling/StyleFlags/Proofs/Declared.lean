import StyleFlags.Proofs.Separated
import StyleFlags.Rule

/-!
# Declarations in force

A block is a text, and what it declares is read from that text, line by line.
Of several declarations of one name, the last one is in force.

Results:
1. `declared_declarationsText`: the text of declarations without separators in
   their parts reads back.
2. `inForce?_append`, `inForce?_eq_some`, `inForce?_eq_none`: how the value in force follows
   from the declarations.
-/

namespace StyleFlags

namespace Declaration

/-- Reads a declaration from its line. -/
def read? (line : List Char) : Option Declaration :=
  match line with
  | '-' :: '-' :: rest =>
    match cut? ':' rest with
    | some (name, after) =>
      match cut? ';' after with
      | some (value, []) => some ⟨String.ofList name, String.ofList value⟩
      | _ => none
    | none => none
  | _ => none

/-- A declaration without separators in its parts. -/
structure Readable (d : Declaration) : Prop where
  name : Spelled d.name.toList
  value : Spelled d.value.toList

theorem toList_text (d : Declaration) :
    d.text.toList = '-' :: '-' :: (d.name.toList ++ ':' :: (d.value.toList ++ [';'])) := by
  simp [text]

theorem Readable.read?_text {d : Declaration} (readable : d.Readable) :
    read? d.text.toList = some d := by
  rw [toList_text, read?, readable.name.cut?_append (by decide)]
  simp only
  rw [readable.value.cut?_append (by decide)]
  simp only [String.ofList_toList]

theorem Readable.newline_notMem {d : Declaration} (readable : d.Readable) :
    '\n' ∉ d.text.toList := by
  rw [toList_text]
  simp [readable.name.newline_notMem, readable.value.newline_notMem]

theorem filterMap_read? {declarations : List Declaration}
    (readable : ∀ d ∈ declarations, d.Readable) :
    (declarations.map (·.text.toList)).filterMap read? = declarations := by
  induction declarations with
  | nil => rfl
  | cons first rest ih =>
    obtain ⟨head, tail⟩ := List.forall_mem_cons.mp readable
    rw [List.map_cons, List.filterMap_cons_some head.read?_text, ih tail]

end Declaration

/-! ## The text of a block -/

/-- What the text of a block declares. -/
def declared (text : String) : List Declaration :=
  (text.toList.splitOn '\n').filterMap Declaration.read?

theorem declared_declarationsText {declarations : List Declaration}
    (readable : ∀ d ∈ declarations, d.Readable) :
    declared (declarationsText declarations) = declarations := by
  cases declarations with
  | nil => rfl
  | cons first rest =>
    have lines : (declarationsText (first :: rest)).toList.splitOn '\n' =
        (first :: rest).map (·.text.toList) := by
      rw [declarationsText, String.toList_intercalate, List.map_map]
      refine List.splitOn_intercalate '\n' ?_ (by simp)
      intro line member
      obtain ⟨d, listed, rfl⟩ := List.mem_map.mp member
      exact (readable d listed).newline_notMem
    rw [declared, lines]
    exact Declaration.filterMap_read? readable

theorem toList_declarationsText_cons (d : Declaration) (rest : List Declaration) :
    ∃ more, (declarationsText (d :: rest)).toList =
      '-' :: '-' :: (d.name.toList ++ ':' :: more) := by
  cases rest with
  | nil => exact ⟨d.value.toList ++ [';'], by simp [declarationsText, Declaration.toList_text]⟩
  | cons e rest =>
    exact ⟨d.value.toList ++ ';' :: '\n' :: (declarationsText (e :: rest)).toList, by
      simp [declarationsText, Declaration.toList_text]⟩

/-- A block that declares something begins with a dash. -/
theorem head?_declarationsText (declarations : List Declaration) :
    ∀ c ∈ (declarationsText declarations).toList.head?, c = '-' := by
  cases declarations with
  | nil => simp [declarationsText]
  | cons d rest =>
    obtain ⟨more, chars⟩ := toList_declarationsText_cons d rest
    simp [chars]

/-- Texts are the same only if they declare the same name first, or nothing. -/
theorem head?_name_of_text_eq {first second : List Declaration}
    (hf : ∀ d ∈ first, Spelled d.name.toList) (hs : ∀ d ∈ second, Spelled d.name.toList)
    (same : declarationsText first = declarationsText second) :
    first.head?.map (·.name) = second.head?.map (·.name) := by
  cases first with
  | nil =>
    cases second with
    | nil => rfl
    | cons e rest =>
      obtain ⟨more, chars⟩ := toList_declarationsText_cons e rest
      rw [← same] at chars
      cases chars
  | cons d rest =>
    obtain ⟨more, chars⟩ := toList_declarationsText_cons d rest
    cases second with
    | nil =>
      rw [same] at chars
      cases chars
    | cons e rest' =>
      obtain ⟨more', chars'⟩ := toList_declarationsText_cons e rest'
      rw [same, chars'] at chars
      have tails := (List.cons.inj (List.cons.inj chars).2).2
      have cut : cut? ':' (e.name.toList ++ ':' :: more') = some (e.name.toList, more') :=
        (hs e List.mem_cons_self).cut?_append (by decide) more'
      rw [tails, (hf d List.mem_cons_self).cut?_append (by decide) more] at cut
      have names : d.name = e.name := String.toList_injective (congrArg Prod.fst (Option.some.inj cut))
      simp [names]

/-! ## The last declaration -/

/-- The value of the last declaration of a name. -/
def inForce? (declarations : List Declaration) (name : String) : Option String :=
  (declarations.filter (·.name == name)).getLast?.map (·.value)

theorem inForce?_append (first second : List Declaration) (name : String) :
    inForce? (first ++ second) name = (inForce? second name).or (inForce? first name) := by
  rw [inForce?, List.filter_append, List.getLast?_append]
  cases found : (second.filter (·.name == name)).getLast? <;> simp [inForce?, found]

theorem inForce?_eq_none {declarations : List Declaration} {name : String}
    (undeclared : ∀ d ∈ declarations, d.name ≠ name) : inForce? declarations name = none := by
  have nothing : declarations.filter (·.name == name) = [] := by
    refine List.filter_eq_nil_iff.mpr fun d listed => ?_
    simpa using undeclared d listed
  rw [inForce?, nothing]
  rfl

theorem inForce?_eq_some {declarations : List Declaration} {name value : String}
    (exists_one : ∃ d ∈ declarations, d.name = name)
    (agree : ∀ d ∈ declarations, d.name = name → d.value = value) :
    inForce? declarations name = some value := by
  obtain ⟨d, listed, named⟩ := exists_one
  have nonempty : declarations.filter (·.name == name) ≠ [] :=
    List.ne_nil_of_mem (List.mem_filter.mpr ⟨listed, beq_iff_eq.mpr named⟩)
  obtain ⟨inList, lastNamed⟩ := List.mem_filter.mp (List.getLast_mem nonempty)
  rw [inForce?, List.getLast?_eq_some_getLast nonempty, Option.map_some,
    agree _ inList (beq_iff_eq.mp lastNamed)]

end StyleFlags
