import StyleFlags.Ordered

/-!
# Looking things up in tables and sets

A table is an increasing list of entries, so a name has one entry at most, and
looking it up finds exactly that entry. The lemmas below say for each operation
what it does to the entries, or to what a look-up finds. Tables and sets are equal
as soon as they hold the same things (`Table.ext_get?`, `SortedSet.ext_mem`).
-/

namespace StyleFlags

section Increasing

variable {α : Type} [Ord α] [Std.TransOrd α]

theorem ne_of_compare_lt {a b : α} (less : compare a b = .lt) : a ≠ b := by
  rintro rfl
  have same : compare a a = .eq := Std.ReflCmp.compare_self
  rw [same] at less
  cases less

/-- Lists in increasing order of their keys are equal if they have the same members. -/
theorem eq_of_increasing {β : Type} (key : β → α) {first second : List β}
    (hf : first.Pairwise fun a b => compare (key a) (key b) = .lt)
    (hs : second.Pairwise fun a b => compare (key a) (key b) = .lt)
    (same : ∀ x, x ∈ first ↔ x ∈ second) : first = second := by
  have distinct {l : List β} (sorted : l.Pairwise fun a b => compare (key a) (key b) = .lt) :
      l.Nodup :=
    sorted.imp fun less equal => ne_of_compare_lt less (congrArg key equal)
  refine ((List.perm_ext_iff_of_nodup (distinct hf) (distinct hs)).mpr same).eq_of_pairwise ?_ hf hs
  intro a b _ _ less greater
  exact absurd rfl (ne_of_compare_lt (Std.TransCmp.lt_trans less greater))

end Increasing

/-- What adds each item at the end, where the items come in increasing order, lists them as they
come. -/
theorem foldl_eq_append {σ α : Type} {less : α → α → Prop} {items : σ → List α} {add : σ → α → σ}
    (atEnd : ∀ t a, (∀ b ∈ items t, less b a) → items (add t a) = items t ++ [a]) (l : List α) (t : σ)
    (sorted : (items t ++ l).Pairwise less) : items (l.foldl add t) = items t ++ l := by
  induction l generalizing t with
  | nil => simp
  | cons a rest ih =>
    have added := atEnd t a fun b member =>
      (List.pairwise_append.mp sorted).2.2 b member a List.mem_cons_self
    rw [List.foldl_cons, ih, added, List.append_assoc]
    · rfl
    · rwa [added, List.append_assoc]

namespace Table

variable {β γ : Type} {t : Table β} {name : String}

/-- Two entries of one name are the same entry. -/
theorem eq_of_mem {a b : String × β} (ha : a ∈ t.entries) (hb : b ∈ t.entries)
    (same : a.1 = b.1) : a = b := by
  have unique : ∀ l : List (String × β), l.Pairwise (fun a b => compare a.1 b.1 = .lt) →
      a ∈ l → b ∈ l → a = b := by
    intro l
    induction l with
    | nil =>
      intro _ ha
      cases ha
    | cons e rest ih =>
      intro sorted ha hb
      obtain ⟨above, tail⟩ := List.pairwise_cons.mp sorted
      rcases List.mem_cons.mp ha with isFirst | ha
      · rcases List.mem_cons.mp hb with isFirst' | hb
        · rw [isFirst, isFirst']
        · exact (ne_of_compare_lt (above b hb) (isFirst ▸ same)).elim
      · rcases List.mem_cons.mp hb with isFirst | hb
        · exact (ne_of_compare_lt (above a ha) (isFirst ▸ same.symm)).elim
        · exact ih tail ha hb
  exact unique t.entries t.increasing ha hb

theorem get?_eq_some_iff {value : β} : t.get? name = some value ↔ (name, value) ∈ t.entries := by
  constructor
  · intro found
    obtain ⟨before, after, split, _⟩ := List.lookup_eq_some_iff.mp found
    rw [split]
    simp
  · intro member
    cases found : t.get? name with
    | none =>
      have none := List.lookup_eq_none_iff.mp found (name, value) member
      simp at none
    | some other =>
      obtain ⟨before, after, split, _⟩ := List.lookup_eq_some_iff.mp found
      have there : (name, other) ∈ t.entries := by
        rw [split]
        simp
      have same := eq_of_mem there member rfl
      cases same
      rfl

theorem get?_eq_none_iff : t.get? name = none ↔ ∀ value, (name, value) ∉ t.entries := by
  constructor
  · intro missing value member
    rw [get?_eq_some_iff.mpr member] at missing
    cases missing
  · intro missing
    cases found : t.get? name with
    | none => rfl
    | some value => exact (missing value (get?_eq_some_iff.mp found)).elim

theorem ext_get? {s t : Table β} (same : ∀ name, s.get? name = t.get? name) : s = t := by
  refine ext_entries (eq_of_increasing (·.1) s.increasing t.increasing ?_)
  rintro ⟨name, value⟩
  rw [← get?_eq_some_iff, ← get?_eq_some_iff, same]

/-- The names that have an entry, in increasing order. -/
def names (t : Table β) : List String := t.entries.map (·.1)

theorem mem_names : name ∈ t.names ↔ ∃ value, (name, value) ∈ t.entries := by
  simp [names]

theorem names_increasing (t : Table β) : t.names.Pairwise fun a b => compare a b = .lt :=
  List.pairwise_map.mpr t.increasing

theorem nodup_names (t : Table β) : t.names.Nodup := t.names_increasing.imp ne_of_compare_lt

theorem mem_place_iff {value : β} {l : List (String × β)} {e : String × β}
    (sorted : l.Pairwise fun a b => compare a.1 b.1 = .lt) :
    e ∈ place name value l ↔ e = (name, value) ∨ (e ∈ l ∧ e.1 ≠ name) := by
  induction l with
  | nil => simp [place]
  | cons b rest ih =>
    obtain ⟨above, tail⟩ := List.pairwise_cons.mp sorted
    simp only [place]
    split
    · next before =>
      -- Past the place of the name, no other entry has it.
      have apart : ∀ x ∈ b :: rest, x.1 ≠ name := by
        intro x member
        rcases List.mem_cons.mp member with rfl | member
        · exact (ne_of_compare_lt before).symm
        · exact (ne_of_compare_lt (Std.TransCmp.lt_trans before (above x member))).symm
      simp only [List.mem_cons (b := (name, value))]
      constructor
      · rintro (rfl | member)
        · exact .inl rfl
        · exact .inr ⟨member, apart e member⟩
      · rintro (rfl | ⟨member, _⟩)
        · exact .inl rfl
        · exact .inr member
    · next same =>
      have equal : name = b.1 := Std.LawfulEqOrd.eq_of_compare same
      simp only [List.mem_cons]
      constructor
      · rintro (rfl | member)
        · exact .inl rfl
        · exact .inr ⟨.inr member, (ne_of_compare_lt (equal ▸ above e member)).symm⟩
      · rintro (rfl | ⟨rfl | member, other⟩)
        · exact .inl rfl
        · exact (other equal.symm).elim
        · exact .inr member
    · next after =>
      have other : b.1 ≠ name := ne_of_compare_lt (Std.OrientedCmp.lt_of_gt after)
      simp only [List.mem_cons, ih tail]
      constructor
      · rintro (rfl | rfl | ⟨member, apart⟩)
        · exact .inr ⟨.inl rfl, other⟩
        · exact .inl rfl
        · exact .inr ⟨.inr member, apart⟩
      · rintro (rfl | ⟨rfl | member, apart⟩)
        · exact .inr (.inl rfl)
        · exact .inl rfl
        · exact .inr (.inr ⟨member, apart⟩)

theorem mem_insert {value : β} {e : String × β} :
    e ∈ (t.insert name value).entries ↔ e = (name, value) ∨ (e ∈ t.entries ∧ e.1 ≠ name) :=
  mem_place_iff t.increasing

theorem mem_values {value : β} : value ∈ t.values ↔ ∃ name, t.get? name = some value := by
  simp only [values, List.mem_map, get?_eq_some_iff]
  constructor
  · rintro ⟨⟨name, _⟩, listed, rfl⟩
    exact ⟨name, listed⟩
  · rintro ⟨name, listed⟩
    exact ⟨(name, value), listed, rfl⟩

theorem get?_insert (value : β) (other : String) :
    (t.insert name value).get? other = if other = name then some value else t.get? other := by
  split
  · next same =>
    rw [same]
    exact get?_eq_some_iff.mpr (mem_insert.mpr (.inl rfl))
  · next different =>
    refine Option.ext fun held => ?_
    rw [get?_eq_some_iff, get?_eq_some_iff, mem_insert]
    simp [different]

theorem get?_map (f : β → γ) : (t.map f).get? name = (t.get? name).map f := by
  cases found : t.get? name with
  | none =>
    refine get?_eq_none_iff.mpr fun value member => ?_
    obtain ⟨⟨other, held⟩, inside, same⟩ := List.mem_map.mp member
    cases same
    exact get?_eq_none_iff.mp found held inside
  | some value =>
    refine get?_eq_some_iff.mpr (List.mem_map.mpr ⟨(name, value), ?_, rfl⟩)
    exact get?_eq_some_iff.mp found

theorem get?_filterMap (f : String → β → Option γ) :
    (t.filterMap f).get? name = (t.get? name).bind (f name) := by
  have entry : ∀ {value : γ}, (name, value) ∈ (t.filterMap f).entries ↔
      ∃ held, (name, held) ∈ t.entries ∧ f name held = some value := by
    intro value
    simp only [filterMap, List.mem_filterMap, Option.map_eq_some_iff]
    constructor
    · rintro ⟨⟨other, held⟩, inside, image, found, same⟩
      cases same
      exact ⟨held, inside, found⟩
    · rintro ⟨held, inside, found⟩
      exact ⟨(name, held), inside, value, found, rfl⟩
  cases found : t.get? name with
  | none =>
    refine get?_eq_none_iff.mpr fun value member => ?_
    obtain ⟨held, inside, _⟩ := entry.mp member
    exact get?_eq_none_iff.mp found held inside
  | some held =>
    have inside := get?_eq_some_iff.mp found
    rw [Option.bind_some]
    cases image : f name held with
    | none =>
      refine get?_eq_none_iff.mpr fun value member => ?_
      obtain ⟨other, also, kept⟩ := entry.mp member
      cases eq_of_mem inside also rfl
      rw [image] at kept
      cases kept
    | some value => exact get?_eq_some_iff.mpr (entry.mpr ⟨held, inside, image⟩)

theorem place_of_above {value : β} {l : List (String × β)}
    (above : ∀ e ∈ l, compare e.1 name = .lt) : place name value l = l ++ [(name, value)] := by
  induction l with
  | nil => rfl
  | cons e rest ih =>
    obtain ⟨first, others⟩ := List.forall_mem_cons.mp above
    rw [place, Std.OrientedCmp.gt_of_lt first]
    simp only [ih others, List.cons_append]

@[simp] theorem ofList_entries (t : Table β) : ofList t.entries = t :=
  ext_entries (foldl_eq_append (fun _ _ above => place_of_above above) t.entries empty t.increasing)

end Table

namespace SortedSet

variable {α : Type} [Ord α] [Std.TransOrd α] [Std.LawfulEqOrd α]

omit [Std.LawfulEqOrd α] in
theorem place_of_above {a : α} {l : List α} (above : ∀ b ∈ l, compare b a = .lt) :
    place a l = l ++ [a] := by
  induction l with
  | nil => rfl
  | cons b rest ih =>
    obtain ⟨first, others⟩ := List.forall_mem_cons.mp above
    rw [place, Std.OrientedCmp.gt_of_lt first]
    simp only [ih others, List.cons_append]

omit [Std.LawfulEqOrd α] in
theorem nodup_toList (s : SortedSet α) : s.toList.Nodup := s.increasing.imp ne_of_compare_lt

omit [Std.LawfulEqOrd α] in
theorem ext_mem {s t : SortedSet α} (same : ∀ a, a ∈ s.toList ↔ a ∈ t.toList) : s = t :=
  ext_toList (eq_of_increasing id s.increasing t.increasing same)

@[simp] theorem ofList_toList (s : SortedSet α) : ofList s.toList = s :=
  ext_toList (foldl_eq_append (fun _ _ above => place_of_above above) s.toList empty s.increasing)

theorem mem_ofList {l : List α} {x : α} : x ∈ (ofList l).toList ↔ x ∈ l := by
  have grown : ∀ (l : List α) (s : SortedSet α),
      x ∈ (l.foldl insert s).toList ↔ x ∈ s.toList ∨ x ∈ l := by
    intro l
    induction l with
    | nil => simp
    | cons a rest ih =>
      intro s
      rw [List.foldl_cons, ih, mem_insert, List.mem_cons]
      constructor
      · rintro ((rfl | inside) | later)
        · exact .inr (.inl rfl)
        · exact .inl inside
        · exact .inr (.inr later)
      · rintro (inside | rfl | later)
        · exact .inl (.inr inside)
        · exact .inl (.inl rfl)
        · exact .inr later
  rw [ofList, grown]
  simp [empty]

end SortedSet

end StyleFlags
