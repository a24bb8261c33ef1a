/-!
# Sorted sets and tables

Names, tests and the entries of a table are always listed in increasing order,
so what is printed or hashed does not depend on the order in which things were
added. Both containers are strictly increasing lists, and carry the proof of
it: two of them are equal as soon as they hold the same things.
-/

namespace StyleFlags

/-- A finite set, listed in strictly increasing order. -/
structure SortedSet (α : Type) [Ord α] where
  toList : List α
  increasing : toList.Pairwise fun a b => compare a b = .lt
deriving DecidableEq

namespace SortedSet

variable {α : Type} [Ord α]

/-- The set with no member. -/
def empty : SortedSet α := ⟨[], .nil⟩

/-- Puts `a` at its place in an increasing list that does not hold it yet. -/
def place (a : α) : List α → List α
  | [] => [a]
  | b :: rest =>
    match compare a b with
    | .lt => a :: b :: rest
    | .eq => b :: rest
    | .gt => b :: place a rest

theorem mem_place [Std.LawfulEqOrd α] {a x : α} {l : List α} :
    x ∈ place a l ↔ x = a ∨ x ∈ l := by
  induction l with
  | nil => simp [place]
  | cons b rest ih =>
    simp only [place]
    split
    · simp
    · next same =>
      have equal : a = b := Std.LawfulEqOrd.eq_of_compare same
      subst equal
      simp
    · simp only [List.mem_cons, ih]
      constructor
      · rintro (h | h | h) <;> simp [h]
      · rintro (h | h | h) <;> simp [h]

theorem place_increasing [Std.TransOrd α] [Std.LawfulEqOrd α] (a : α) {l : List α}
    (sorted : l.Pairwise fun a b => compare a b = .lt) :
    (place a l).Pairwise fun a b => compare a b = .lt := by
  induction l with
  | nil => simp [place]
  | cons b rest ih =>
    obtain ⟨above, tail⟩ := List.pairwise_cons.mp sorted
    simp only [place]
    split
    · next before =>
      refine List.pairwise_cons.mpr ⟨fun x member => ?_, sorted⟩
      rcases List.mem_cons.mp member with rfl | member
      · exact before
      · exact Std.TransCmp.lt_trans before (above x member)
    · exact sorted
    · next after =>
      refine List.pairwise_cons.mpr ⟨fun x member => ?_, ih tail⟩
      rcases mem_place.mp member with rfl | member
      · exact Std.OrientedCmp.lt_of_gt after
      · exact above x member

/-- Adds `a`; a set that holds it stays as it is. -/
def insert [Std.TransOrd α] [Std.LawfulEqOrd α] (s : SortedSet α) (a : α) : SortedSet α :=
  ⟨place a s.toList, place_increasing a s.increasing⟩

/-- The set of the members of a list. -/
def ofList [Std.TransOrd α] [Std.LawfulEqOrd α] (l : List α) : SortedSet α :=
  l.foldl insert empty

/-- Whether `a` is a member. -/
def contains [BEq α] (s : SortedSet α) (a : α) : Bool := s.toList.contains a

/-- The number of members. -/
def size (s : SortedSet α) : Nat := s.toList.length

@[simp] theorem mem_insert [Std.TransOrd α] [Std.LawfulEqOrd α] {s : SortedSet α} {a x : α} :
    x ∈ (s.insert a).toList ↔ x = a ∨ x ∈ s.toList := mem_place

@[ext] theorem ext_toList {s t : SortedSet α} (same : s.toList = t.toList) : s = t := by
  cases s
  cases t
  simp_all

end SortedSet

/-- A set of names. -/
abbrev NameSet := SortedSet String

/-- Finitely many names with what each stands for, listed in strictly increasing order of the
names. -/
structure Table (β : Type) where
  entries : List (String × β)
  increasing : entries.Pairwise fun a b => compare a.1 b.1 = .lt
deriving DecidableEq

namespace Table

variable {β γ : Type}

/-- The table with no entry. -/
def empty : Table β := ⟨[], .nil⟩

/-- Puts an entry at its place in an increasing list, in the stead of the entry of that name. -/
def place (name : String) (value : β) : List (String × β) → List (String × β)
  | [] => [(name, value)]
  | (other, held) :: rest =>
    match compare name other with
    | .lt => (name, value) :: (other, held) :: rest
    | .eq => (name, value) :: rest
    | .gt => (other, held) :: place name value rest

theorem mem_place {name : String} {value : β} {l : List (String × β)} {e : String × β}
    (member : e ∈ place name value l) : e = (name, value) ∨ e ∈ l := by
  induction l with
  | nil => simpa [place] using member
  | cons b rest ih =>
    simp only [place] at member
    split at member
    · simpa using member
    · simp only [List.mem_cons] at member ⊢
      rcases member with h | h <;> simp [h]
    · simp only [List.mem_cons] at member ⊢
      rcases member with h | h
      · simp [h]
      · rcases ih h with h | h <;> simp [h]

theorem place_increasing (name : String) (value : β) {l : List (String × β)}
    (sorted : l.Pairwise fun a b => compare a.1 b.1 = .lt) :
    (place name value l).Pairwise fun a b => compare a.1 b.1 = .lt := by
  induction l with
  | nil => simp [place]
  | cons b rest ih =>
    obtain ⟨above, tail⟩ := List.pairwise_cons.mp sorted
    simp only [place]
    split
    · next before =>
      refine List.pairwise_cons.mpr ⟨fun x member => ?_, sorted⟩
      rcases List.mem_cons.mp member with rfl | member
      · exact before
      · exact Std.TransCmp.lt_trans before (above x member)
    · next same =>
      have equal : name = b.1 := Std.LawfulEqOrd.eq_of_compare same
      exact List.pairwise_cons.mpr ⟨fun x member => equal ▸ above x member, tail⟩
    · next after =>
      refine List.pairwise_cons.mpr ⟨fun x member => ?_, ih tail⟩
      rcases mem_place member with rfl | member
      · exact Std.OrientedCmp.lt_of_gt after
      · exact above x member

/-- Enters `value` under `name`; the later of two values for one name stays. -/
def insert (t : Table β) (name : String) (value : β) : Table β :=
  ⟨place name value t.entries, place_increasing name value t.increasing⟩

/-- The table of a list of entries, the last of each name. -/
def ofList (l : List (String × β)) : Table β :=
  l.foldl (fun t e => t.insert e.1 e.2) empty

/-- What `name` stands for. -/
def get? (t : Table β) (name : String) : Option β := t.entries.lookup name

/-- Whether `name` has an entry. -/
def contains (t : Table β) (name : String) : Bool := (t.get? name).isSome

/-- What the names stand for, in the order of the names. -/
def values (t : Table β) : List β := t.entries.map (·.2)

/-- The number of entries. -/
def size (t : Table β) : Nat := t.entries.length

/-- The same names, each with the image of what it stood for. -/
def map (f : β → γ) (t : Table β) : Table γ :=
  ⟨t.entries.map fun e => (e.1, f e.2), by
    rw [List.pairwise_map]
    exact t.increasing⟩

/-- The names for which `f` gives something, each with what it gives. -/
def filterMap (f : String → β → Option γ) (t : Table β) : Table γ :=
  ⟨t.entries.filterMap fun e => (f e.1 e.2).map (e.1, ·), by
    rw [List.pairwise_filterMap]
    refine t.increasing.imp fun {a b} before x hx y hy => ?_
    simp only [Option.map_eq_some_iff] at hx hy
    obtain ⟨_, _, rfl⟩ := hx
    obtain ⟨_, _, rfl⟩ := hy
    exact before⟩

@[ext] theorem ext_entries {s t : Table β} (same : s.entries = t.entries) : s = t := by
  cases s
  cases t
  simp_all

end Table

end StyleFlags
