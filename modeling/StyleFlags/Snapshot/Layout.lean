import StyleFlags.Sheet
import StyleFlags.Snapshot.Codec

/-!
# The layout of snapshots

The data of a sheet as it stands in a snapshot, field by field, with the counts
that a reader can check it against.
-/

namespace StyleFlags

/-- The data of a sheet, and the numbers of its properties, rules and blocks. -/
structure Snapshot where
  propertyCount : Nat
  ruleCount : Nat
  blockCount : Nat
  name : String
  options : Options
  properties : List String
  rules : Table (List Rule)
  dependents : Table Dependents
  baseKey : String
  blocks : List Block
deriving DecidableEq

namespace Snapshot

/-- The snapshot of a sheet. -/
def ofSheet (s : Sheet) : Snapshot where
  propertyCount := s.properties.size
  ruleCount := s.ruleCount
  blockCount := s.blocks.length
  name := s.name
  options := s.options
  properties := s.properties.toList
  rules := s.rules
  dependents := s.dependents
  baseKey := s.baseKey
  blocks := s.blocks

/-- The sheet of a snapshot. All its blocks count as flushed. -/
def toSheet (s : Snapshot) : Sheet where
  name := s.name
  options := s.options
  properties := SortedSet.ofList s.properties
  rules := s.rules
  dependents := s.dependents
  baseKey := s.baseKey
  blocks := s.blocks
  flushed := s.blocks.length

end Snapshot

namespace Codec

def comparison : Codec Comparison := choice [.eq, .ne, .gt, .ge, .lt, .le] Comparison.rank

def literalKind : Codec LiteralKind :=
  choice [.number, .boolean, .null, .string, .typeName] LiteralKind.rank

def literal : Codec Literal :=
  (pair literalKind string).map (fun (kind, text) => ⟨kind, text⟩) fun l => (l.kind, l.text)

def operand : Codec Operand where
  encode
    | .literal l => tag.encode 0 ++ literal.encode l
    | .property name negated => tag.encode 1 ++ (pair string bool).encode (name, negated)
  decode bytes := do
    let (n, rest) ← tag.decode bytes
    match n with
    | 0 =>
      let (l, rest) ← literal.decode rest
      return (.literal l, rest)
    | 1 =>
      let ((name, negated), rest) ← (pair string bool).decode rest
      return (.property name negated, rest)
    | _ => none

/-- A property and its flag. -/
def single : Codec (String × String) := pair string string

/-- A property, an operand, and two flags. -/
def equality : Codec (String × Operand × String × String) :=
  pair string (pair operand (pair string string))

/-- A property, the name of a type, and two flags. -/
def typed : Codec (String × String × String × String) :=
  pair string (pair string (pair string string))

/-- A property, a comparison with its operand, and a flag. -/
def relational : Codec (String × Comparison × Operand × String) :=
  pair string (pair comparison (pair operand string))

def rule : Codec Rule where
  encode
    | .truthy property flag => tag.encode 0 ++ single.encode (property, flag)
    | .falsy property flag => tag.encode 1 ++ single.encode (property, flag)
    | .equality property operand positive complement =>
      tag.encode 2 ++ equality.encode (property, operand, positive, complement)
    | .typeOf property typeName positive complement =>
      tag.encode 3 ++ typed.encode (property, typeName, positive, complement)
    | .relational property op operand flag =>
      tag.encode 4 ++ relational.encode (property, op, operand, flag)
  decode bytes := do
    let (n, rest) ← tag.decode bytes
    match n with
    | 0 =>
      let ((property, flag), rest) ← single.decode rest
      return (.truthy property flag, rest)
    | 1 =>
      let ((property, flag), rest) ← single.decode rest
      return (.falsy property flag, rest)
    | 2 =>
      let ((property, operand, positive, complement), rest) ← equality.decode rest
      return (.equality property operand positive complement, rest)
    | 3 =>
      let ((property, typeName, positive, complement), rest) ← typed.decode rest
      return (.typeOf property typeName positive complement, rest)
    | 4 =>
      let ((property, op, operand, flag), rest) ← relational.decode rest
      return (.relational property op operand flag, rest)
    | _ => none

def options : Codec Options :=
  (pair string (pair string string)).map (fun (on, off, keyPrefix) => ⟨on, off, keyPrefix⟩)
    fun o => (o.on, o.off, o.keyPrefix)

def dependents : Codec Dependents :=
  (pair (list string) (list rule)).map (fun (properties, rules) => ⟨properties, rules⟩)
    fun d => (d.properties, d.rules)

def block : Codec Block :=
  (pair string string).map (fun (key, declarations) => ⟨key, declarations⟩)
    fun b => (b.key, b.declarations)

/-- The data of a snapshot, all fields in order. -/
def snapshot : Codec Snapshot :=
  (pair (pair nat (pair nat nat))
    (pair string (pair options (pair (list string) (pair (table (list rule))
      (pair (table dependents) (pair string (list block)))))))).map
    (fun ((properties, rules, blocks), name, options, names, ruleTable, dependentTable, baseKey,
        blockList) =>
      ⟨properties, rules, blocks, name, options, names, ruleTable, dependentTable, baseKey,
        blockList⟩)
    fun s =>
      ((s.propertyCount, s.ruleCount, s.blockCount), s.name, s.options, s.properties, s.rules,
        s.dependents, s.baseKey, s.blocks)

end Codec

end StyleFlags
