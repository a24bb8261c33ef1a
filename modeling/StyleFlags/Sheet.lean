import StyleFlags.Key
import StyleFlags.Registry
import StyleFlags.Rule

/-!
# Sheets

A sheet is a registry turned into rules, with the blocks of declarations
generated so far. The base block comes first and declares every prepared value
and the default of every flag. Serializing a bag yields the keys of the blocks
that apply to it and generates those that are missing; which keys these are,
and what their blocks declare, depends on the rules and the bag alone
(`Sheet.requests`).
-/

namespace StyleFlags

/-- Declarations under a key. -/
structure Block where
  key : String
  declarations : String
deriving DecidableEq, Repr

def Block.text (b : Block) : String := "." ++ b.key ++ " \x7b" ++ b.declarations ++ "\x7d"

/-- The rules of a property that read other properties too, and all properties that they read. -/
structure Dependents where
  properties : List String
  rules : List Rule
deriving DecidableEq, Repr

/-- Rules with the blocks generated from them so far. -/
structure Sheet where
  name : String
  options : Options
  properties : NameSet
  rules : Table (List Rule)
  dependents : Table Dependents
  baseKey : String
  blocks : List Block
  /-- The number of blocks that have been handed out by `flush`. -/
  flushed : Nat
deriving DecidableEq

namespace Sheet

/-! ## From a registry -/

/-- The rules of a property that read no other property. -/
def independentRules (property : String) (tests : SortedSet Test) : List Rule :=
  (Rule.ofTests property [] tests.toList).filter (·.dependency?.isNone)

/-- The rules of a property that read another property. -/
def dependentRules (property : String) (tests : SortedSet Test) : List Rule :=
  (Rule.ofTests property [] tests.toList).filter (·.dependency?.isSome)

/-- The properties that some rules of a property read. -/
def readBy (property : String) (rules : List Rule) : NameSet :=
  (SortedSet.ofList (rules.filterMap Rule.dependency?)).insert property

/-- What the base block declares. -/
def baseDeclarations (options : Options) (prepared : Table String) (rules : Table (List Rule))
    (dependents : Table Dependents) : List Declaration :=
  (prepared.entries.map fun (name, value) => ⟨name, value⟩) ++
    (rules.values.flatMap fun rules => rules.flatMap (Rule.defaults options)) ++
    (dependents.values.flatMap fun d => d.rules.flatMap (Rule.defaults options))

/-- The sheet of a registry, with its base block only. -/
def ofRegistry (r : Registry) : Sheet :=
  let rules := r.tests.filterMap fun property tests =>
    let rules := independentRules property tests
    if rules.isEmpty then none else some rules
  let dependents := r.tests.filterMap fun property tests =>
    let rules := dependentRules property tests
    if rules.isEmpty then none else some ⟨(readBy property rules).toList, rules⟩
  let base := declarationsText (baseDeclarations r.options r.prepared rules dependents)
  let baseKey := Key.ofInput r.options.keyPrefix (Key.contentInput base)
  { name := r.name
    options := r.options
    properties := r.properties
    rules := rules
    dependents := dependents
    baseKey := baseKey
    blocks := [⟨baseKey, base⟩]
    flushed := 0 }

/-! ## Serializing bags -/

/-- Whether a key stands for one value, or for the values that dependent rules read. -/
inductive RequestKind where
  | value
  | dependency
deriving DecidableEq, Repr

/-- A block that a bag asks for. -/
structure Request where
  kind : RequestKind
  block : Block
deriving DecidableEq, Repr

/-- The block of some rules on a bag, under the key made from `input`. -/
def request (s : Sheet) (kind : RequestKind) (input : List UInt8) (rules : List Rule) (bag : Bag) :
    Request :=
  ⟨kind, Key.ofInput s.options.keyPrefix input,
    declarationsText (rules.flatMap (Rule.declarations s.options bag))⟩

/-- The blocks that one property of a bag asks for. -/
def propertyRequests (s : Sheet) (bag : Bag) (property : String) (value : Value) : List Request :=
  ((s.rules.get? property).toList.map fun rules =>
      s.request .value (Key.valueInput property value) rules bag) ++
    ((s.dependents.get? property).toList.map fun d =>
      s.request .dependency (Key.dependencyInput d.properties bag) d.rules bag)

/-- The blocks that a bag asks for: those of each property, in the order of names. -/
def requests (s : Sheet) (bag : Bag) : List Request :=
  bag.normalized.entries.flatMap fun (property, value) =>
    s.propertyRequests bag.normalized property value

/-- Adds a block, unless its key has one. -/
def store (blocks : List Block) (block : Block) : List Block :=
  if blocks.any (·.key == block.key) then blocks else blocks ++ [block]

/-- The keys of the blocks that apply to a bag. -/
structure Selection where
  values : List String
  dependencies : List String
deriving DecidableEq, Repr

/-- The keys of single values, with spaces between them. -/
def Selection.matched (s : Selection) : String := " ".intercalate s.values

/-- The keys of some requests. -/
def select (requests : List Request) : Selection :=
  let keys (kind : RequestKind) := (requests.filter (·.kind == kind)).map (·.block.key)
  ⟨keys .value, keys .dependency⟩

/-- The first property of a bag that no fact reads. -/
def unregistered? (s : Sheet) (bag : Bag) : Option String :=
  (bag.entries.map (·.1)).find? fun property => !s.properties.contains property

/-- The keys of the blocks that apply to a bag, and the sheet with all of these blocks. A bag with a
property that no fact reads is refused, and then nothing changes. -/
def serialize (s : Sheet) (bag : Bag) : Except CompileError Selection × Sheet :=
  match s.unregistered? bag with
  | some property => (.error (.unregistered s.name property), s)
  | none =>
    let requests := s.requests bag
    (.ok (select requests),
      { s with blocks := (requests.map (·.block)).foldl store s.blocks })

/-! ## Blocks -/

/-- The place of the block of a key. -/
def index? (s : Sheet) (key : String) : Option Nat := s.blocks.findIdx? (·.key == key)

/-- The block of a key. -/
def block? (s : Sheet) (key : String) : Option Block := s.blocks.find? (·.key == key)

/-- The base block. -/
def base? (s : Sheet) : Option Block := s.blocks.head?

/-- The blocks since the last flush, and the sheet after it. -/
def flush (s : Sheet) : List Block × Sheet :=
  (s.blocks.drop s.flushed, { s with flushed := s.blocks.length })

/-- The number of rules that read one property only. -/
def ruleCount (s : Sheet) : Nat := s.rules.values.foldl (fun n rules => n + rules.length) 0

def text (s : Sheet) : String :=
  "CompiledScheme(" ++ s.name ++ ": " ++ toString s.properties.size ++ " properties, " ++
    toString s.ruleCount ++ " rules, " ++ toString s.blocks.length ++ " blocks)"

end Sheet

end StyleFlags
