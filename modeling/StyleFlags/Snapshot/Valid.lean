import StyleFlags.Snapshot.Layout

/-!
# Valid snapshots

Bytes that were not written from a sheet can be laid out well and still make no
sense. `Snapshot.validate` looks for the first violation: counts that differ,
names or keys that occur twice, a missing base block, keys that begin
otherwise, and rules that are filed under or read an unknown property.
-/

namespace StyleFlags

/-- What makes a snapshot unusable. -/
inductive Violation where
  | propertyCount (stated held : Nat)
  | duplicateProperty
  | ruleCount (stated held : Nat)
  | blockCount (stated held : Nat)
  | noBase
  | otherBase (first base : String)
  | lacksPrefix (key keyPrefix : String)
  | duplicateKey (key : String)
  | unknownOwner (property : String)
  | misfiled (rule : Rule) (property : String)
  | unknownOperand (rule : Rule) (property : String)
  | unsorted (property : String)
  | unknownDependency (name property : String)
deriving DecidableEq, Repr

namespace Violation

def message : Violation → String
  | propertyCount stated held =>
    "metadata says " ++ toString stated ++ " properties but payload has " ++ toString held
  | duplicateProperty => "duplicate property names"
  | ruleCount stated held =>
    "metadata says " ++ toString stated ++ " rules but payload has " ++ toString held
  | blockCount stated held =>
    "metadata says " ++ toString stated ++ " blocks but payload has " ++ toString held
  | noBase => "snapshot has no base block"
  | otherBase first base => "first block '" ++ first ++ "' is not the base block '" ++ base ++ "'"
  | lacksPrefix key keyPrefix => "block key '" ++ key ++ "' lacks prefix '" ++ keyPrefix ++ "'"
  | duplicateKey key => "duplicate block key '" ++ key ++ "'"
  | unknownOwner property => "rules for unregistered property '" ++ property ++ "'"
  | misfiled rule property => "rule '" ++ rule.text ++ "' filed under property '" ++ property ++ "'"
  | unknownOperand rule property =>
    "rule '" ++ rule.text ++ "' reads unregistered property '" ++ property ++ "'"
  | unsorted property => "dependency list of '" ++ property ++ "' is not sorted"
  | unknownDependency name property =>
    "dependency '" ++ name ++ "' of '" ++ property ++ "' is not registered"

end Violation

namespace Snapshot

/-- Refuses what does not hold. -/
def require (holds : Bool) (violation : Violation) : Except Violation Unit :=
  if holds then .ok () else .error violation

/-- Requires that something holds of every item, from the first on. -/
def requireAll {α : Type} (check : α → Except Violation Unit) : List α → Except Violation Unit
  | [] => .ok ()
  | item :: rest => do
    check item
    requireAll check rest

/-- Requires that the first block is the base block. -/
def checkBase (baseKey : String) : List Block → Except Violation Unit
  | [] => .error .noBase
  | first :: _ => require (first.key == baseKey) (.otherBase first.key baseKey)

/-- Requires that keys begin as they should and differ from each other and from those in `seen`. -/
def checkKeys (keyPrefix : String) (seen : List String) : List Block → Except Violation Unit
  | [] => .ok ()
  | block :: rest => do
    require (keyPrefix.toList.isPrefixOf block.key.toList) (.lacksPrefix block.key keyPrefix)
    require (!seen.contains block.key) (.duplicateKey block.key)
    checkKeys keyPrefix (block.key :: seen) rest

/-- Requires that a rule belongs to the property and reads a known one. -/
def checkRule (known : List String) (property : String) (rule : Rule) : Except Violation Unit := do
  require (rule.property == property) (.misfiled rule property)
  match rule.dependency? with
  | none => return
  | some other => require (known.contains other) (.unknownOperand rule other)

/-- Requires that a property is known, and all of its rules are in order. -/
def checkRules (known : List String) (property : String) (rules : List Rule) :
    Except Violation Unit := do
  require (known.contains property) (.unknownOwner property)
  requireAll (checkRule known property) rules

/-- Requires that dependent rules are in order, and that the properties they read are listed in
increasing order and known. -/
def checkDependents (known : List String) (property : String) (d : Dependents) :
    Except Violation Unit := do
  checkRules known property d.rules
  require (decide (d.properties.Pairwise (· < ·))) (.unsorted property)
  requireAll (fun name => require (known.contains name) (.unknownDependency name property))
    d.properties

/-- The first violation of a snapshot, if there is one. -/
def validate (s : Snapshot) : Except Violation Unit := do
  require (s.propertyCount == s.properties.length)
    (.propertyCount s.propertyCount s.properties.length)
  require (decide s.properties.Nodup) .duplicateProperty
  let held := s.rules.values.foldl (fun n rules => n + rules.length) 0
  require (s.ruleCount == held) (.ruleCount s.ruleCount held)
  require (s.blockCount == s.blocks.length) (.blockCount s.blockCount s.blocks.length)
  checkBase s.baseKey s.blocks
  checkKeys s.options.keyPrefix [] s.blocks
  requireAll (fun (property, rules) => checkRules s.properties property rules) s.rules.entries
  requireAll (fun (property, d) => checkDependents s.properties property d) s.dependents.entries

end Snapshot

end StyleFlags
