import StyleFlags.Expansion
import StyleFlags.Ordered

/-!
# Registries

A registry gathers what the directives of several sources need: facts, the
properties they read, and prepared values. It is the same whatever the order in
which the facts come, and however often.
-/

namespace StyleFlags

/-- What the directives of a named scope need. -/
structure Registry where
  name : String
  options : Options
  properties : NameSet := .empty
  tests : Table (SortedSet Test) := .empty
  prepared : Table String := .empty
deriving DecidableEq

namespace Registry

/-- Adds a fact, with the properties that it reads. -/
def addFact (r : Registry) (f : Fact) : Registry :=
  let known := match f.dependency? with
    | some other => r.properties.insert other
    | none => r.properties
  let tests := (r.tests.get? f.property).getD .empty
  { r with
    properties := known.insert f.property
    tests := r.tests.insert f.property (tests.insert f.test) }

/-- Adds a prepared value; the later of two for one name stays. -/
def addPrepared (r : Registry) (name value : String) : Registry :=
  { r with prepared := r.prepared.insert name value }

def addNeed (r : Registry) : Need → Registry
  | .fact f => r.addFact f
  | .prepared name value => r.addPrepared name value

/-- Adds all that a directive needs. -/
def addDirective (r : Registry) (d : Directive) : Registry :=
  (d.needs r.options).foldl addNeed r

/-- Expands a source, and adds what its directives need. After an error, the directives before it
are added. -/
def expand (r : Registry) (source : String) : Except CompileError String × Registry :=
  let expansion := Directive.expand source
  (expansion.result, expansion.directives.foldl addDirective r)

/-- The facts, by property and then by test. -/
def facts (r : Registry) : List Fact :=
  r.tests.entries.flatMap fun (property, tests) => tests.toList.map (⟨property, ·⟩)

/-- Whether a fact was added. -/
def hasFact (r : Registry) (f : Fact) : Bool :=
  (r.tests.get? f.property).any fun tests => tests.contains f.test

end Registry

end StyleFlags
