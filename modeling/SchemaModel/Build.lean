import SchemaModel.Classify
import SchemaModel.Hierarchy.Analysis
import SchemaModel.Stats

/-!
Building the model of a document: resolve its schemas, find their hierarchy, classify their
properties. The first error ends the build, and there is no partial model.
-/

namespace SchemaModel

variable [Libraries]

/-- A model and the count of what it holds. -/
structure Built where
  model : TypeModel
  stats : Stats

namespace Classifier

def kindOf (c : Classifier) (s : Resolved) : SchemaKind :=
  match s.shape with
  | .primitive type => .primitive type
  | .enum e => .enum e
  | .array items => .arrayOf items
  | .map values => .mapOf values
  | .object _ =>
    match c.hierarchy.discrimination? s.name with
    | some d => .objectSuper d.descriptor
    | none => if (c.hierarchy.parent? s.name).isSome then .objectSub else .objectSingle

def descriptor (c : Classifier) (s : Resolved) : Traced SchemaDescriptor := do
  let properties ← c.classify s.name
  return {
    name := s.name
    pointer := s.pointer.text
    kind := c.kindOf s
    properties
    supertype := c.hierarchy.parent? s.name
    subtypes := c.hierarchy.childrenOf s.name
    description := s.description
    inline := s.inline }

end Classifier

namespace Graph

/-- The model of a graph, its schemas in name order. -/
def build (g : Graph) (config : Config) : Except ModelError Built := do
  let hierarchy ← g.hierarchy
  let c : Classifier := ⟨g, hierarchy, config⟩
  let described := g.schemas.values.mapM c.descriptor
  let descriptors ← described.outcome
  let stats := (descriptors.foldl Stats.countDescriptor .empty).countAliases g.aliases.size
  return {
    model := ⟨NameMap.ofList (descriptors.map fun d => (d.name, d)), g.aliases⟩
    stats := stats.addWarnings (g.warnings ++ described.warnings) }

end Graph

namespace Document

/-- Builds the model of the schemas reached from the named components. -/
def buildInOrder (d : Document) (config : Config) (order : List String) : Except Stop Built := do
  let g ← d.resolve order
  Stop.ofExcept (g.build config)

def build (d : Document) (config : Config) : Except Stop Built := d.buildInOrder config d.names

end Document

end SchemaModel
