import SchemaModel.Build

/-!
The rows of the two tables that show a model: one for each schema, one for each property of a
schema.
-/

namespace SchemaModel

structure SchemaRow where
  name : String
  kind : String
  properties : Nat
  supertype : Option String
  subtypes : List String
deriving DecidableEq, Repr

structure PropertyRow where
  key : String
  type : String
  kind : String
  flags : String
  modifier : Option PropertyModifier
  default : Option String
  checks : List String
deriving DecidableEq, Repr

namespace SchemaDescriptor

def row (d : SchemaDescriptor) : SchemaRow :=
  ⟨d.name, d.kind.label, d.properties.length, d.supertype, d.subtypes.keys⟩

end SchemaDescriptor

namespace PropertyDescriptor

/-- `R` for required, `N` for nullable, `M` for mandatory. -/
def flags (p : PropertyDescriptor) : String :=
  String.ofList (([(p.isRequired, 'R'), (p.isNullable, 'N'), (p.mandatory, 'M')].filter
    Prod.fst).map Prod.snd)

def row (dialect : Dialect) (p : PropertyDescriptor) : PropertyRow where
  key := p.key
  type := p.type.text
  kind := p.kind.label
  flags := p.flags
  modifier := if p.modifier = .final then none else some p.modifier
  default := p.default.map DefaultValue.text
  checks := p.checks.map fun c => c.text dialect

end PropertyDescriptor

namespace TypeModel

def schemaRows (m : TypeModel) : List SchemaRow := m.schemas.values.map SchemaDescriptor.row

end TypeModel

def SchemaDescriptor.propertyRows (d : SchemaDescriptor) (dialect : Dialect) :
    List PropertyRow :=
  d.properties.map (PropertyDescriptor.row dialect)

/-- The discriminator of a supertype with the values that select each of its subtypes. -/
def SchemaDescriptor.discriminatorSummary? (d : SchemaDescriptor) : Option String :=
  d.discriminator?.map fun x =>
    let subtypes := x.subtypeKeys.toList.map fun e =>
      "|".intercalate (e.2.map DiscriminatorKey.value) ++ "=" ++ e.1
    x.property ++ " [" ++ ", ".intercalate subtypes ++ "]"

end SchemaModel
