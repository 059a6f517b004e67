/-!
Why no model can be built from a document, and the text that says so.
-/

namespace SchemaModel

/-- Why a reference leads nowhere: its target is missing, it leaves the component schemas, or it
returns to a schema on the way. -/
inductive RefFailure where
  | dangling
  | external
  | cycle (chain : List String)
deriving DecidableEq, Repr

def RefFailure.text : RefFailure → String
  | dangling => "target does not exist"
  | external => "only #/components/schemas references are supported"
  | cycle chain => "cycle " ++ " -> ".intercalate chain

inductive ModelError where
  | unresolvable (schema reference : String) (reason : RefFailure)
  | conflictingType (schema property existing incoming : String)
  | missingDiscriminator (schema subtype property : String)
  | unknownEnumDefault (schema property enumType value : String)
  | noDiscriminatorValue (schema property : String)
  | severalDiscriminatorValues (schema property : String) (values : List String)
  | cyclicInheritance (cycle : List String)
  | ambiguousSupertype (schema : String) (supertypes : List String)
  | incompatibleDefault (schema property expected value : String)
deriving DecidableEq, Repr

namespace ModelError

/-- The schema that an error is reported against. -/
def schema : ModelError → String
  | unresolvable schema _ _ => schema
  | conflictingType schema _ _ _ => schema
  | missingDiscriminator schema _ _ => schema
  | unknownEnumDefault schema _ _ _ => schema
  | noDiscriminatorValue schema _ => schema
  | severalDiscriminatorValues schema _ _ => schema
  | cyclicInheritance cycle => cycle.headD ""
  | ambiguousSupertype schema _ => schema
  | incompatibleDefault schema _ _ _ => schema

def message : ModelError → String
  | unresolvable schema reference reason =>
    s!"schema '{schema}': cannot resolve '{reference}': {reason.text}"
  | conflictingType schema property existing incoming =>
    s!"schema '{schema}': property '{property}' is declared as both {existing} and {incoming}"
  | missingDiscriminator schema subtype property =>
    s!"schema '{schema}': discriminator property '{property}' is not declared on it or on " ++
      s!"subtype '{subtype}'"
  | unknownEnumDefault schema property enumType value =>
    s!"schema '{schema}': default {value} of property '{property}' is not a member of enum " ++
      s!"'{enumType}'"
  | noDiscriminatorValue schema property =>
    s!"schema '{schema}': no discriminator value for '{property}' maps to this subtype"
  | severalDiscriminatorValues schema property values =>
    s!"schema '{schema}': discriminator '{property}' maps several values to this subtype: " ++
      ", ".intercalate values
  | cyclicInheritance cycle => "inheritance cycle between schemas " ++ " -> ".intercalate cycle
  | ambiguousSupertype schema supertypes =>
    s!"schema '{schema}' is a subtype of several polymorphic schemas: " ++
      ", ".intercalate supertypes
  | incompatibleDefault schema property expected value =>
    s!"schema '{schema}': default {value} of property '{property}' does not fit type {expected}"

end ModelError

end SchemaModel
