import SchemaModel.Libraries

/-!
The header of a document: a title and a version, and entries that it may have besides, each of its
form. Of the library it is asked that the headers are what it reads, and that other members do not
count (`LawfulHeader`).
-/

namespace SchemaModel

open Json

inductive IsText : Json → Prop where
  | mk (text : String) : IsText (.str text)

/-- A member is missing, or null, or of a form. -/
def Json.Optionally (fields : List (String × Json)) (key : String) (form : Json → Prop) : Prop :=
  ∀ v, fields.lookup key = some v → v = .null ∨ form v

/-- The members that a header is read from. -/
def Info.keywords : List String :=
  ["title", "version", "summary", "description", "termsOfService", "contact", "license"]

variable [Libraries]

inductive IsUrl : Json → Prop where
  | mk {text : String} (absolute : Libraries.isUrl text) : IsUrl (.str text)

inductive ContactForm : Json → Prop where
  | mk {fields : List (String × Json)} (name : Optionally fields "name" IsText)
      (email : Optionally fields "email" IsText) (url : Optionally fields "url" IsUrl) :
      ContactForm (.obj fields)

inductive LicenseForm : Json → Prop where
  | mk {fields : List (String × Json)} {name : String}
      (named : fields.lookup "name" = some (.str name))
      (identifier : Optionally fields "identifier" IsText) (url : Optionally fields "url" IsUrl) :
      LicenseForm (.obj fields)

/-- The headers. -/
inductive InfoForm : Json → Prop where
  | mk {fields : List (String × Json)} {title version : String}
      (titled : fields.lookup "title" = some (.str title))
      (versioned : fields.lookup "version" = some (.str version))
      (summary : Optionally fields "summary" IsText)
      (description : Optionally fields "description" IsText)
      (termsOfService : Optionally fields "termsOfService" IsUrl)
      (contact : Optionally fields "contact" ContactForm)
      (license : Optionally fields "license" LicenseForm) : InfoForm (.obj fields)

/-- The headers are what is read, and members that are no keywords do not count. -/
class LawfulHeader : Prop where
  isSome_info? : ∀ v, (Libraries.info? v).isSome ↔ InfoForm v
  info?_congr : ∀ {fields others : List (String × Json)},
    (∀ key ∈ Info.keywords, fields.lookup key = others.lookup key) →
      Libraries.info? (.obj fields) = Libraries.info? (.obj others)

end SchemaModel
