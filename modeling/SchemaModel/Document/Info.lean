import SchemaModel.Document.Reader
import SchemaModel.Document.Url

/-!
Reading the header of a document. Members that it may have besides a title and a version have to be
of their form; of those the description alone is kept.
-/

namespace SchemaModel

open Json

def isUrl? (v : Json) : Option String := (str? v).filter Url.isAbsolute

/-- The address of a contact, whose other entries are checked but not kept. -/
def contact? (v : Json) : Option (Option String) := do
  let fields ← v.obj?
  let _ ← optional fields "name" str?
  let _ ← optional fields "email" str?
  optional fields "url" isUrl?

/-- The address of a licence, whose other entries are checked but not kept. -/
def license? (v : Json) : Option (Option String) := do
  let fields ← v.obj?
  let _ ← (fields.lookup "name").bind str?
  let _ ← optional fields "identifier" str?
  optional fields "url" isUrl?

/-- The header; its contact and licence entries are checked but not kept. -/
def Info.read? (v : Json) : Option Info := do
  let fields ← v.obj?
  let title ← (fields.lookup "title").bind str?
  let version ← (fields.lookup "version").bind str?
  let _ ← optional fields "summary" str?
  let description ← optional fields "description" str?
  let _ ← optional fields "termsOfService" isUrl?
  let _ ← optional fields "contact" contact?
  let _ ← optional fields "license" license?
  some ⟨title, version, description⟩

end SchemaModel
