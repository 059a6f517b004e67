import SchemaModel.Document.Reader
import SchemaModel.Json.Parser
import SchemaModel.Path
import SchemaModel.Yaml.Value

/-!
Document texts: their formats, and reading a document from a text.
-/

namespace SchemaModel

inductive Format where
  | json
  | yaml
deriving DecidableEq, Repr

namespace Format

def name : Format → String
  | json => "json"
  | yaml => "yaml"

/-- Any extension but the two of YAML means JSON. -/
def ofExtension (extension : String) : Format :=
  if extension = "yaml" || extension = "yml" then yaml else json

def ofPath (path : String) : Format :=
  match Path.extension? path with
  | some extension => ofExtension extension
  | none => json

end Format

namespace Document

def valueOfText (text : String) : Format → Except DocumentError Json
  | .json =>
    match Json.parse? text with
    | some v => .ok v
    | none => .error .notJson
  | .yaml =>
    match Yaml.Value.parse? text with
    | none => .error .notYaml
    | some v =>
      match v.toJson? with
      | some v => .ok v
      | none => .error .noJsonForm

variable [Libraries]

def parse (text : String) (format : Format) : Except DocumentError Document := do
  let v ← valueOfText text format
  read v

/-- Why the document of a file cannot be had. -/
inductive LoadError where
  | unreadable (path : String)
  | invalid (error : DocumentError)

def LoadError.message : LoadError → String
  | unreadable path => s!"failed to open {path}"
  | invalid error => error.message

/-- The document of a file, whose format follows from its path. -/
def load (read : String → Option String) (path : String) : Except LoadError Document :=
  match read path with
  | none => .error (.unreadable path)
  | some text =>
    match parse text (.ofPath path) with
    | .ok d => .ok d
    | .error e => .error (.invalid e)

end Document

end SchemaModel
