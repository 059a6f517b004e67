import SchemaModel.Command.Invocation
import SchemaModel.Document.Format
import SchemaModel.Libraries.Standard
import SchemaModel.ModelJson
import SchemaModel.Report
import SchemaModel.Terminal.Table

/-!
Carrying out the commands. A run is what is printed and how it ends; the file that it may leave
behind is written by the caller, who also gives the texts of files and the time.
-/

namespace SchemaModel

/-- How a run ends: it is done, it has failed, or a file is left to be written, with the output
that follows when that is done. -/
inductive Ending where
  | done
  | failed (message : String)
  | write (path content output : String)
deriving DecidableEq, Repr

structure Run where
  output : String
  errors : String
  ending : Ending
deriving DecidableEq, Repr

namespace Run

def fail (message : String) : Run := ⟨"", "", .failed message⟩

def print (output : String) : Run := ⟨output, "", .done⟩

/-- Puts output in front of a run. -/
def after (output : String) (run : Run) : Run := { run with output := output ++ run.output }

end Run

def Stop.message : Stop → String
  | .failed e => e.message
  | .unfinished => "the schemas cannot be resolved"

def textOfLines (lines : List String) : String := String.join (lines.map (· ++ "\n"))

/-- A supertype or a default, or a hyphen in its place. -/
def orHyphen (text : Option String) : String := text.getD "-"

namespace TypeModel

/-- The table of all schemas. -/
def table (m : TypeModel) : List String :=
  Table.lines [.left, .left, .right, .left, .left]
    ["SCHEMA", "KIND", "PROPS", "SUPERTYPE", "SUBTYPES"]
    (m.schemaRows.map fun row =>
      [row.name, row.kind, toString row.properties, orHyphen row.supertype,
        ", ".intercalate row.subtypes])

end TypeModel

namespace SchemaDescriptor

/-- The table of the properties of a schema, none if it has no properties. -/
def table (d : SchemaDescriptor) (dialect : Dialect) : List String :=
  if d.properties.isEmpty then []
  else
    Table.lines (List.replicate 7 .left)
      ["PROPERTY", "TYPE", "KIND", "FLAGS", "MODIFIER", "DEFAULT", "ANNOTATIONS"]
      ((d.propertyRows dialect).map fun row =>
        [row.key, row.type, row.kind, row.flags, (row.modifier.map PropertyModifier.name).getD "",
          orHyphen row.default, "\n".intercalate row.checks])

/-- The lines above the table: the name and the kind, the supertype, and the discriminator. -/
def heading (d : SchemaDescriptor) (palette : Palette) : List String :=
  let line := fun (label text : String) =>
    "  " ++ palette.paint .label label ++ " " ++ palette.paint .info text
  [palette.paintBold .value d.name ++ " " ++ palette.paint .accent ("(" ++ d.kind.label ++ ")")] ++
    (d.supertype.map (line "extends")).toList ++
    (d.discriminatorSummary?.map (line "discriminator")).toList

end SchemaDescriptor

variable [Libraries]

/-- Shows all schemas of a document. -/
def listSchemas (read : String → Option String) (input : String) : Run :=
  match Document.load read input with
  | .error e => .fail e.message
  | .ok d =>
    match d.build .standard with
    | .error stop => .fail stop.message
    | .ok built => .print (textOfLines built.model.table)

/-- Shows the properties of one schema. -/
def describe (read : String → Option String) (palette : Palette) (input schema : String)
    (config : Config) : Run :=
  match Document.load read input with
  | .error e => .fail e.message
  | .ok d =>
    match d.build config with
    | .error stop => .fail stop.message
    | .ok built =>
      match built.model.get? schema with
      | none => .fail s!"Schema '{schema}' is not part of the type model"
      | some s => .print (textOfLines (s.heading palette ++ s.table config.dialect))

namespace Generation

/-- A line with the time. -/
def stamped (palette : Palette) (time : String) (purpose : Purpose) (text : String) : String :=
  palette.paint .timestamp time ++ " " ++ palette.paint purpose text ++ "\n"

def statLine (palette : Palette) (label value : String) : String :=
  "            " ++ palette.paint .label label ++ " " ++ palette.paint .value value ++ "\n"

/-- The options of the model. -/
def configLines (palette : Palette) (c : Config) : String :=
  statLine palette "Merge patch:" (toString c.mergePatch) ++
    statLine palette "Validation dialect:" c.dialect.name ++
    statLine palette "Discriminator policy:" c.policy.name

/-- The counts; the last ones are left out where they are zero. -/
def statLines (palette : Palette) (s : Stats) : String :=
  let unlessZero := fun (label : String) (n : Nat) =>
    if n = 0 then "" else statLine palette label (toString n)
  statLine palette "Schemas resolved:" (toString s.schemasResolved) ++
    statLine palette ""
      s!"{s.objects} objects ({s.supers} polymorphic supers, {s.subs} subtypes)" ++
    statLine palette "" s!"{s.enums} enums" ++
    statLine palette "" s!"{s.primitives} primitives, {s.arrays} arrays, {s.maps} maps" ++
    unlessZero "Inline schemas:" s.inlineSchemas ++ unlessZero "Aliases:" s.aliases ++
    statLine palette "Properties:" (toString s.properties) ++
    unlessZero "Warnings:" s.warnings.length

/-- The warnings to be shown: those of a loss always, the others when there is much to say. -/
def shown (verbose : Bool) (warnings : List Warning) : List Warning :=
  warnings.filter fun w => w.isLossy || verbose

def warningLine (palette : Palette) (w : Warning) : String :=
  palette.paint .accent (if w.isLossy then "Lossy:" else "Warning:") ++ " " ++
    palette.paint .primary w.text ++ "\n"

/-- Builds the model of a document for its file. -/
def run (g : Generation) (read : String → Option String) (palette : Palette) (time : String) :
    Run :=
  let say := fun (text : String) => if g.quiet then "" else text
  let step := fun (text : String) => say (stamped palette time .primary text)
  let loading := step s!"Loading OpenAPI spec from: {g.input}"
  match Document.load read g.input with
  | .error e => (Run.fail e.message).after loading
  | .ok d =>
    let building := step s!"Building type model for {d.info.title} {d.info.version}..." ++
      if g.verbose then say (configLines palette g.config) else ""
    match d.buildFile g.config g.input with
    | .error stop => (Run.fail stop.message).after (loading ++ building)
    | .ok (content, stats) =>
      let warnings := if g.quiet then [] else shown g.verbose stats.warnings
      let counts := say (statLines palette stats) ++ if warnings.isEmpty then "" else "\n"
      let writing := step s!"Writing to: {g.output}"
      let success := say ("\n" ++ stamped palette time .success "Successfully built type model")
      { output := loading ++ building ++ counts ++ writing
        errors := String.join (warnings.map (warningLine palette))
        ending := .write g.output content success }

end Generation

/-- Carries out a command. -/
def Command.run (command : Command) (read : String → Option String) (palette : Palette)
    (time : String) : Run :=
  match command with
  | listSchemas input => SchemaModel.listSchemas read input
  | describe input schema config => SchemaModel.describe read palette input schema config
  | generate (.error e) => .fail e.message
  | generate (.ok g) => g.run read palette time

/-- The colours of an invocation, on a terminal or elsewhere. -/
def Invocation.palette (i : Invocation) (onTerminal : Bool) (hints : TerminalHints) : Palette :=
  ⟨i.color.isEnabled onTerminal, i.theme.theme hints⟩

end SchemaModel
