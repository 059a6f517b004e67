import SchemaModel.Document.Info
import SchemaModel.Pattern.Grammar
import SchemaModel.Text.Ascii
import SchemaModel.Text.Calendar
import SchemaModel.Text.Uuid
import SchemaModel.Text.Words

/-!
The libraries of the program.
-/

namespace SchemaModel

instance Libraries.standard : Libraries where
  ascii := Text.toAscii
  pascal := Text.toPascal
  constant := Text.toConstant
  patternError? := Pattern.grammarError?
  uuid? := Text.uuid?
  isDate := Text.isDate
  isInstant := Text.isInstant
  isUrl := Url.isAbsolute
  info? := Info.read?

end SchemaModel
