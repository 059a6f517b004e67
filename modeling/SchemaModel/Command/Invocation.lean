import SchemaModel.Command.Grammar
import SchemaModel.Config
import SchemaModel.Path
import SchemaModel.Terminal.Palette

/-!
The command line of the program: its commands and their options.
-/

namespace SchemaModel

open CommandLine

/-- The model of a document is to be written to a file. What a run says it says either at length
or not at all, and it does not write over what it reads. -/
structure Generation where
  input : String
  output : String
  config : Config
  verbose : Bool
  quiet : Bool
  one_voice : (verbose && quiet) = false
  distinct : Path.same input output = false

/-- Options that exclude each other. -/
inductive OptionError where
  | verboseAndQuiet
  | outputIsInput
deriving DecidableEq, Repr

def OptionError.message : OptionError → String
  | verboseAndQuiet => "--verbose and --quiet cannot be used together"
  | outputIsInput => "Output path must differ from the input specification"

def Generation.make (input output : String) (config : Config) (verbose quiet : Bool) :
    Except OptionError Generation :=
  if voice : (verbose && quiet) = false then
    if distinct : Path.same input output = false then
      .ok ⟨input, output, config, verbose, quiet, voice, distinct⟩
    else .error .outputIsInput
  else .error .verboseAndQuiet

inductive Command where
  | listSchemas (input : String)
  | describe (input schema : String) (config : Config)
  | generate (options : Except OptionError Generation)

/-- The file that a command reads, unless its options exclude each other. -/
def Command.input? : Command → Option String
  | listSchemas input => some input
  | describe input _ _ => some input
  | generate (.ok g) => some g.input
  | generate (.error _) => none

structure Invocation where
  command : Command
  color : ColorMode
  theme : ThemeMode

namespace Invocation

def choice (name : String) (names : List String) : OptionRule :=
  ⟨name, none, some (.oneOf names), false⟩

def flag (name : String) (letter : Option Char) : OptionRule := ⟨name, letter, none, false⟩

def file (name : String) (letter : Char) : OptionRule := ⟨name, some letter, some .path, true⟩

/-- Options of every command. -/
def globalOptions : List OptionRule :=
  [choice "color" ["always", "auto", "never"], choice "theme" ["dark", "light", "auto"]]

/-- Options that change a model. -/
def modelOptions : List OptionRule :=
  [flag "merge-patch" none, choice "validation-dialect" ["javax", "jakarta"],
    flag "strict-discriminators" none]

def schemasRule : CommandRule := ⟨"schemas", false, file "input" 'i' :: globalOptions, []⟩

def describeRule : CommandRule where
  name := "describe"
  hasVersion := false
  options := [file "input" 'i', ⟨"schema", some 's', some .text, true⟩] ++ modelOptions ++
    globalOptions
  subcommands := []

def generateRule : CommandRule where
  name := "generate"
  hasVersion := false
  options := [file "input" 'i', file "output" 'o'] ++ modelOptions ++
    [flag "verbose" (some 'v'), flag "quiet" (some 'q')] ++ globalOptions
  subcommands := []

def rule : CommandRule where
  name := ""
  hasVersion := true
  options := globalOptions
  subcommands := [⟨"list", false, globalOptions, [schemasRule]⟩, generateRule, describeRule]

def config (chain : Chain) : Config where
  mergePatch := chain.has "merge-patch"
  dialect := if chain.value? "validation-dialect" = some "jakarta" then .jakarta else .javax
  policy := if chain.has "strict-discriminators" then .strict else .lenient

def command? (chain : Chain) : Option Command :=
  let input := chain.value "input" ""
  match chain.map Prod.fst with
  | [_, "list", "schemas"] => some (.listSchemas input)
  | [_, "describe"] => some (.describe input (chain.value "schema" "") (config chain))
  | [_, "generate"] => some <| .generate <|
      Generation.make input (chain.value "output" "") (config chain) (chain.has "verbose")
        (chain.has "quiet")
  | _ => none

/-- Reads the arguments behind the name of the program. -/
def parse (arguments : List String) : Except UsageError Invocation := do
  let chain ← read rule .none false arguments
  match command? chain with
  | none => .error .missingSubcommand
  | some command => .ok {
      command
      color := (ColorMode.ofName? (chain.value "color" "auto")).getD .auto
      theme := (ThemeMode.ofName? (chain.value "theme" "auto")).getD .auto }

end Invocation

end SchemaModel
