/-!
Reading command lines by rules. A command has options and subcommands; an option is a flag or
takes a value. A value is looked at only when the next option begins or the line ends, so a fault
in a later command is found before a fault in the value just before it.
-/

namespace SchemaModel.CommandLine

/-- The values that an option admits. -/
inductive ValueRule where
  | text
  | path
  | oneOf (names : List String)
deriving DecidableEq, Repr

def ValueRule.admits (value : String) : ValueRule → Bool
  | text => true
  | path => !value.isEmpty
  | oneOf names => names.contains value

/-- An option with two hyphens and its name, or one hyphen and its letter. A flag has no rule for
a value. -/
structure OptionRule where
  name : String
  letter : Option Char
  value : Option ValueRule
  required : Bool
deriving DecidableEq, Repr

structure CommandRule where
  name : String
  hasVersion : Bool
  options : List OptionRule
  subcommands : List CommandRule
deriving Repr

namespace CommandRule

def option? (rule : CommandRule) (name : String) : Option OptionRule :=
  rule.options.find? (·.name = name)

def optionByLetter? (rule : CommandRule) (letter : Char) : Option OptionRule :=
  rule.options.find? (·.letter = some letter)

def subcommand? (rule : CommandRule) (name : String) : Option CommandRule :=
  rule.subcommands.find? (·.name = name)

def hasSubcommands (rule : CommandRule) : Bool := !rule.subcommands.isEmpty

/-- Commands with subcommands have one more, which shows their help. -/
def hasName (rule : CommandRule) (name : String) : Bool :=
  (rule.subcommand? name).isSome || (rule.hasSubcommands && name = "help")

end CommandRule

/-- Why a command line is not carried out. Asking for help or for the version is no fault. -/
inductive UsageError where
  | helpWanted
  | versionWanted
  | nothingGiven
  | missingSubcommand
  | unknownSubcommand
  | unknownArgument
  | missingArgument
  | invalidValue
  | repeatedArgument
  | unwantedValue
deriving DecidableEq, Repr

namespace UsageError

def exitCode : UsageError → Nat
  | helpWanted => 0
  | versionWanted => 0
  | _ => 2

def message : UsageError → String
  | helpWanted => "commands: list schemas, describe, generate"
  | versionWanted => "version 1.0"
  | nothingGiven => "commands: list schemas, describe, generate"
  | missingSubcommand => "a subcommand is missing"
  | unknownSubcommand => "there is no such subcommand"
  | unknownArgument => "there is no such argument"
  | missingArgument => "an argument is missing"
  | invalidValue => "a value is missing or not admitted"
  | repeatedArgument => "an argument is given twice"
  | unwantedValue => "a flag takes no value"

end UsageError

/-- The options given to a command so far, with the empty text for a flag, and the last option
that takes a value, with its value once it has been seen. -/
structure Given where
  options : List (String × String)
  pending : Option (OptionRule × Option String)
deriving DecidableEq, Repr

namespace Given

def none : Given := ⟨[], Option.none⟩

/-- The option whose value comes next. -/
def awaiting? (given : Given) : Option OptionRule :=
  match given.pending with
  | some (rule, Option.none) => some rule
  | _ => Option.none

/-- Takes an option in. It may be given once, and its value has to be admitted. -/
def add (given : Given) (rule : OptionRule) (value : String) : Except UsageError Given :=
  if (given.options.lookup rule.name).isSome then .error .repeatedArgument
  else if !rule.value.all (·.admits value) then .error .invalidValue
  else .ok { given with options := given.options ++ [(rule.name, value)] }

/-- Takes the last option in, which must have its value. -/
def settle (given : Given) : Except UsageError Given :=
  match given.pending with
  | Option.none => .ok given
  | some (_, Option.none) => .error .invalidValue
  | some (rule, some value) => ({ given with pending := Option.none }).add rule value

/-- Leaves off with the options before this place to end in `error`. -/
def stop (given : Given) (error : UsageError) : Except UsageError Given := do
  let _ ← given.settle
  .error error

/-- An option together with its value, or a flag. -/
def complete (given : Given) (rule : OptionRule) (value : String) : Except UsageError Given := do
  let given ← given.settle
  given.add rule value

def await (given : Given) (rule : OptionRule) : Except UsageError Given := do
  let given ← given.settle
  .ok { given with pending := some (rule, Option.none) }

end Given

/-- An option by its name, behind the two hyphens. The value may follow an equals sign. -/
def longOption (rule : CommandRule) (given : Given) (body : List Char) :
    Except UsageError Given :=
  let name := String.ofList (body.takeWhile (· ≠ '='))
  let value := match body.dropWhile (· ≠ '=') with
    | [] => none
    | _ :: value => some (String.ofList value)
  let special := name = "help" || (name = "version" && rule.hasVersion)
  if special && value.isSome then .error .unwantedValue
  else if special then given.stop (if name = "help" then .helpWanted else .versionWanted)
  else match rule.option? name with
    | none => .error .unknownArgument
    | some option =>
      match option.value, value with
      | none, none => given.complete option ""
      | none, some _ => .error .unwantedValue
      | some _, some value => given.complete option value
      | some _, none => given.await option

/-- Options by their letters, behind one hyphen. What follows the letter of an option with a
value is that value, and an equals sign between them is left out. -/
def letterOptions (rule : CommandRule) (given : Given) : List Char → Except UsageError Given
  | [] => .ok given
  | c :: rest =>
    if c = 'h' then given.stop .helpWanted
    else if c = 'V' && rule.hasVersion then given.stop .versionWanted
    else match rule.optionByLetter? c with
      | none => .error .unknownArgument
      | some option =>
        match option.value, rest with
        | none, rest => do
          let given ← given.complete option ""
          letterOptions rule given rest
        | some _, [] => given.await option
        | some _, '=' :: value => given.complete option (String.ofList value)
        | some _, value => given.complete option (String.ofList value)

/-- What it means to ask for the help of the subcommands named. -/
def helpOf (rule : CommandRule) : List String → UsageError
  | [] => .helpWanted
  | name :: rest =>
    match rule.subcommand? name with
    | some inner => helpOf inner rest
    | none =>
      if rule.hasSubcommands && name = "help" && rest.isEmpty then .helpWanted
      else .unknownSubcommand

/-- The fault of an argument that is neither an option nor a subcommand. -/
def misplaced (rule : CommandRule) (behindMark : Bool) (argument : String) : UsageError :=
  if behindMark && rule.hasName argument then .unknownArgument
  else if rule.hasSubcommands then .unknownSubcommand
  else .unknownArgument

/-- The options of a command without a subcommand behind it. -/
def finish (rule : CommandRule) (given : Given) :
    Except UsageError (List (String × String)) := do
  let given ← given.settle
  if rule.hasSubcommands then
    .error (if given.options.isEmpty then .nothingGiven else .missingSubcommand)
  else if rule.options.all fun option =>
      !option.required || (given.options.lookup option.name).isSome then
    .ok given.options
  else .error .missingArgument

/-- The commands of a line from the outermost to the innermost, with their options. -/
abbrev Chain := List (String × List (String × String))

/-- Reads the arguments of a command. Behind two hyphens alone nothing is an option. -/
def read (rule : CommandRule) (given : Given) : (behindMark : Bool) → List String →
    Except UsageError Chain
  | _, [] => do
    let options ← finish rule given
    .ok [(rule.name, options)]
  | true, argument :: _ => .error (misplaced rule true argument)
  | false, argument :: rest =>
    match given.awaiting?, rule.subcommand? argument with
    | none, some inner => do
      let chain ← read inner .none false rest
      let given ← given.settle
      .ok ((rule.name, given.options) :: chain)
    | awaiting, _ =>
      if awaiting.isNone && rule.hasName argument then .error (helpOf rule rest)
      else match argument.toList, awaiting with
        | ['-', '-'], _ => read rule given true rest
        | '-' :: '-' :: body, _ => do
          let given ← longOption rule given body
          read rule given false rest
        | '-' :: c :: letters, _ => do
          let given ← letterOptions rule given (c :: letters)
          read rule given false rest
        | _, some option =>
          read rule { given with pending := some (option, some argument) } false rest
        | _, none => .error (misplaced rule false argument)

namespace Chain

/-- The value of an option; the innermost command that has it counts. -/
def value? (chain : Chain) (name : String) : Option String :=
  chain.reverse.findSome? (·.2.lookup name)

def value (chain : Chain) (name standard : String) : String := (chain.value? name).getD standard

def has (chain : Chain) (name : String) : Bool := (chain.value? name).isSome

end Chain

end SchemaModel.CommandLine
