import SchemaModel.Command.Run
import Std.Time.Zoned

/-!
The program: it reads the file that a command names, carries the command out, and prints and
writes what comes of it.
-/

namespace SchemaModel.Program

def readText? (path : String) : IO (Option String) := do
  try
    let bytes ← IO.FS.readBinFile path
    return String.fromUTF8? bytes
  catch _ => return none

def twoDigits (n : Nat) : String := if n < 10 then s!"0{n}" else toString n

/-- The time of day in brackets. -/
def clock : IO String := do
  let time ← Std.Time.PlainTime.now
  let parts := [time.hour.toNat, time.minute.toNat, time.second.toNat].map twoDigits
  return "[" ++ ":".intercalate parts ++ "]"

def hints : IO TerminalHints := do
  return ⟨← IO.getEnv "COLORFGBG", ← IO.getEnv "TERM_PROGRAM", ← IO.getEnv "ITERM_PROFILE"⟩

/-- Writes a file and the directories on the way to it. -/
def writeText (path content : String) : IO Unit := do
  let folders := Path.parent path
  if !folders.isEmpty then IO.FS.createDirAll ("/".intercalate folders)
  IO.FS.writeFile path content

def carryOut (i : Invocation) : IO UInt32 := do
  let text ← match i.command.input? with
    | some path => readText? path
    | none => pure none
  let palette := i.palette (← (← IO.getStdout).isTty) (← hints)
  let run := i.command.run (fun _ => text) palette (← clock)
  IO.print run.output
  IO.eprint run.errors
  match run.ending with
  | .done => return 0
  | .failed message =>
    IO.eprintln s!"Error: {message}"
    return 1
  | .write path content output =>
    try
      writeText path content
      IO.print output
      return 0
    catch e =>
      IO.eprintln s!"Error: {e}"
      return 1

end SchemaModel.Program

def main (arguments : List String) : IO UInt32 :=
  match SchemaModel.Invocation.parse arguments with
  | .error e => do
    IO.eprintln e.message
    return e.exitCode.toUInt32
  | .ok i => SchemaModel.Program.carryOut i
