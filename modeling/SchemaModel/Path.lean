/-!
File paths as sequences of names. Repeated and trailing slashes do not count, nor does a dot
that stands for the directory itself, except at the start.
-/

namespace SchemaModel.Path

def splitSlashes (cs : List Char) : List (List Char) :=
  cs.foldr (fun c parts => match parts with
    | part :: rest => if c = '/' then [] :: part :: rest else (c :: part) :: rest
    | [] => [[c]]) [[]]

/-- The names on the way along a path, with `/` before those of an absolute one. -/
def components (path : String) : List String :=
  let cs := path.toList
  let absolute := cs.head? = some '/'
  let parts := (splitSlashes cs).map String.ofList
  let named := (parts.drop 1).filter fun part => part ≠ "" && part ≠ "."
  let first := (parts.headD "")
  if absolute then "/" :: named
  else if first = "" then named
  else first :: named

/-- Whether two texts are the same path. -/
def same (a b : String) : Bool := components a == components b

/-- The last name of a path, unless it leads up or nowhere. -/
def fileName? (path : String) : Option String :=
  match (components path).getLast? with
  | some name => if name = "/" || name = "." || name = ".." then none else some name
  | none => none

/-- What follows the last dot of the file name, unless that dot is its first character. -/
def extension? (path : String) : Option String := do
  let cs := (← fileName? path).toList
  let after := (cs.reverse.takeWhile (· != '.')).reverse
  let before := cs.take (cs.length - after.length - 1)
  if after.length = cs.length || before.isEmpty then none else some (String.ofList after)

/-- The path of the directory that holds the path, if it has one that is not empty. -/
def parent (path : String) : List String := (components path).dropLast

end SchemaModel.Path
