/-!
Positions in a document and their text. A position is a component and the steps that lead from
it into a schema; its text is a reference path, in which `~` and `/` within a name are written
`~0` and `~1`.

`Reference.component?` reads the text of a whole component, the only kind of reference that is
followed.
-/

namespace SchemaModel

namespace Reference

def root : String := "#/components/schemas/"

def escapeChar (c : Char) : List Char :=
  if c = '~' then ['~', '0'] else if c = '/' then ['~', '1'] else [c]

def escapeChars (cs : List Char) : List Char := cs.flatMap escapeChar

/-- A tilde that is followed by neither `0` nor `1` stands for itself. -/
def unescapeChars : List Char → List Char
  | '~' :: '0' :: rest => '~' :: unescapeChars rest
  | '~' :: '1' :: rest => '/' :: unescapeChars rest
  | c :: rest => c :: unescapeChars rest
  | [] => []

def escape (name : String) : String := String.ofList (escapeChars name.toList)

def unescape (segment : String) : String := String.ofList (unescapeChars segment.toList)

/-- The reference to a component. -/
def ofComponent (name : String) : String := root ++ escape name

/-- The component that a reference names: one segment, not empty, behind the root. -/
def component? (path : String) : Option String :=
  let cs := path.toList
  let segment := cs.drop root.length
  if root.toList.isPrefixOf cs && !segment.isEmpty && !segment.contains '/' then
    some (String.ofList (unescapeChars segment))
  else none

end Reference

/-- A step from a schema to one inside it. -/
inductive Step where
  | property (key : String)
  | items
  | additional
  | allOf (index : Nat)
  | oneOf (index : Nat)
  | anyOf (index : Nat)
deriving DecidableEq, Repr

namespace Step

def text : Step → String
  | property key => "/properties/" ++ Reference.escape key
  | items => "/items"
  | additional => "/additionalProperties"
  | allOf index => "/allOf/" ++ toString index
  | oneOf index => "/oneOf/" ++ toString index
  | anyOf index => "/anyOf/" ++ toString index

end Step

/-- The position of a schema: a component, and the steps from it in order. -/
structure Pointer where
  component : String
  steps : List Step
deriving DecidableEq, Repr

namespace Pointer

def ofComponent (name : String) : Pointer := ⟨name, []⟩

/-- The position one step further in. -/
def push (p : Pointer) (step : Step) : Pointer := ⟨p.component, p.steps ++ [step]⟩

def text (p : Pointer) : String :=
  p.steps.foldl (fun text step => text ++ step.text) (Reference.ofComponent p.component)

/-- Whether `inner` lies strictly inside `outer`. -/
def encloses (outer inner : Pointer) : Bool :=
  outer.component == inner.component && outer.steps.isPrefixOf inner.steps &&
    outer.steps.length < inner.steps.length

end Pointer

end SchemaModel
