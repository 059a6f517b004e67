import SchemaModel.Json.Printer
import SchemaModel.Yaml.Node

/-!
The values of YAML nodes. A plain scalar is read for null, a truth value or a number; any other
scalar is a string, unless its tag says what it is. Aliases are replaced by what they stand for.

`Value.toJson?` gives the same value in JSON, where keys are strings.
-/

namespace SchemaModel.Yaml

/-- Floating-point values that no numeral denotes. -/
inductive NonFinite where
  | infinity
  | negativeInfinity
  | notANumber
deriving DecidableEq, Repr

inductive Value where
  | null
  | bool (value : Bool)
  | num (value : Number)
  | nonFinite (value : NonFinite)
  | str (value : String)
  | sequence (items : List Value)
  | mapping (entries : List (Value × Value))
  | tagged (tag : String) (value : Value)
deriving Repr

namespace Value

mutual

/-- Equality of values: the order of the entries of a mapping does not count. -/
def same : Value → Value → Bool
  | .null, .null => true
  | .bool a, .bool b => a == b
  | .num a, .num b => a.same b
  | .nonFinite a, .nonFinite b => a == b
  | .str a, .str b => a == b
  | .sequence a, .sequence b => sameItems a b
  | .mapping a, .mapping b => a.length == b.length && sameEntries a b
  | .tagged tag a, .tagged other b => tag == other && same a b
  | _, _ => false

def sameItems : List Value → List Value → Bool
  | [], [] => true
  | a :: as, b :: bs => same a b && sameItems as bs
  | _, _ => false

def sameEntries : List (Value × Value) → List (Value × Value) → Bool
  | [], _ => true
  | (key, a) :: rest, others =>
    others.any (fun (other, b) => same key other && same a b) && sameEntries rest others

end

end Value

namespace Scalar

def isNull (text : String) : Bool := ["null", "Null", "NULL", "~"].contains text

def bool? (text : String) : Option Bool :=
  if ["true", "True", "TRUE"].contains text then some true
  else if ["false", "False", "FALSE"].contains text then some false
  else none

/-- A sign at the front is left out. -/
def unsigned : List Char → List Char
  | '+' :: rest => rest
  | '-' :: rest => rest
  | cs => cs

/-- Several digits of which the first is a zero are not taken for a number. -/
def isPadded (cs : List Char) : Bool :=
  match unsigned cs with
  | '0' :: d :: rest => (d :: rest).all Char.isDigit
  | _ => false

/-- Digits to a base. -/
def digits? (base : Nat) (cs : List Char) : Option Nat := do
  if cs.isEmpty then none
  cs.foldlM (fun n c => do
    let digit ← Json.hexValue? c
    if digit < base then some (base * n + digit) else none) 0

/-- A number that starts with its base. -/
def based? : List Char → Option Nat
  | '0' :: 'x' :: rest => digits? 16 rest
  | '0' :: 'o' :: rest => digits? 8 rest
  | '0' :: 'b' :: rest => digits? 2 rest
  | _ => none

/-- A number written without fraction and exponent, of any size. -/
def integer? (cs : List Char) : Option Int :=
  let decimal := fun cs => if isPadded cs then none else digits? 10 cs
  match cs with
  | '+' :: rest => ((based? rest).or (decimal rest)).map Int.ofNat
  | '-' :: rest => ((based? rest).or (decimal rest)).map fun n => -(n : Int)
  | cs => ((based? cs).or (decimal cs)).map Int.ofNat

/-- A finite number or one of the texts for the others. -/
def float? (text : String) : Option Value :=
  if [".inf", ".Inf", ".INF", "+.inf", "+.Inf", "+.INF"].contains text then
    some (.nonFinite .infinity)
  else if ["-.inf", "-.Inf", "-.INF"].contains text then some (.nonFinite .negativeInfinity)
  else if [".nan", ".NaN", ".NAN"].contains text then some (.nonFinite .notANumber)
  else do
    let numeral ← Numeral.read? text.toList
    let x ← numeral.toDouble?
    some (.num (.double x))

def fitsWord (n : Int) : Bool := -(Nat.pow 2 63 : Int) ≤ n && n < (Nat.pow 2 64 : Int)

def fitsDoubleWord (n : Int) : Bool := -(Nat.pow 2 127 : Int) ≤ n && n < (Nat.pow 2 128 : Int)

/-- The value of an integer. One that needs more than 64 bits but not more than 128 is refused;
a larger one is none. -/
def integerValue? (text : String) : Option (Option Value) :=
  match integer? text.toList with
  | none => some none
  | some n =>
    if fitsWord n then some (some (.num (.int n)))
    else if fitsDoubleWord n then none
    else some none

/-- The value of a plain scalar without a tag. -/
def plain? (text : String) : Option Value :=
  if text.isEmpty || isNull text then some .null
  else match bool? text with
    | some b => some (.bool b)
    | none => do
      match ← integerValue? text with
      | some n => some n
      | none =>
        if isPadded text.toList then some (.str text)
        else some ((float? text).getD (.str text))

def untagged? (text : String) (plain : Bool) : Option Value :=
  if plain then plain? text else some (.str text)

/-- The value of a scalar whose tag says how it is to be read. -/
def byTag? (tag text : String) : Option Value :=
  match tag with
  | "tag:yaml.org,2002:bool" => (bool? text).map .bool
  | "tag:yaml.org,2002:int" => (integerValue? text).join
  | "tag:yaml.org,2002:float" => float? text
  | "tag:yaml.org,2002:null" => if isNull text then some .null else none
  | _ => some (.str text)

end Scalar

/-- Whether a tag belongs to the text alone. -/
def isLocalTag (tag : String) : Bool := tag.toList.head? = some '!'

/-- Puts a local tag around a value; the bare mark is refused. -/
def withTag? (tag : Option String) (value : Value) : Option Value :=
  match tag with
  | none => some value
  | some tag =>
    if tag = "!" then none
    else if isLocalTag tag then some (.tagged tag value)
    else some value

namespace Value

def scalar? (label : Label) (text : String) (plain : Bool) : Option Value :=
  match label.tag with
  | none => Scalar.untagged? text plain
  | some tag =>
    if isLocalTag tag then (Scalar.untagged? text plain).bind (withTag? (some tag))
    else Scalar.byTag? tag text

/-- Adds an entry; a key that is there already is refused. -/
def insertNew? (entries : List (Value × Value)) (key value : Value) :
    Option (List (Value × Value)) :=
  if entries.any fun (other, _) => key.same other then none else some ((key, value) :: entries)

/-- The node that an alias stands for. Following an alias takes one of the steps that are left. -/
def follow? (anchored : List (Nat × Node)) (steps : Nat) : Node → Option (Node × Nat)
  | .alias number =>
    match steps with
    | 0 => none
    | steps + 1 => (anchored.lookup number).map fun node => (node, steps)
  | node => some (node, steps)

mutual

/-- The value of a node within a depth of collections, and the alias steps that are left. -/
def ofNode? (anchored : List (Nat × Node)) (depth steps : Nat) (node : Node) :
    Option (Value × Nat) := do
  let (node, steps) ← follow? anchored steps node
  match depth, node with
  | _, .alias _ => none
  | _, .scalar label text plain => (scalar? label text plain).map fun value => (value, steps)
  | 0, _ => none
  | depth + 1, .sequence label items =>
    let (items, steps) ← items.foldlM (fun (items, steps) item => do
      let (value, steps) ← ofNode? anchored depth steps item
      some (value :: items, steps)) ([], steps)
    (withTag? label.tag (.sequence items.reverse)).map fun value => (value, steps)
  | depth + 1, .mapping label entries =>
    let (entries, steps) ← entries.foldlM (fun (entries, steps) (key, value) => do
      let (key, steps) ← ofNode? anchored depth steps key
      let (value, steps) ← ofNode? anchored depth steps value
      (insertNew? entries key value).map fun entries => (entries, steps)) ([], steps)
    (withTag? label.tag (.mapping entries.reverse)).map fun value => (value, steps)

end

/-- The levels of collections that a value may have. -/
def maxDepth : Nat := 128

/-- The alias steps that a text may take for each step through its nodes. -/
def aliasFactor : Nat := 100

/-- The value of a text with at most one document. -/
def parse? (text : String) : Option Value := do
  let tokens ← tokens? text
  let node ← Node.ofTokens? tokens
  let (value, _) ← ofNode? node.anchored.reverse maxDepth (aliasFactor * node.size) node
  some value

/-- The text of a value that can be a key in JSON. -/
def key? : Value → Option String
  | .str s => some s
  | .bool b => some (toString b)
  | .num n => some n.text
  | _ => none

mutual

/-- The value in JSON. Values that are not finite are null, and a tag is the only key of an
object. Of keys with equal texts the first keeps its place and the last gives the value. -/
def toJson? : Value → Option Json
  | .null => some .null
  | .bool b => some (.bool b)
  | .num n => some (.num n)
  | .nonFinite _ => some .null
  | .str s => some (.str s)
  | .sequence items => (itemsJson? items).map .arr
  | .mapping entries => (entriesJson? [] entries).map .obj
  | .tagged tag value => (toJson? value).map fun v => .obj [(tag, v)]

def itemsJson? : List Value → Option (List Json)
  | [] => some []
  | item :: rest => do
    let item ← toJson? item
    let rest ← itemsJson? rest
    some (item :: rest)

def entriesJson? (done : List (String × Json)) :
    List (Value × Value) → Option (List (String × Json))
  | [] => some done
  | (key, value) :: rest => do
    let key ← key? key
    let value ← toJson? value
    entriesJson? (Json.putField key value done) rest

end

end Value

end SchemaModel.Yaml
