import SchemaModel.Yaml.Lexer

/-!
The nodes of a YAML text: scalars, sequences and mappings, with their anchors and tags, and
aliases. `Node.ofTokens?` reads the one document that a text may hold.

Anchors are numbered. A number is the count of the different names before it, so an anchor that
takes a name again shares its number with the next new name; an alias stands for the last node of
its number.
-/

namespace SchemaModel.Yaml

/-- The anchor and the tag of a node. -/
structure Label where
  anchor : Option Nat
  tag : Option String
deriving DecidableEq, Repr

def Label.none : Label := ⟨Option.none, Option.none⟩

inductive Node where
  | alias (target : Nat)
  | scalar (label : Label) (text : String) (plain : Bool)
  | sequence (label : Label) (items : List Node)
  | mapping (label : Label) (entries : List (Node × Node))
deriving Repr

namespace Node

/-- What stands where nothing is written. -/
def empty : Node := .scalar .none "" true

mutual

/-- How many steps it takes to go through a node. -/
def size : Node → Nat
  | .alias _ => 1
  | .scalar _ _ _ => 1
  | .sequence _ items => sizeItems items + 2
  | .mapping _ entries => sizeEntries entries + 2

def sizeItems : List Node → Nat
  | [] => 0
  | item :: rest => item.size + sizeItems rest

def sizeEntries : List (Node × Node) → Nat
  | [] => 0
  | (key, value) :: rest => key.size + value.size + sizeEntries rest

end

def anchor? : Node → Option Nat
  | .alias _ => none
  | .scalar label _ _ => label.anchor
  | .sequence label _ => label.anchor
  | .mapping label _ => label.anchor

mutual

/-- The nodes that have anchors, in the order in which they start. -/
def anchored (node : Node) : List (Nat × Node) :=
  match node.anchor? with
  | some number => (number, node) :: anchoredBelow node
  | none => anchoredBelow node

def anchoredBelow : Node → List (Nat × Node)
  | .alias _ => []
  | .scalar _ _ _ => []
  | .sequence _ items => anchoredItems items
  | .mapping _ entries => anchoredEntries entries

def anchoredItems : List Node → List (Nat × Node)
  | [] => []
  | item :: rest =>
    (match item.anchor? with
      | some number => (number, item) :: anchoredBelow item
      | none => anchoredBelow item) ++ anchoredItems rest

def anchoredEntries : List (Node × Node) → List (Nat × Node)
  | [] => []
  | (key, value) :: rest =>
    (match key.anchor? with
      | some number => (number, key) :: anchoredBelow key
      | none => anchoredBelow key) ++
    (match value.anchor? with
      | some number => (number, value) :: anchoredBelow value
      | none => anchoredBelow value) ++ anchoredEntries rest

end

end Node

/-- Tokens that are being put together: those left, the tag handles of the document, and the
numbers of the anchors so far. -/
structure Assembly where
  tokens : List Token
  handles : List (String × String)
  numbers : List (String × Nat)
deriving Repr

namespace Assembly

def drop (assembly : Assembly) : Assembly := { assembly with tokens := assembly.tokens.drop 1 }

def sees (assembly : Assembly) (tokens : List Token) : Bool :=
  assembly.tokens.head?.any tokens.contains

/-- Numbers an anchor. -/
def define (assembly : Assembly) (name : String) : Nat × Assembly :=
  let number := assembly.numbers.length
  let others := assembly.numbers.filter fun (other, _) => other ≠ name
  (number, { assembly with numbers := (name, number) :: others })

/-- A tag in full. -/
def tag? (assembly : Assembly) (handle suffix : String) : Option String :=
  if handle.isEmpty then some suffix
  else (assembly.handles.lookup handle).map (· ++ suffix)

/-- The anchor and the tag in front of a node, in either order. -/
def label? (assembly : Assembly) : Option (Label × Assembly) :=
  match assembly.tokens with
  | .anchor name :: .tag handle suffix :: rest => do
    let tag ← assembly.tag? handle suffix
    let (number, assembly) := assembly.define name
    some (⟨some number, some tag⟩, { assembly with tokens := rest })
  | .tag handle suffix :: .anchor name :: rest => do
    let tag ← assembly.tag? handle suffix
    let (number, assembly) := assembly.define name
    some (⟨some number, some tag⟩, { assembly with tokens := rest })
  | .anchor name :: rest =>
    let (number, assembly) := assembly.define name
    some (⟨some number, none⟩, { assembly with tokens := rest })
  | .tag handle suffix :: rest => do
    let tag ← assembly.tag? handle suffix
    some (⟨none, some tag⟩, { assembly with tokens := rest })
  | _ => some (.none, assembly)

end Assembly

namespace Node

mutual

/-- A node at the front of the tokens. Block collections are admitted where `block` holds, and
items without a block of their own where `loose` holds. -/
def next? (block loose : Bool) : (fuel : Nat) → Assembly → Option (Node × Assembly)
  | 0, _ => none
  | fuel + 1, assembly =>
    match assembly.tokens with
    | .alias name :: _ => (assembly.numbers.lookup name).map fun n => (.alias n, assembly.drop)
    | _ => do
      let (label, assembly) ← assembly.label?
      match assembly.tokens, block, loose with
      | .blockEntry :: _, _, true => do
        let (items, assembly) ← looseItems? fuel assembly
        some (.sequence label items, assembly)
      | .scalar text plain :: _, _, _ => some (.scalar label text plain, assembly.drop)
      | .flowSequenceStart :: _, _, _ => do
        let (items, assembly) ← flowItems? true fuel assembly.drop
        some (.sequence label items, assembly)
      | .flowMappingStart :: _, _, _ => do
        let (entries, assembly) ← flowEntries? true fuel assembly.drop
        some (.mapping label entries, assembly)
      | .blockSequenceStart :: _, true, _ => do
        let (items, assembly) ← blockItems? fuel assembly.drop
        some (.sequence label items, assembly)
      | .blockMappingStart :: _, true, _ => do
        let (entries, assembly) ← blockEntries? fuel assembly.drop
        some (.mapping label entries, assembly)
      | _, _, _ => if label = .none then none else some (.scalar label "" true, assembly)

/-- A node, or an empty one in front of the tokens that end it. -/
def nextOr? (block loose : Bool) (ends : List Token) : (fuel : Nat) → Assembly →
    Option (Node × Assembly)
  | 0, _ => none
  | fuel + 1, assembly =>
    if assembly.sees ends then some (.empty, assembly) else next? block loose fuel assembly

/-- Items of a block, each behind a hyphen. -/
def blockItems? : (fuel : Nat) → Assembly → Option (List Node × Assembly)
  | 0, _ => none
  | fuel + 1, assembly =>
    if assembly.sees [.blockEntry] then do
      let (item, assembly) ← nextOr? true false [.blockEntry, .blockEnd] fuel assembly.drop
      let (items, assembly) ← blockItems? fuel assembly
      some (item :: items, assembly)
    else if assembly.sees [.blockEnd] then some ([], assembly.drop)
    else none

/-- Items that stand at the column of the key in front of them. -/
def looseItems? : (fuel : Nat) → Assembly → Option (List Node × Assembly)
  | 0, _ => none
  | fuel + 1, assembly =>
    if assembly.sees [.blockEntry] then do
      let (item, assembly) ←
        nextOr? true false [.blockEntry, .key, .value, .blockEnd] fuel assembly.drop
      let (items, assembly) ← looseItems? fuel assembly
      some (item :: items, assembly)
    else some ([], assembly)

/-- Keys and values of a block; either may be left out. -/
def blockEntries? : (fuel : Nat) → Assembly → Option (List (Node × Node) × Assembly)
  | 0, _ => none
  | fuel + 1, assembly =>
    if assembly.sees [.key] then do
      let (key, assembly) ← nextOr? true true [.key, .value, .blockEnd] fuel assembly.drop
      let (value, assembly) ←
        if assembly.sees [.value] then
          nextOr? true true [.key, .value, .blockEnd] fuel assembly.drop
        else some (.empty, assembly)
      let (entries, assembly) ← blockEntries? fuel assembly
      some ((key, value) :: entries, assembly)
    else if assembly.sees [.blockEnd] then some ([], assembly.drop)
    else none

/-- Items in brackets, with commas between them. A key makes an item a mapping of one entry;
where its key is left out, the token in its place is passed over. -/
def flowItems? (first : Bool) : (fuel : Nat) → Assembly → Option (List Node × Assembly)
  | 0, _ => none
  | fuel + 1, assembly =>
    if assembly.sees [.flowSequenceEnd] then some ([], assembly.drop)
    else if !first && !assembly.sees [.flowEntry] then none
    else
      let assembly := if first then assembly else assembly.drop
      if assembly.sees [.key] then do
        let assembly := assembly.drop
        let (key, assembly) ←
          if assembly.sees [.value, .flowEntry, .flowSequenceEnd] then some (.empty, assembly.drop)
          else next? false false fuel assembly
        let (value, assembly) ←
          if assembly.sees [.value] then
            nextOr? false false [.flowEntry, .flowSequenceEnd] fuel assembly.drop
          else some (.empty, assembly)
        let (items, assembly) ← flowItems? false fuel assembly
        some (.mapping .none [(key, value)] :: items, assembly)
      else if assembly.sees [.flowSequenceEnd] then some ([], assembly.drop)
      else do
        let (item, assembly) ← next? false false fuel assembly
        let (items, assembly) ← flowItems? false fuel assembly
        some (item :: items, assembly)

/-- Keys and values in braces, with commas between them. A node that is not marked as a key has
no value. -/
def flowEntries? (first : Bool) : (fuel : Nat) → Assembly →
    Option (List (Node × Node) × Assembly)
  | 0, _ => none
  | fuel + 1, assembly =>
    if assembly.sees [.flowMappingEnd] then some ([], assembly.drop)
    else if !first && !assembly.sees [.flowEntry] then none
    else
      let assembly := if first then assembly else assembly.drop
      if assembly.sees [.key] then do
        let (key, assembly) ←
          nextOr? false false [.value, .flowEntry, .flowMappingEnd] fuel assembly.drop
        let (value, assembly) ←
          if assembly.sees [.value] then
            nextOr? false false [.flowEntry, .flowMappingEnd] fuel assembly.drop
          else some (.empty, assembly)
        let (entries, assembly) ← flowEntries? false fuel assembly
        some ((key, value) :: entries, assembly)
      else if assembly.sees [.flowMappingEnd] then some ([], assembly.drop)
      else do
        let (key, assembly) ← next? false false fuel assembly
        let (entries, assembly) ← flowEntries? false fuel assembly
        some ((key, .empty) :: entries, assembly)

end

/-- The handles that every document has. -/
def standardHandles : List (String × String) := [("!", "!"), ("!!", "tag:yaml.org,2002:")]

/-- The tag handles that directives give, and the tokens behind the directives. A version is 1.1
or 1.2, and nothing is directed twice. -/
def directives? (versioned : Bool) (handles : List (String × String)) :
    List Token → Option (List (String × String) × List Token)
  | .versionDirective major minor :: rest =>
    if versioned || major ≠ 1 || (minor ≠ 1 && minor ≠ 2) then none
    else directives? true handles rest
  | .tagDirective handle lead :: rest =>
    if (handles.lookup handle).isSome then none
    else directives? versioned ((handle, lead) :: handles) rest
  | tokens => some (handles ++ standardHandles, tokens)

def isDirective : Token → Bool
  | .versionDirective _ _ => true
  | .tagDirective _ _ => true
  | _ => false

/-- Whether a document without content ends at these tokens. -/
def endsDocument : List Token → Bool
  | [] => true
  | token :: _ =>
    isDirective token || token = .documentStart || token = .documentEnd || token = .textEnd

/-- The node of the only document, and the tokens behind it. -/
def document? (tokens : List Token) : Option (Node × List Token) := do
  let fuel := 4 * (tokens.length + 1)
  match tokens with
  | .textEnd :: _ => some (.empty, tokens)
  | token :: _ =>
    if isDirective token || token = .documentStart then
      let (handles, tokens) ← directives? false [] tokens
      match tokens with
      | .documentStart :: rest =>
        if endsDocument rest then some (.empty, rest)
        else
          let (node, assembly) ← next? true false fuel ⟨rest, handles, []⟩
          some (node, assembly.tokens)
      | _ => none
    else
      let (node, assembly) ← next? true false fuel ⟨tokens, standardHandles, []⟩
      some (node, assembly.tokens)
  | [] => none

/-- The node of a text that holds one document or none. -/
def ofTokens? (tokens : List Token) : Option Node := do
  let (node, rest) ← document? tokens
  if rest.dropWhile (· = .documentEnd) = [.textEnd] then some node else none

end Node

end SchemaModel.Yaml
