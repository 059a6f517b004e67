/-!
Absolute addresses: a scheme, then a host and a port where the scheme has them. Blanks at the
ends and line breaks inside are ignored, and a backslash counts as a slash in web addresses.
-/

namespace SchemaModel.Url

def hasScheme (cs : List Char) : Option (List Char × List Char) :=
  match cs with
  | c :: _ =>
    if c.isAlpha then
      let inScheme (c : Char) : Bool := c.isAlphanum || c = '+' || c = '-' || c = '.'
      match cs.dropWhile inScheme with
      | ':' :: rest => some ((cs.takeWhile inScheme).map Char.toLower, rest)
      | _ => none
    else none
  | [] => none

/-- Schemes whose addresses have a host. -/
def webSchemes : List String := ["http", "https", "ws", "wss", "ftp"]

def splitDots (cs : List Char) : List (List Char) :=
  cs.foldr (fun c parts => match parts with
    | part :: rest => if c = '.' then [] :: part :: rest else (c :: part) :: rest
    | [] => [[c]]) [[]]

def isHex (c : Char) : Bool :=
  c.isDigit || ('a' ≤ c && c ≤ 'f') || ('A' ≤ c && c ≤ 'F')

def natOf (base : Nat) (cs : List Char) : Nat :=
  cs.foldl (fun n c => base * n + (if c.isDigit then c.toNat - 48 else c.toLower.toNat - 87)) 0

/-- A part of a numeric host: decimal, octal behind a zero, or hexadecimal behind `0x`. -/
def hostNumber? (cs : List Char) : Option Nat :=
  match cs with
  | '0' :: x :: rest =>
    if x = 'x' || x = 'X' then if rest.all isHex then some (natOf 16 rest) else none
    else if (x :: rest).all fun c => '0' ≤ c && c ≤ '7' then some (natOf 8 (x :: rest)) else none
  | [] => none
  | cs => if cs.all Char.isDigit then some (natOf 10 cs) else none

/-- Up to four numbers, the last of which fills the bytes that are left. -/
def isNumericHost (labels : List (List Char)) : Bool :=
  match labels.mapM hostNumber? with
  | none => false
  | some numbers =>
    numbers.length ≤ 4 && numbers.dropLast.all (· < 256) &&
      numbers.getLastD 0 < Nat.pow 256 (5 - numbers.length)

def forbiddenInHost : List Char :=
  ['\x00', '\t', '\n', '\r', ' ', '#', '/', ':', '<', '>', '?', '@', '[', '\\', ']', '^', '|']

/-- Replaces percent escapes by the characters of their codes. -/
def decodePercent : List Char → List Char
  | '%' :: a :: b :: rest =>
    if isHex a && isHex b then Char.ofNat (natOf 16 [a, b]) :: decodePercent rest
    else '%' :: decodePercent (a :: b :: rest)
  | c :: rest => c :: decodePercent rest
  | [] => []

def isDomain (host : List Char) : Bool :=
  let host := decodePercent host
  let plain := host.all fun c =>
    !forbiddenInHost.contains c && c != '%' && !(c.toNat < 0x20) && c.toNat != 0x7F
  let labels := splitDots host
  let labels := if labels.length > 1 && labels.getLastD [] == [] then labels.dropLast else labels
  let last := labels.getLastD []
  let numeric := !last.isEmpty && (last.all Char.isDigit || match last with
    | '0' :: x :: rest => (x = 'x' || x = 'X') && rest.all isHex
    | _ => false)
  !host.isEmpty && plain && (!numeric || isNumericHost labels)

/-- Groups of up to four hexadecimal digits; the last may be a dotted address, which counts as
two groups. -/
def countGroups? (text : List Char) : Option Nat :=
  if text.isEmpty then some 0
  else
    let groups := text.foldr (fun c parts => match parts with
      | part :: rest => if c = ':' then [] :: part :: rest else (c :: part) :: rest
      | [] => [[c]]) [[]]
    let isGroup (g : List Char) : Bool := !g.isEmpty && g.length ≤ 4 && g.all isHex
    let last := groups.getLastD []
    if groups.all isGroup then some groups.length
    else if groups.dropLast.all isGroup && last.contains '.' &&
        (splitDots last).length = 4 &&
        (splitDots last).all (fun p => !p.isEmpty && p.all Char.isDigit && natOf 10 p < 256 &&
          (p.length = 1 || p.head? != some '0')) then
      some (groups.length + 1)
    else none

def splitAtGap : List Char → Option (List Char × List Char)
  | ':' :: ':' :: rest => some ([], rest)
  | c :: rest => (splitAtGap rest).map fun (a, b) => (c :: a, b)
  | [] => none

/-- Eight groups, or fewer with one gap. -/
def isGroupedHost (text : List Char) : Bool :=
  match splitAtGap text with
  | some (left, right) =>
    match countGroups? left, countGroups? right with
    | some m, some n => m + n ≤ 7
    | _, _ => false
  | none => countGroups? text == some 8

/-- The text behind the last character that satisfies `p`. -/
def afterLast (p : Char → Bool) (cs : List Char) : List Char :=
  (cs.reverse.takeWhile fun c => !p c).reverse

def isPort (cs : List Char) : Bool := cs.all Char.isDigit && natOf 10 cs < 65536

def isAuthority (web : Bool) (text : List Char) : Bool :=
  let text := afterLast (· = '@') text
  match text with
  | '[' :: rest =>
    match rest.dropWhile (· != ']') with
    | ']' :: after =>
      isGroupedHost (rest.takeWhile (· != ']')) && match after with
        | [] => true
        | ':' :: port => isPort port
        | _ => false
    | _ => false
  | text =>
    let host := text.takeWhile (· != ':')
    let port := (text.dropWhile (· != ':')).drop 1
    isPort port && if web then isDomain host
      else host.all (fun c => !forbiddenInHost.contains c) && (!host.isEmpty || port.isEmpty)

def isAbsolute (text : String) : Bool :=
  let outer (c : Char) : Bool := c.toNat ≤ 0x20
  let cs := ((text.toList.dropWhile outer).reverse.dropWhile outer).reverse
  let cs := cs.filter fun c => !(c = '\t' || c = '\n' || c = '\r')
  match hasScheme cs with
  | none => false
  | some (scheme, rest) =>
    let scheme := String.ofList scheme
    if webSchemes.contains scheme then
      let isSlash (c : Char) : Bool := c = '/' || c = '\\'
      let rest := rest.dropWhile isSlash
      isAuthority true (rest.takeWhile fun c => !(isSlash c || c = '?' || c = '#'))
    else if scheme = "file" then true
    else match rest with
      | '/' :: '/' :: rest =>
        isAuthority false (rest.takeWhile fun c => !(c = '/' || c = '?' || c = '#'))
      | _ => true

end SchemaModel.Url
