import SchemaModel.Decimal.Numeral
import SchemaModel.Terminal.Color
import SchemaModel.Text.Split

/-!
The colours of the output by their roles, for a dark and for a light background, and how the
background is guessed from the environment.
-/

namespace SchemaModel

inductive ColorMode where
  | always
  | auto
  | never
deriving DecidableEq, Repr

namespace ColorMode

def name : ColorMode → String
  | always => "always"
  | auto => "auto"
  | never => "never"

def ofName? (name : String) : Option ColorMode := [always, auto, never].find? (·.name = name)

/-- Whether there are colours, on a terminal or elsewhere. -/
def isEnabled (onTerminal : Bool) : ColorMode → Bool
  | always => true
  | auto => onTerminal
  | never => false

end ColorMode

inductive ThemeMode where
  | dark
  | light
  | auto
deriving DecidableEq, Repr

namespace ThemeMode

def name : ThemeMode → String
  | dark => "dark"
  | light => "light"
  | auto => "auto"

def ofName? (name : String) : Option ThemeMode := [dark, light, auto].find? (·.name = name)

end ThemeMode

inductive Theme where
  | dark
  | light
deriving DecidableEq, Repr

/-- What the environment says about the terminal. -/
structure TerminalHints where
  foregroundBackground : Option String
  program : Option String
  profile : Option String
deriving DecidableEq, Repr

namespace TerminalHints

/-- A number of one byte that takes up a whole text. A plus sign may stand before it. -/
def byte? (cs : List Char) : Option Nat :=
  let digits := match cs with
    | '+' :: rest => rest
    | cs => cs
  let n := Numeral.natOfDigits digits
  if digits.isEmpty || !digits.all Char.isDigit || 255 < n then none else some n

/-- The number of the background, which stands behind the last semicolon. -/
def background? (hints : TerminalHints) : Option Nat :=
  hints.foregroundBackground.bind fun text =>
    byte? (text.toList.reverse.takeWhile (· ≠ ';')).reverse

/-- Whether a text has the word for light in it, in capitals or not. -/
def saysLight (text : String) : Bool :=
  Text.hasPart "light".toList (text.toList.map Char.toLower)

/-- Backgrounds from number 8 on are light. Without a number two programs tell by the name of
their profile. -/
def theme (hints : TerminalHints) : Theme :=
  match hints.background? with
  | some n => if 8 ≤ n then .light else .dark
  | none =>
    let known := ["Apple_Terminal", "iTerm.app"].map some
    if known.contains hints.program && hints.profile.any saysLight then .light else .dark

end TerminalHints

def ThemeMode.theme (hints : TerminalHints) : ThemeMode → Theme
  | dark => .dark
  | light => .light
  | auto => hints.theme

/-- What a text in the output is for. -/
inductive Purpose where
  | timestamp
  | primary
  | accent
  | info
  | success
  | label
  | value
  | muted
deriving DecidableEq, Repr

namespace Purpose

def name : Purpose → String
  | timestamp => "timestamp"
  | primary => "primary"
  | accent => "accent"
  | info => "info"
  | success => "success"
  | label => "label"
  | value => "value"
  | muted => "muted"

def all : List Purpose := [timestamp, primary, accent, info, success, label, value, muted]

/-- The colour on a dark background. -/
def onDark : Purpose → Color
  | timestamp => .rgb 118 166 166
  | primary => .rgb 191 126 4
  | accent => .rgb 166 84 55
  | info => .rgb 118 166 166
  | success => .rgb 118 166 166
  | label => .rgb 217 164 4
  | value => .rgb 242 211 56
  | muted => .darkGrey

/-- The colour on a light background. -/
def onLight : Purpose → Color
  | timestamp => .rgb 92 62 38
  | primary => .rgb 70 42 25
  | accent => .rgb 211 99 70
  | info => .rgb 40 111 170
  | success => .rgb 34 142 90
  | label => .rgb 176 103 66
  | value => .rgb 199 146 76
  | muted => .grey

end Purpose

structure Palette where
  enabled : Bool
  theme : Theme
deriving DecidableEq, Repr

namespace Palette

/-- Without colours every text has the terminal's own. -/
def color (palette : Palette) (purpose : Purpose) : Color :=
  if !palette.enabled then .reset
  else match palette.theme with
    | .dark => purpose.onDark
    | .light => purpose.onLight

def paint (palette : Palette) (purpose : Purpose) (text : String) : String :=
  (palette.color purpose).paint text

def paintBold (palette : Palette) (purpose : Purpose) (text : String) : String :=
  (palette.color purpose).paintBold text

end Palette

end SchemaModel
