/-!
Colours of a terminal, and text in them.
-/

namespace SchemaModel

inductive Color where
  | reset
  | black
  | darkGrey
  | red
  | darkRed
  | green
  | darkGreen
  | yellow
  | darkYellow
  | blue
  | darkBlue
  | magenta
  | darkMagenta
  | cyan
  | darkCyan
  | white
  | grey
  | rgb (red green blue : UInt8)
  | indexed (value : UInt8)
deriving DecidableEq, Repr

namespace Color

/-- The colours that have a name, by that name. -/
def named : List (String × Color) := [
  ("reset", reset), ("black", black), ("dark_grey", darkGrey), ("red", red),
  ("dark_red", darkRed), ("green", green), ("dark_green", darkGreen), ("yellow", yellow),
  ("dark_yellow", darkYellow), ("blue", blue), ("dark_blue", darkBlue), ("magenta", magenta),
  ("dark_magenta", darkMagenta), ("cyan", cyan), ("dark_cyan", darkCyan), ("white", white),
  ("grey", grey)]

def ofName? (name : String) : Option Color := named.lookup name

/-- A colour as it is shown to people. -/
def text : Color → String
  | reset => "Reset"
  | black => "Black"
  | darkGrey => "DarkGrey"
  | red => "Red"
  | darkRed => "DarkRed"
  | green => "Green"
  | darkGreen => "DarkGreen"
  | yellow => "Yellow"
  | darkYellow => "DarkYellow"
  | blue => "Blue"
  | darkBlue => "DarkBlue"
  | magenta => "Magenta"
  | darkMagenta => "DarkMagenta"
  | cyan => "Cyan"
  | darkCyan => "DarkCyan"
  | white => "White"
  | grey => "Grey"
  | rgb r g b => "Rgb \x7b " ++ s!"r: {r}, g: {g}, b: {b}" ++ " \x7d"
  | indexed n => s!"AnsiValue({n})"

/-- The parameters of the sequence that selects a colour for the foreground. -/
def foreground : Color → String
  | reset => "39"
  | black => "38;5;0"
  | darkRed => "38;5;1"
  | darkGreen => "38;5;2"
  | darkYellow => "38;5;3"
  | darkBlue => "38;5;4"
  | darkMagenta => "38;5;5"
  | darkCyan => "38;5;6"
  | grey => "38;5;7"
  | darkGrey => "38;5;8"
  | red => "38;5;9"
  | green => "38;5;10"
  | yellow => "38;5;11"
  | blue => "38;5;12"
  | magenta => "38;5;13"
  | cyan => "38;5;14"
  | white => "38;5;15"
  | rgb r g b => s!"38;2;{r};{g};{b}"
  | indexed n => s!"38;5;{n}"

end Color

/-- A control sequence that changes how text looks. -/
def appearance (parameters : String) : String := "\x1b[" ++ parameters ++ "m"

/-- A text in a colour; behind it the terminal's own colour comes back. -/
def Color.paint (color : Color) (text : String) : String :=
  appearance color.foreground ++ text ++ appearance "39"

/-- A bold text in a colour; behind it nothing of either is left. -/
def Color.paintBold (color : Color) (text : String) : String :=
  appearance color.foreground ++ appearance "1" ++ text ++ appearance "0"

end SchemaModel
