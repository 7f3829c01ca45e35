import TermCapture.Color.Notation
import TermCapture.Screen

namespace TermCapture

/-- A cell with its colors in hexadecimal notation. -/
structure GridCell where
  char : Char
  foreground : Option String
  background : Option String
  bold : Bool
  underline : Bool
  inverse : Bool
  deriving DecidableEq, Repr

/-- The cells of a screen for other programs. -/
structure Grid where
  width : Nat
  lines : List (List GridCell)
  deriving DecidableEq, Repr

def Cell.gridCell (c : Cell) : GridCell where
  char := c.char
  foreground := c.style.foreground.map Color.hex
  background := c.style.background.map Color.hex
  bold := c.style.bold
  underline := c.style.underline
  inverse := c.style.inverse

def Screen.grid (s : Screen) : Grid where
  width := s.width
  lines := s.lines.toList.map fun line ↦ line.toList.map Cell.gridCell

namespace Grid

/-- How a document is laid out. -/
structure Options where
  indented : Bool := false
  sorted : Bool := false
  finalNewline : Bool := true
  deriving DecidableEq, Repr

/-- Why a grid has no document. -/
structure Error where
  message : String
  deriving DecidableEq, Repr

/-- Makes the document of a grid. -/
abbrev Encoder := Options → Grid → Except Error String

end Grid

end TermCapture
