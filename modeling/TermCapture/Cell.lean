import TermCapture.Color

namespace TermCapture

/-- The look of a character. A missing color is the terminal's default, and inverse video is
resolved when the cell is shown. -/
structure Style where
  foreground : Option Color := none
  background : Option Color := none
  bold : Bool := false
  underline : Bool := false
  inverse : Bool := false
  deriving DecidableEq, Repr, Inhabited

structure Cell where
  char : Char
  style : Style := {}
  deriving DecidableEq, Repr, Inhabited

def Cell.blank : Cell := ⟨' ', {}⟩

abbrev Line := Array Cell

def Line.text (line : Line) : String := String.ofList (line.toList.map Cell.char)

end TermCapture
