import TermCapture.Screen

namespace TermCapture

/-- Neighboring cells of one style. -/
structure Run where
  style : Style
  chars : List Char
  deriving DecidableEq, Repr

namespace Run

def text (r : Run) : String := String.ofList r.chars

/-- The runs of the cells so far, the last one first, and behind them the style of the last cell and the characters
that share it, the last one first. -/
structure Grouping where
  runs : List Run := []
  current : Style := {}
  chars : List Char := []
  deriving DecidableEq, Repr

namespace Grouping

/-- A cell ends the characters of another style in front of it. -/
def add (g : Grouping) (c : Cell) : Grouping :=
  if g.chars ≠ [] ∧ c.style ≠ g.current then
    ⟨⟨g.current, g.chars.reverse⟩ :: g.runs, c.style, [c.char]⟩
  else ⟨g.runs, c.style, c.char :: g.chars⟩

/-- The end of the line ends the last characters. -/
def finish (g : Grouping) : List Run :=
  if g.chars = [] then g.runs.reverse else (⟨g.current, g.chars.reverse⟩ :: g.runs).reverse

end Grouping

end Run

def Line.runs (line : Line) : List Run := (line.foldl Run.Grouping.add {}).finish

def Screen.runs (s : Screen) : List (List Run) := s.lines.toList.map Line.runs

end TermCapture
