import TermCapture.Cell
import TermCapture.Outcome

namespace TermCapture

structure Cursor where
  column : Nat := 0
  row : Nat := 0
  savedColumn : Nat := 0
  savedRow : Nat := 0
  deriving DecidableEq, Repr

/-- Lines of cells that grow at the end. What lies beyond a line or below the last one is blank. -/
structure Screen where
  width : Nat
  maxLines : Option Int
  maxColumns : Option Int
  lines : Array Line
  cursor : Cursor
  deriving DecidableEq, Repr

namespace Screen

def defaultWidth : Nat := 80

def widthOf (width : Int) : Nat := if width ≤ 0 then defaultWidth else width.toNat

/-- One empty line. -/
def empty (width : Int) (maxLines maxColumns : Option Int) : Screen where
  width := widthOf width
  maxLines := maxLines
  maxColumns := maxColumns
  lines := #[#[]]
  cursor := {}

def extend (s : Screen) (row : Nat) : Screen :=
  if row < s.lines.size then s
  else { s with lines := s.lines ++ Array.replicate (row + 1 - s.lines.size) #[] }

/-- Makes the line of a row exist, unless it lies beyond the limit. -/
def reach (s : Screen) (row : Nat) : Outcome Screen :=
  match s.maxLines with
  | some n => if n ≤ row then ⟨s, some (Fault.lineLimit n).raised⟩ else ⟨s.extend row, none⟩
  | none => ⟨s.extend row, none⟩

def boundColumn (s : Screen) (x : Int) : Nat :=
  match s.maxColumns with
  | some n => (min x (n - 1)).toNat
  | none => x.toNat

/-- Moves the cursor, which keeps a coordinate that is not given. It is left where it was sent even
if its line cannot be reached. -/
def moveTo (s : Screen) (column row : Option Int) : Outcome Screen :=
  let x := match column with
    | some x => s.boundColumn x
    | none => s.cursor.column
  let y := match row with
    | some y => y.toNat
    | none => s.cursor.row
  { s with cursor := { s.cursor with column := x, row := y } }.reach y

def moveBy (s : Screen) (dx dy : Int) : Outcome Screen :=
  s.moveTo (some (s.cursor.column + dx)) (some (s.cursor.row + dy))

def newline (s : Screen) : Outcome Screen := s.moveTo (some 0) (some (s.cursor.row + 1))

def saveCursor (s : Screen) : Screen :=
  { s with cursor := { s.cursor with savedColumn := s.cursor.column, savedRow := s.cursor.row } }

def restoreCursor (s : Screen) : Outcome Screen :=
  s.moveTo (some s.cursor.savedColumn) (some s.cursor.savedRow)

/-- Sets a cell of a line, with blanks before it where the line ends earlier. -/
def put (x : Nat) (c : Cell) (line : Line) : Line :=
  if x < line.size then line.setIfInBounds x c
  else (line ++ Array.replicate (x - line.size) Cell.blank).push c

/-- The line of a row, which is empty where the screen has none. -/
def rowAt (s : Screen) (y : Nat) : Line := (s.lines[y]?).getD #[]

/-- More blanks than this cannot be asked for at once. -/
def maxBlanks : Nat := 0x7fffffffffffffff

/-- The cursor is so far behind the end of its line that the blanks before it are too many. -/
def TooFar (s : Screen) : Prop := maxBlanks < s.cursor.column - (s.rowAt s.cursor.row).size

instance (s : Screen) : Decidable s.TooFar := inferInstanceAs (Decidable (_ < _))

/-- Overwrites the cell under the cursor and advances, to the next line at the width. -/
def write (s : Screen) (c : Char) (a : Style) : Outcome Screen :=
  (s.reach s.cursor.row).andThen fun s ↦
    if s.TooFar then ⟨s, some .overflow⟩
    else
      let x := s.cursor.column
      let s := { s with
        lines := s.lines.modify s.cursor.row (put x ⟨c, a⟩)
        cursor := { s.cursor with column := x + 1 } }
      if s.width ≤ x + 1 then s.newline else ⟨s, none⟩

def writeAll (a : Style) : List Char → Screen → Outcome Screen
  | [], s => ⟨s, none⟩
  | c :: cs, s => (s.write c a).andThen (writeAll a cs)

/-- Changes the line of the cursor, which a move that failed may have left without one. -/
def editLine (s : Screen) (f : Line → Line) : Outcome Screen :=
  if s.cursor.row < s.lines.size then ⟨{ s with lines := s.lines.modify s.cursor.row f }, none⟩
  else ⟨s, some .noSuchLine⟩

def truncateLine (s : Screen) : Outcome Screen :=
  let x := s.cursor.column
  s.editLine (·.shrink x)

def truncateBelow (s : Screen) : Screen := { s with lines := s.lines.shrink (s.cursor.row + 1) }

def blankThrough (x : Nat) (line : Line) : Line :=
  if line.size ≤ x then #[] else line.mapIdx fun i c ↦ if i ≤ x then .blank else c

def blankLineThroughCursor (s : Screen) : Outcome Screen :=
  let x := s.cursor.column
  s.editLine (blankThrough x)

def clearLine (s : Screen) : Outcome Screen := s.editLine fun _ ↦ #[]

def clearAbove (s : Screen) : Screen :=
  let row := s.cursor.row
  { s with lines := s.lines.mapIdx fun y line ↦ if y < row then #[] else line }

def clearAll (s : Screen) : Screen := { s with lines := s.lines.map fun _ ↦ #[] }

/-- The row that a number stands for, a negative one counting from the end. -/
def row? (s : Screen) (y : Int) : Option Nat :=
  let y := if y < 0 then y + s.lines.size else y
  if 0 ≤ y ∧ y < s.lines.size then some y.toNat else none

def line? (s : Screen) (y : Int) : Option Line := (s.row? y).bind (s.lines[·]?)

/-- Makes a line exist that is numbered like in `line?`. -/
def ensureLine (s : Screen) (y : Int) : Outcome Screen :=
  let o : Outcome Screen := match s.maxLines with
    | some n => if n ≤ y then ⟨s, some (Fault.lineLimit n).raised⟩ else ⟨s, none⟩
    | none => ⟨s, none⟩
  o.andThen fun s ↦
    let s := if y < 0 then s else s.extend y.toNat
    if (s.row? y).isSome then ⟨s, none⟩ else ⟨s, some .noSuchLine⟩

def text (s : Screen) : String := "\n".intercalate (s.lines.toList.map Line.text)

end Screen

end TermCapture
