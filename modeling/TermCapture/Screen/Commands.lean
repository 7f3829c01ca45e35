import TermCapture.Screen

namespace TermCapture.Screen

/-- The parameter of a command that takes at most one. -/
def single (c : Command) (default : Int) : Params → Except Fault Int
  | [] => .ok default
  | [p] => .ok (p.getD default)
  | ps => .error (Fault.parameterCount c ps).raised

@[inline] def move (s : Screen) (c : Command) (ps : Params) (f : Int → Outcome Screen) : Outcome Screen :=
  match single c 1 ps with
  | .ok n => f n
  | .error e => ⟨s, some e⟩

/-- From the cursor to the end, from the start through the cursor, or everything. -/
inductive EraseMode
  | after
  | before
  | all
  deriving DecidableEq, Repr

def eraseMode (c : Command) (ps : Params) : Except Fault EraseMode :=
  match single c 0 ps with
  | .ok n =>
    if n = 0 then .ok .after
    else if n = 1 then .ok .before
    else if n = 2 then .ok .all
    else .error (Fault.unsupportedMode c ps).raised
  | .error e => .error e

/-- Erasing everything also homes the cursor. -/
def eraseDisplay (s : Screen) : EraseMode → Outcome Screen
  | .after => s.truncateLine.andThen fun s ↦ ⟨s.truncateBelow, none⟩
  | .before => s.clearAbove.blankLineThroughCursor
  | .all => s.clearAll.moveTo (some 0) (some 0)

def eraseLine (s : Screen) : EraseMode → Outcome Screen
  | .after => s.truncateLine
  | .before => s.blankLineThroughCursor
  | .all => s.clearLine

@[inline] def erase (s : Screen) (c : Command) (ps : Params) (f : EraseMode → Outcome Screen) :
    Outcome Screen :=
  match eraseMode c ps with
  | .ok m => f m
  | .error e => ⟨s, some e⟩

/-- Rows and columns are numbered from one. Refused parameters leave the screen as it is. -/
def perform (s : Screen) (c : Command) (ps : Params) : Outcome Screen :=
  match c with
  | .up => s.move c ps fun n ↦ s.moveBy 0 (-n)
  | .down => s.move c ps fun n ↦ s.moveBy 0 n
  | .forward => s.move c ps fun n ↦ s.moveBy n 0
  | .back => s.move c ps fun n ↦ s.moveBy (-n) 0
  | .nextLine => s.move c ps fun n ↦ s.moveTo (some 0) (some (s.cursor.row + n))
  | .previousLine => s.move c ps fun n ↦ s.moveTo (some 0) (some (s.cursor.row - n))
  | .column => match ps with
    | [p] => s.moveTo (some (p.getD 1 - 1)) none
    | _ => ⟨s, some (Fault.parameterCount c ps).raised⟩
  | .position => match ps with
    | [] => s.moveTo (some 0) (some 0)
    | [row, column] => s.moveTo (some (column.getD 1 - 1)) (some (row.getD 1 - 1))
    | _ => ⟨s, some (Fault.parameterCount c ps).raised⟩
  | .eraseDisplay => s.erase c ps s.eraseDisplay
  | .eraseLine => s.erase c ps s.eraseLine
  | .save => match ps with
    | [] => ⟨s.saveCursor, none⟩
    | _ => ⟨s, some (Fault.parameterCount c ps).raised⟩
  | .restore => match ps with
    | [] => s.restoreCursor
    | _ => ⟨s, some (Fault.parameterCount c ps).raised⟩

/-- Reads a single parameter of a position as its row, in the first column. -/
def moveToRow (s : Screen) : Params → Outcome Screen
  | [row] => s.moveTo (some 0) (some (row.getD 1 - 1))
  | _ => ⟨s, none⟩

end TermCapture.Screen
