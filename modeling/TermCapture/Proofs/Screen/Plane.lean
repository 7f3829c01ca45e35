import TermCapture.Proofs.Screen.Moves

namespace TermCapture

def Line.cell (l : Line) (x : Nat) : Cell := (l[x]?).getD .blank

/-- A screen as it is seen: a grid without end whose cells are numbered by row and column. -/
structure Plane where
  width : Nat
  maxLines : Option Int
  maxColumns : Option Int
  cell : Nat → Nat → Cell
  cursor : Cursor

/-- What a text does to a screen. A position that is read as a row is an action of its own. -/
inductive Action
  | write (c : Char) (a : Style)
  | newline
  | command (c : Command) (ps : Params)
  | row (ps : Params)

def Action.IsMove : Action → Prop
  | .write .. => False
  | .newline | .row _ => True
  | .command c _ => c ≠ .eraseLine ∧ c ≠ .eraseDisplay

namespace Cursor

/-- The cells that erasing in the line blanks: 0 those from the cursor on, 1 those through the cursor, 2 all. -/
def lineCells (c : Cursor) (n y x : Nat) : Prop :=
  y = c.row ∧ (n = 0 → c.column ≤ x) ∧ (n = 1 → x ≤ c.column)

/-- The cells that erasing in the display blanks: those in the line, and the rows below, the rows above or all. -/
def displayCells (c : Cursor) (n y x : Nat) : Prop :=
  c.lineCells n y x ∨ (n = 0 ∧ c.row < y) ∨ (n = 1 ∧ y < c.row) ∨ n = 2

instance (c : Cursor) (n y x : Nat) : Decidable (c.lineCells n y x) := inferInstanceAs (Decidable (_ ∧ _))

instance (c : Cursor) (n y x : Nat) : Decidable (c.displayCells n y x) := inferInstanceAs (Decidable (_ ∨ _))

end Cursor

namespace Screen

/-- The cells that erasing a part of the cursor's line blanks. -/
def EraseMode.inLine : EraseMode → Cursor → Nat → Nat → Bool
  | .after, c, y, x => y = c.row && c.column ≤ x
  | .before, c, y, x => y = c.row && x ≤ c.column
  | .all, c, y, _ => y = c.row

def EraseMode.inDisplay : EraseMode → Cursor → Nat → Nat → Bool
  | .after, c, y, x => EraseMode.after.inLine c y x || c.row < y
  | .before, c, y, x => EraseMode.before.inLine c y x || y < c.row
  | .all, _, _, _ => true

def view (s : Screen) (y x : Nat) : Cell := (s.rowAt y).cell x

def plane (s : Screen) : Plane := ⟨s.width, s.maxLines, s.maxColumns, s.view, s.cursor⟩

def act (s : Screen) : Action → Outcome Screen
  | .write c a => s.write c a
  | .newline => s.newline
  | .command c ps => s.perform c ps
  | .row ps => s.moveToRow ps

/-- Acts one after the other and goes on behind a fault. -/
def actAll (s : Screen) (as : List Action) : Screen := as.foldl (fun s a ↦ (s.act a).state) s

/-- No action meets a line that is too short for its column. -/
def Fits : Screen → List Action → Prop
  | _, [] => True
  | s, a :: as => (s.act a).fault ≠ some .overflow ∧ (s.act a).state.Fits as

end Screen

namespace Plane

open Screen (EraseMode single eraseMode)

def bound (p : Plane) (x : Int) : Nat :=
  match p.maxColumns with
  | some n => (min x (n - 1)).toNat
  | none => x.toNat

def within (p : Plane) (row : Nat) : Bool :=
  match p.maxLines with
  | some n => (row : Int) < n
  | none => true

/-- The cursor alone moves, whether its row is within the limit or not. -/
def moveTo (p : Plane) (column row : Option Int) : Plane :=
  { p with cursor := { p.cursor with
    column := (column.map p.bound).getD p.cursor.column
    row := (row.map Int.toNat).getD p.cursor.row } }

def newline (p : Plane) : Plane := p.moveTo (some 0) (some (p.cursor.row + 1))

def set (p : Plane) (c : Cell) : Plane :=
  { p with
    cell := fun y x ↦ if y = p.cursor.row ∧ x = p.cursor.column then c else p.cell y x
    cursor := { p.cursor with column := p.cursor.column + 1 } }

/-- Nothing is written on a row beyond the limit. -/
def write (p : Plane) (c : Char) (a : Style) : Plane :=
  if p.within p.cursor.row then
    if p.width ≤ p.cursor.column + 1 then (p.set ⟨c, a⟩).newline else p.set ⟨c, a⟩
  else p

def blank (p : Plane) (r : Nat → Nat → Bool) : Plane :=
  { p with cell := fun y x ↦ if r y x then .blank else p.cell y x }

theorem blank_congr (p : Plane) {r r' : Nat → Nat → Bool} (h : ∀ y x, r y x = r' y x) :
    p.blank r = p.blank r' := by
  rw [show r = r' from funext fun y ↦ funext (h y)]

theorem blank_blank (p : Plane) (r r' : Nat → Nat → Bool) :
    (p.blank r).blank r' = p.blank fun y x ↦ r y x || r' y x := by
  unfold blank
  congr 1
  funext y x
  cases hr : r y x <;> cases hr' : r' y x <;> simp [hr, hr']

theorem blank_eq_self (p : Plane) {r : Nat → Nat → Bool} (h : ∀ y x, r y x = true → p.cell y x = .blank) :
    p.blank r = p := by
  rw [blank]
  congr 1
  funext y x
  split
  · rename_i hr
    exact (h y x hr).symm
  · rfl

def eraseLine (p : Plane) (m : EraseMode) : Plane := p.blank (m.inLine p.cursor)

def eraseDisplay (p : Plane) : EraseMode → Plane
  | .after => p.blank (EraseMode.after.inDisplay p.cursor)
  | .before => p.blank (EraseMode.before.inDisplay p.cursor)
  | .all => (p.blank (EraseMode.all.inDisplay p.cursor)).moveTo (some 0) (some 0)

def move (p : Plane) (c : Command) (ps : Params) (f : Int → Plane) : Plane :=
  match single c 1 ps with
  | .ok n => f n
  | .error _ => p

def erase (p : Plane) (c : Command) (ps : Params) (f : EraseMode → Plane) : Plane :=
  match eraseMode c ps with
  | .ok m => f m
  | .error _ => p

def perform (p : Plane) (c : Command) (ps : Params) : Plane :=
  match c with
  | .up => p.move c ps fun n ↦ p.moveTo (some p.cursor.column) (some (p.cursor.row - n))
  | .down => p.move c ps fun n ↦ p.moveTo (some p.cursor.column) (some (p.cursor.row + n))
  | .forward => p.move c ps fun n ↦ p.moveTo (some (p.cursor.column + n)) (some p.cursor.row)
  | .back => p.move c ps fun n ↦ p.moveTo (some (p.cursor.column - n)) (some p.cursor.row)
  | .nextLine => p.move c ps fun n ↦ p.moveTo (some 0) (some (p.cursor.row + n))
  | .previousLine => p.move c ps fun n ↦ p.moveTo (some 0) (some (p.cursor.row - n))
  | .column => match ps with
    | [x] => p.moveTo (some (x.getD 1 - 1)) none
    | _ => p
  | .position => match ps with
    | [] => p.moveTo (some 0) (some 0)
    | [y, x] => p.moveTo (some (x.getD 1 - 1)) (some (y.getD 1 - 1))
    | _ => p
  | .eraseDisplay => p.erase c ps p.eraseDisplay
  | .eraseLine => p.erase c ps p.eraseLine
  | .save => match ps with
    | [] => { p with cursor := { p.cursor with
        savedColumn := p.cursor.column, savedRow := p.cursor.row } }
    | _ => p
  | .restore => match ps with
    | [] => p.moveTo (some p.cursor.savedColumn) (some p.cursor.savedRow)
    | _ => p

def act (p : Plane) : Action → Plane
  | .write c a => p.write c a
  | .newline => p.newline
  | .command c ps => p.perform c ps
  | .row ps => match ps with
    | [y] => p.moveTo (some 0) (some (y.getD 1 - 1))
    | _ => p

end Plane

end TermCapture
