import TermCapture.Cell
import TermCapture.Command
import TermCapture.Palette

namespace TermCapture.Rendition

/-- The color that the values after a 38 or 48 select, if they select one, and the values that are
left. A selector that lacks values takes all that there are. -/
def extended (p : Palette) : List Int → Option Color × List Int
  | [] => (none, [])
  | 5 :: [] => (none, [])
  | 5 :: n :: vs => (p.color? n, vs)
  | 2 :: r :: g :: b :: vs => (some (Color.clamped r g b), vs)
  | 2 :: _ => (none, [])
  | _ :: vs => (none, vs)

theorem length_extended_le (p : Palette) (vs : List Int) : (extended p vs).2.length ≤ vs.length := by
  unfold extended
  split <;> simp <;> omega

/-- The effect of a code that stands for itself. Unknown codes have none. -/
def single (p : Palette) (code : Int) (a : Style) : Style :=
  if code = 0 then {}
  else if code = 1 then { a with bold := true }
  else if code = 21 ∨ code = 22 then { a with bold := false }
  else if code = 4 then { a with underline := true }
  else if code = 24 then { a with underline := false }
  else if code = 7 then { a with inverse := true }
  else if code = 27 then { a with inverse := false }
  else if code = 39 then { a with foreground := none }
  else if code = 49 then { a with background := none }
  else if 30 ≤ code ∧ code ≤ 37 then { a with foreground := p.basic? (code - 30) }
  else if 40 ≤ code ∧ code ≤ 47 then { a with background := p.basic? (code - 40) }
  else if 90 ≤ code ∧ code ≤ 97 then { a with foreground := p.brightBasic? (code - 90) }
  else if 100 ≤ code ∧ code ≤ 107 then { a with background := p.brightBasic? (code - 100) }
  else a

def setExtended (code : Int) (color : Option Color) (a : Style) : Style :=
  match color with
  | none => a
  | some c => if code = 38 then { a with foreground := some c } else { a with background := some c }

def applyValues (p : Palette) : List Int → Style → Style
  | [], a => a
  | v :: vs, a =>
    if v = 38 ∨ v = 48 then applyValues p (extended p vs).2 (setExtended v (extended p vs).1 a)
    else applyValues p vs (single p v a)
  termination_by vs => vs.length
  decreasing_by
    · have := length_extended_le p vs
      simp only [List.length_cons]
      omega
    · simp

/-- How many selectors select no color. -/
def malformedCount (p : Palette) : List Int → Nat
  | [] => 0
  | v :: vs =>
    if v = 38 ∨ v = 48 then
      (if (extended p vs).1.isNone then 1 else 0) + malformedCount p (extended p vs).2
    else malformedCount p vs
  termination_by vs => vs.length
  decreasing_by
    · have := length_extended_le p vs
      simp only [List.length_cons]
      omega
    · simp

def values (ps : Params) : List Int := ps.map (·.getD 0)

/-- No parameters at all reset the style; an omitted one is a zero. -/
def apply (p : Palette) (ps : Params) (a : Style) : Style :=
  if ps.isEmpty then {} else applyValues p (values ps) a

end TermCapture.Rendition
