namespace TermCapture

/-- Channels are unbounded; every color that a captured text can select has them in 0 to 255. -/
structure Color where
  red : Int
  green : Int
  blue : Int
  deriving DecidableEq, Repr

/-- The lower bound wins over an upper bound below it. -/
def clamp (low high value : Int) : Int := max low (min value high)

namespace Color

def gray (level : Int) : Color := ⟨level, level, level⟩

def clamped (red green blue : Int) : Color :=
  ⟨clamp 0 255 red, clamp 0 255 green, clamp 0 255 blue⟩

/-- A step of the color cube; the steps are evenly spaced but for the first. -/
def cubeLevel (step : Int) : Int := if step = 0 then 0 else 55 + step * 40

/-- The 6 × 6 × 6 cube, whose entries are numbered from 16. -/
def cube (index : Int) : Color :=
  let n := index - 16
  ⟨cubeLevel (n.fdiv 36), cubeLevel ((n.fmod 36).fdiv 6), cubeLevel (n.fmod 6)⟩

/-- The gray ramp, whose entries are numbered from 232. -/
def ramp (index : Int) : Color := gray (clamp 0 255 (8 + (index - 232) * 10))

/-- The colors of an 8-bit index that are the same in every palette. -/
def indexed? (index : Int) : Option Color :=
  if 16 ≤ index ∧ index ≤ 231 then some (cube index)
  else if 232 ≤ index ∧ index ≤ 255 then some (ramp index)
  else none

end Color

end TermCapture
