import TermCapture.Color

namespace TermCapture

/-- The element number that `i` stands for in a list of `size` elements: a negative `i` counts from
the end, and one outside the list means its nearer end. -/
def boundFrom (size : Nat) (i : Int) : Nat :=
  (if i < 0 then i + size else min i size).toNat

def between {α : Type} (xs : List α) (first last : Int) : List α :=
  (xs.take (boundFrom xs.length last)).drop (boundFrom xs.length first)

namespace Color

inductive SelectorError
  | wrongCount (count : Nat)
  deriving DecidableEq, Repr

def SelectorError.message : SelectorError → String
  | .wrongCount n => s!"not enough values to unpack (expected 3, got {n})"

/-- The color of a true-color selector at position `i`: the three values after the selector and its
mode. There is none when the list ends before them. -/
def ofSelector? (values : List Int) (i : Int) : Except SelectorError (Option Color) :=
  if (values.length : Int) < i + 5 then .ok none
  else match between values (i + 2) (i + 5) with
    | [r, g, b] => .ok (some (clamped r g b))
    | vs => .error (.wrongCount vs.length)

end Color

end TermCapture
