import TermCapture.Color
import TermCapture.Text.Quoted

namespace TermCapture.Color

/-- A digit per channel when every channel is a digit written twice. -/
def hexDigits (c : Color) : List Char :=
  let channels := [c.red, c.green, c.blue]
  if channels.all fun v ↦ v.fmod 17 = 0 then channels.flatMap fun v ↦ Text.hexadecimal 1 (v.fdiv 17)
  else channels.flatMap (Text.hexadecimal 2)

def hex (c : Color) : String := String.ofList ('#' :: c.hexDigits)

inductive NotationError
  | malformed (text : String)
  | channel (digits : List Char)
  deriving DecidableEq, Repr

def NotationError.message : NotationError → String
  | .malformed text => "Invalid hex color: " ++ Text.quoted text
  | .channel ds => "invalid literal for int() with base 16: " ++ Text.quoted (String.ofList ds)

def readChannel (high low : Char) : Except NotationError Int :=
  match Text.readInteger? 16 (String.ofList [high, low]) with
  | some v => .ok v
  | none => .error (.channel [high, low])

/-- Reads three or six digits behind an optional `#`. Two characters make a channel, three digits
stand for six. -/
def ofHex (text : String) : Except NotationError Color :=
  let ds := match text.toList with
    | '#' :: ds => ds
    | ds => ds
  match if ds.length = 3 then ds.flatMap fun d ↦ [d, d] else ds with
  | [r, r', g, g', b, b'] => do
    return ⟨← readChannel r r', ← readChannel g g', ← readChannel b b'⟩
  | _ => .error (.malformed text)

end TermCapture.Color
