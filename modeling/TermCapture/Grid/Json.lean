import TermCapture.Grid
import TermCapture.Text.Json

namespace TermCapture.Grid

open Text.Json

def colorJson : Option String → String
  | some c => quote c.toList
  | none => "null"

def cellJson (l : Layout) (depth : Nat) (c : GridCell) : String :=
  l.object depth [
    ("char", quote [c.char]),
    ("fg", colorJson c.foreground),
    ("bg", colorJson c.background),
    ("bold", bool c.bold),
    ("underline", bool c.underline),
    ("inverse", bool c.inverse)]

/-- An encoder, which refuses the widths that do not fit into 64 bits. -/
def json : Encoder := fun o g ↦
  if UInt64.size ≤ g.width then .error ⟨"Integer exceeds 64-bit range"⟩
  else
    let layout : Layout := ⟨o.indented, o.sorted⟩
    let line (cs : List GridCell) := layout.list 2 (cs.map (cellJson layout 3))
    let text := layout.object 0 [
      ("width", Text.decimal g.width),
      ("lines", layout.list 1 (g.lines.map line))]
    .ok (if o.finalNewline then text ++ "\n" else text)

end TermCapture.Grid
