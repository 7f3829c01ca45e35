import TermCapture.Fault

namespace TermCapture

/-- A control sequence: what follows the introducer. -/
structure Sequence where
  params : Params
  final : UInt8
  isPrivate : Bool := false
  deriving DecidableEq, Repr

namespace Sequence

/-- There is no text where a parameter is too long. -/
def text? (q : Sequence) : Option String :=
  q.params.text?.map fun t ↦
    "ESC[" ++ (if q.isPrivate then "?" else "") ++ t ++ String.singleton (Char.ofNat q.final.toNat)

/-- Digits, the semicolon, the private marker and the space go on with a sequence. Any other byte ends it. -/
def continues (b : UInt8) : Bool := (0x30 ≤ b && b ≤ 0x39) || b = 0x3b || b = 0x3f || b = 0x20

end Sequence

end TermCapture
