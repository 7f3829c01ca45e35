import TermCapture.Charset.CodePage

namespace TermCapture.Utf8

/-- A character that is not complete. `lacking` needs a byte between `low` and `high` and `after` more
bytes. `surrogateLead` is the byte 0xed alone, and `surrogate` is one with a second byte that no
character has: the two are replaced only when the next byte comes. -/
inductive Pending
  | lacking (code after : Nat) (low high : UInt8)
  | surrogateLead
  | surrogate
  deriving DecidableEq, Repr

/-- The first byte of a character. The bounds on the second one leave out overlong forms and numbers
beyond the last character. -/
def first (b : UInt8) : List Char × Option Pending :=
  if b < 0x80 then ([Char.ofNat b.toNat], none)
  else if 0xc2 ≤ b ∧ b ≤ 0xdf then ([], some (.lacking (b.toNat - 0xc0) 0 0x80 0xbf))
  else if b = 0xe0 then ([], some (.lacking 0 1 0xa0 0xbf))
  else if b = 0xed then ([], some .surrogateLead)
  else if 0xe1 ≤ b ∧ b ≤ 0xef then ([], some (.lacking (b.toNat - 0xe0) 1 0x80 0xbf))
  else if b = 0xf0 then ([], some (.lacking 0 2 0x90 0xbf))
  else if b = 0xf4 then ([], some (.lacking 4 2 0x80 0x8f))
  else if 0xf1 ≤ b ∧ b ≤ 0xf3 then ([], some (.lacking (b.toNat - 0xf0) 2 0x80 0xbf))
  else ([CodePage.replacement], none)

/-- What pending bytes are replaced by. -/
def Pending.replaced : Pending → List Char
  | .surrogate => [CodePage.replacement, CodePage.replacement]
  | _ => [CodePage.replacement]

/-- A byte that cannot continue the pending bytes replaces them and is read on its own. -/
def restart (p : Pending) (b : UInt8) : List Char × Option Pending :=
  (p.replaced ++ (first b).1, (first b).2)

def next : Option Pending → UInt8 → List Char × Option Pending
  | none, b => first b
  | some (.lacking code after low high), b =>
    if low ≤ b ∧ b ≤ high then
      let code := code * 64 + (b.toNat - 0x80)
      match after with
      | 0 => ([Char.ofNat code], none)
      | n + 1 => ([], some (.lacking code n 0x80 0xbf))
    else restart (.lacking code after low high) b
  | some .surrogateLead, b =>
    if 0x80 ≤ b ∧ b ≤ 0x9f then ([], some (.lacking (0xd * 64 + (b.toNat - 0x80)) 0 0x80 0xbf))
    else if 0xa0 ≤ b ∧ b ≤ 0xbf then ([], some .surrogate)
    else restart .surrogateLead b
  | some .surrogate, b => restart .surrogate b

/-- The end of the text replaces the pending bytes. -/
def flush : Option Pending → List Char
  | none => []
  | some p => p.replaced

end TermCapture.Utf8
