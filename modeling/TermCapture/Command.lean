namespace TermCapture

/-- An omitted parameter is `none`. -/
abbrev Params := List (Option Int)

inductive Command
  | up
  | down
  | forward
  | back
  | nextLine
  | previousLine
  | column
  | position
  | eraseDisplay
  | eraseLine
  | save
  | restore
  deriving DecidableEq, Repr

namespace Command

def ofByte? (b : UInt8) : Option Command :=
  match Char.ofNat b.toNat with
  | 'A' => some .up
  | 'B' => some .down
  | 'C' => some .forward
  | 'D' => some .back
  | 'E' => some .nextLine
  | 'F' => some .previousLine
  | 'G' => some .column
  | 'H' | 'f' => some .position
  | 'J' => some .eraseDisplay
  | 'K' => some .eraseLine
  | 's' => some .save
  | 'u' => some .restore
  | _ => none

/-- The mnemonic and the final bytes. -/
def label : Command → String
  | .up => "CUU A"
  | .down => "CUD B"
  | .forward => "CUF C"
  | .back => "CUB D"
  | .nextLine => "CNL E"
  | .previousLine => "CPL F"
  | .column => "CHA G"
  | .position => "CUP H/f"
  | .eraseDisplay => "ED J"
  | .eraseLine => "EL K"
  | .save => "SCP s"
  | .restore => "RCP u"

/-- The numbers of parameters that a command takes. -/
def arities : Command → String
  | .column => "1"
  | .position => "0 or 2"
  | .save | .restore => "0"
  | _ => "0 or 1"

end Command

end TermCapture
