import TermCapture.Command
import TermCapture.Text.Quoted

namespace TermCapture

/-- Omitted parameters are empty between the semicolons. -/
def Params.text? (ps : Params) : Option String :=
  (ps.mapM fun | some n => Text.decimal? n | none => some "").map (";".intercalate ·)

/-- Why an input or an operation was refused. All but the last three are faults of the input. -/
inductive Fault
  | unknownEscape (byte : UInt8)
  | missingParameter (index : Nat)
  | parameterCount (command : Command) (params : Params)
  | unsupportedMode (command : Command) (params : Params)
  | unknownCommand (byte : UInt8)
  | unknownControl (byte : UInt8)
  | sequenceTooLong (limit : Int)
  | lineLimit (limit : Int)
  | wordless (f : Fault)
  | overflow
  | noSuchLine
  deriving DecidableEq, Repr

namespace Fault

def byteText (b : UInt8) : String := "0x" ++ String.ofList (Text.hexadecimal 2 b.toNat)

/-- There is no text where a number in it would be too long. The numbers that count what was read are short. -/
def text? : Fault → Option String
  | .unknownEscape b => some ("unrecognized ESC sequence after ESC: " ++ byteText b)
  | .missingParameter i => some ("encountered ';' without parameter at index " ++ Text.decimal i)
  | .parameterCount c ps => ps.text?.map fun t ↦ s!"{c.label}: expected {c.arities} parameters: [{t}]"
  | .unsupportedMode c ps => ps.text?.map fun t ↦ s!"{c.label}: unrecognised parameters: [{t}]"
  | .unknownCommand b =>
    some ("unrecognized CSI final byte: " ++ Text.quoted (String.singleton (Char.ofNat b.toNat)))
  | .unknownControl b => some ("unrecognized control byte: " ++ byteText b)
  | .sequenceTooLong n => some s!"CSI sequence longer than {Text.decimal n} bytes"
  | .lineLimit n => (Text.decimal? n).map fun t ↦ s!"screen exceeds {t} lines"
  | .wordless _ => some Text.tooManyDigits
  | .overflow => some "cannot fit 'int' into an index-sized integer"
  | .noSuchLine => some "list index out of range"

/-- A fault is put into words when it is raised. The one that cannot be is another fault then. -/
@[irreducible]
def raised (f : Fault) : Fault :=
  match f.text? with
  | some _ => f
  | none => .wordless f

/-- The text of a fault that was raised. -/
def message (f : Fault) : String := f.text?.getD Text.tooManyDigits

/-- The faults of a resource limit are noted louder than the others. -/
def isLimit : Fault → Bool
  | .sequenceTooLong _ | .lineLimit _ => true
  | _ => false

/-- The faults of a command that does not accept its parameters. -/
def isRefusal : Fault → Bool
  | .parameterCount .. | .unsupportedMode .. => true
  | _ => false

/-- The faults of the input, which a session reports. -/
def isOfInput : Fault → Bool
  | .wordless _ | .overflow | .noSuchLine => false
  | _ => true

end Fault

end TermCapture
