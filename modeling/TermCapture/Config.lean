import TermCapture.Charset
import TermCapture.Palette
import TermCapture.Screen

namespace TermCapture

/-- What becomes of the control bytes without a meaning of their own. -/
inductive ControlBytes
  | ignore
  | blank
  | glyph
  deriving DecidableEq, Repr

namespace ControlBytes

def all : List ControlBytes := [.ignore, .blank, .glyph]

def name : ControlBytes → String
  | .ignore => "ignore"
  | .blank => "blank"
  | .glyph => "glyph"

end ControlBytes

inductive Limit
  | sequenceLength
  | lines
  | columns
  deriving DecidableEq, Repr

def Limit.name : Limit → String
  | .sequenceLength => "max_sequence_length"
  | .lines => "max_lines"
  | .columns => "max_columns"

/-- The settings of a session. Limits are positive. -/
structure Config where
  width : Nat := Screen.defaultWidth
  strict : Bool := false
  palette : Palette := .cga
  charset : Charset := .utf8
  controlBytes : ControlBytes := .ignore
  maxSequenceLength : Option Nat := none
  maxLines : Option Nat := none
  maxColumns : Option Nat := none
  width_pos : 0 < width := by decide
  maxSequenceLength_pos : ∀ n ∈ maxSequenceLength, 0 < n := by decide
  maxLines_pos : ∀ n ∈ maxLines, 0 < n := by decide
  maxColumns_pos : ∀ n ∈ maxColumns, 0 < n := by decide
  deriving DecidableEq, Repr

namespace Config

inductive Error
  | charset (e : Charset.NameError)
  | palette (e : Palette.NameError)
  | controlBytes (name : String)
  | notPositive (limit : Limit) (value : Int)
  deriving DecidableEq, Repr

def Error.message : Error → String
  | .charset e => e.message
  | .palette e => e.message
  | .controlBytes name => Text.quoted name ++ " is not a valid ControlBytePolicy"
  | .notPositive l n => match Text.decimal? n with
    | some t => s!"{l.name} must be positive, got {t}"
    | none => Text.tooManyDigits

theorem widthOf_pos (width : Int) : 0 < Screen.widthOf width := by
  unfold Screen.widthOf Screen.defaultWidth
  split <;> omega

abbrev PositiveLimit := { n : Option Nat // ∀ k ∈ n, 0 < k }

def PositiveLimit.noLimit : PositiveLimit := ⟨none, by decide⟩

def limit (l : Limit) : Option Int → Except Error PositiveLimit
  | none => .ok .noLimit
  | some n => if h : n ≤ 0 then .error (.notPositive l n) else .ok ⟨some n.toNat, by simp; omega⟩

/-- A width that is not positive means the default one. -/
def ofLimits (width : Int) (strict : Bool) (palette : Palette) (charset : Charset)
    (controlBytes : ControlBytes) (maxSequenceLength maxLines maxColumns : PositiveLimit) : Config where
  width := Screen.widthOf width
  strict := strict
  palette := palette
  charset := charset
  controlBytes := controlBytes
  maxSequenceLength := maxSequenceLength.val
  maxLines := maxLines.val
  maxColumns := maxColumns.val
  width_pos := widthOf_pos width
  maxSequenceLength_pos := maxSequenceLength.property
  maxLines_pos := maxLines.property
  maxColumns_pos := maxColumns.property

def make (width : Int) (strict : Bool) (palette : Palette) (charset : Charset)
    (controlBytes : ControlBytes) (maxSequenceLength maxLines maxColumns : Option Int) :
    Except Error Config := do
  let maxSequenceLength ← limit .sequenceLength maxSequenceLength
  let maxLines ← limit .lines maxLines
  let maxColumns ← limit .columns maxColumns
  return ofLimits width strict palette charset controlBytes maxSequenceLength maxLines maxColumns

end Config

/-- Settings as they are written down. -/
structure Settings where
  width : Int := 80
  strict : Bool := false
  palette : String := "cga"
  charset : Option String := none
  controlBytes : String := "ignore"
  maxSequenceLength : Option Int := none
  maxLines : Option Int := none
  maxColumns : Option Int := none
  deriving DecidableEq, Repr

namespace Settings

def controlBytesNamed (name : String) : Except Config.Error ControlBytes :=
  match ControlBytes.all.find? (·.name = name) with
  | some c => .ok c
  | none => .error (.controlBytes name)

/-- The first fault is that of the charset, the last ones those of the limits. -/
def config (r : Charset.Registry) (s : Settings) : Except Config.Error Config := do
  let charset ← (Charset.named r s.charset).mapError .charset
  let palette ← (Palette.named s.palette).mapError .palette
  let controlBytes ← controlBytesNamed s.controlBytes
  Config.make s.width s.strict palette charset controlBytes s.maxSequenceLength s.maxLines s.maxColumns

end Settings

end TermCapture
