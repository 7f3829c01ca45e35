import TermCapture.Color
import TermCapture.Text.Quoted

namespace TermCapture

/-- The two sets of sixteen colors: eight base slots, then their bright ones. -/
inductive Palette
  | cga
  | xterm
  deriving DecidableEq, Repr

namespace Palette

def all : List Palette := [.cga, .xterm]

def name : Palette → String
  | .cga => "cga"
  | .xterm => "xterm"

def label : Palette → String
  | .cga => "Palette(CGA16)"
  | .xterm => "Palette(XTERM16)"

inductive NameError
  | unknown (name : String)
  deriving DecidableEq, Repr

def NameError.message : NameError → String
  | .unknown name => Text.quoted name ++ " is not a valid PaletteName"

def named (name : String) : Except NameError Palette :=
  match all.find? (·.name = name) with
  | some p => .ok p
  | none => .error (.unknown name)

def base : Palette → Fin 8 → Color
  | .cga, slot => match slot with
    | 0 => ⟨0, 0, 0⟩
    | 1 => ⟨170, 0, 0⟩
    | 2 => ⟨0, 170, 0⟩
    | 3 => ⟨170, 85, 0⟩
    | 4 => ⟨0, 0, 170⟩
    | 5 => ⟨170, 0, 170⟩
    | 6 => ⟨0, 170, 170⟩
    | 7 => ⟨170, 170, 170⟩
  | .xterm, slot => match slot with
    | 0 => ⟨0, 0, 0⟩
    | 1 => ⟨128, 0, 0⟩
    | 2 => ⟨0, 128, 0⟩
    | 3 => ⟨128, 128, 0⟩
    | 4 => ⟨0, 0, 128⟩
    | 5 => ⟨128, 0, 128⟩
    | 6 => ⟨0, 128, 128⟩
    | 7 => ⟨192, 192, 192⟩

def bright : Palette → Fin 8 → Color
  | .cga, slot => match slot with
    | 0 => ⟨85, 85, 85⟩
    | 1 => ⟨255, 85, 85⟩
    | 2 => ⟨85, 255, 85⟩
    | 3 => ⟨255, 255, 85⟩
    | 4 => ⟨85, 85, 255⟩
    | 5 => ⟨255, 85, 255⟩
    | 6 => ⟨85, 255, 255⟩
    | 7 => ⟨255, 255, 255⟩
  | .xterm, slot => match slot with
    | 0 => ⟨128, 128, 128⟩
    | 1 => ⟨255, 0, 0⟩
    | 2 => ⟨0, 255, 0⟩
    | 3 => ⟨255, 255, 0⟩
    | 4 => ⟨0, 0, 255⟩
    | 5 => ⟨255, 0, 255⟩
    | 6 => ⟨0, 255, 255⟩
    | 7 => ⟨255, 255, 255⟩

def colors (p : Palette) : List Color := (List.finRange 8).map p.base ++ (List.finRange 8).map p.bright

def defaultForeground (p : Palette) : Color := p.base 7

def defaultBackground (p : Palette) : Color := p.base 0

def brightWhite (p : Palette) : Color := p.bright 7

/-- The base slot of a number from 0 to 7. -/
def slot? (code : Int) : Option (Fin 8) :=
  if h : 0 ≤ code ∧ code < 8 then some ⟨code.toNat, by omega⟩ else none

def basic? (p : Palette) (code : Int) : Option Color := (slot? code).map p.base

def brightBasic? (p : Palette) (code : Int) : Option Color := (slot? code).map p.bright

/-- The color of an 8-bit index: base slots, bright slots, cube, gray ramp. -/
def color? (p : Palette) (index : Int) : Option Color :=
  p.basic? index <|> p.brightBasic? (index - 8) <|> Color.indexed? index

/-- Replaces a base color by the bright one of its slot and leaves any other color alone. -/
def brighten (p : Palette) (c : Color) : Color :=
  match (List.finRange 8).find? fun slot ↦ p.base slot = c with
  | some slot => p.bright slot
  | none => c

end Palette

end TermCapture
