import TermCapture.Color.Notation
import TermCapture.Palette
import TermCapture.Run

namespace TermCapture

/-- What a style shows: inverse video, bold and the default foreground are resolved. -/
structure Look where
  foreground : Color
  background : Option Color
  underline : Bool
  deriving DecidableEq, Repr

/-- Inverse video swaps the colors, with the defaults in place of missing ones so that default text
stays visible. Bold is the bright color of the same slot. -/
def Style.look (p : Palette) (s : Style) : Look :=
  let (foreground, background) :=
    if s.inverse then
      (some (s.background.getD p.defaultBackground), some (s.foreground.getD p.defaultForeground))
    else (s.foreground, s.background)
  { foreground :=
      if s.bold then (foreground.map p.brighten).getD p.brightWhite
      else foreground.getD p.defaultForeground
    background
    underline := s.underline }

/-- How runs and documents are written. -/
inductive Markup
  | html (palette : Palette)
  | text
  deriving DecidableEq, Repr

namespace Markup

inductive FormatError
  | unknown (name : String)
  deriving DecidableEq, Repr

def FormatError.message : FormatError → String
  | .unknown name => Text.quoted name ++ " is not a valid OutputFormat"

def named (format : String) (palette : Palette) : Except FormatError Markup :=
  if format = "html" then .ok (.html palette)
  else if format = "text" then .ok .text
  else .error (.unknown format)

def escapeChar (c : Char) : List Char :=
  match c with
  | '&' => "&amp;".toList
  | '<' => "&lt;".toList
  | '>' => "&gt;".toList
  | '"' => "&quot;".toList
  | '\'' => "&#x27;".toList
  | c => [c]

def escapeHtml (cs : List Char) : List Char := cs.flatMap escapeChar

def foregroundRule (c : Color) : String := "color:" ++ c.hex ++ ";"

def backgroundRule (c : Color) : String := "background-color:" ++ c.hex ++ ";"

def rules (l : Look) : String :=
  foregroundRule l.foreground ++ (l.background.map backgroundRule).getD "" ++
    (if l.underline then "text-decoration:underline;" else "")

def escape : Markup → List Char → List Char
  | .html _, cs => escapeHtml cs
  | .text, cs => cs

def style : Markup → Style → String
  | .html p, s => rules (s.look p)
  | .text, _ => ""

def run : Markup → Style → List Char → String
  | .html p, s, cs =>
    "<span style=\"" ++ String.ofList (escapeHtml (style (.html p) s).toList) ++ "\">" ++ String.ofList (escapeHtml cs) ++ "</span>"
  | .text, _, cs => String.ofList cs

def document : Markup → String → String
  | .html p, body =>
    "<div style=\"" ++ foregroundRule p.defaultForeground ++ backgroundRule p.defaultBackground ++ "\">" ++
      body ++ "</div>"
  | .text, body => body

def line (m : Markup) (l : Line) : String := String.join (l.runs.map fun r ↦ m.run r.style r.chars)

def lines (m : Markup) (s : Screen) : List String := s.lines.toList.map m.line

def render (m : Markup) (s : Screen) : String := m.document ("\n".intercalate (m.lines s))

end Markup

end TermCapture
