import TermCapture.Arguments
import TermCapture.Config
import TermCapture.Note

namespace TermCapture.Tool

inductive Format
  | html
  | text
  | json
  deriving DecidableEq, Repr

def Format.all : List Format := [.html, .text, .json]

def Format.name : Format → String
  | .html => "html"
  | .text => "text"
  | .json => "json"

/-- A path of one dash is the standard stream. -/
def standardStream : String := "-"

structure Options where
  input : String := standardStream
  output : Option (Setting String) := none
  format : Setting Format := .given .html
  width : Setting Int := .given 80
  strict : Bool := false
  palette : Palette := .cga
  charset : Setting Charset := .given (.page .cp437)
  controlBytes : ControlBytes := .glyph
  maxLines : Option (Setting Int) := none
  maxColumns : Option (Setting Int) := none
  maxSequenceLength : Option (Setting Int) := none
  logLevel : Level := .warning
  deriving DecidableEq, Repr

namespace Options

/-- Why options make no settings of a session. -/
inductive ConfigError
  | blankNumber
  | config (e : Config.Error)
  deriving DecidableEq, Repr

def ConfigError.message : ConfigError → String
  | .blankNumber => "'<=' not supported between instances of 'list' and 'int'"
  | .config e => e.message

def number : Setting Int → Except ConfigError Int
  | .given n => .ok n
  | .blank => .error .blankNumber

def limit (l : Limit) (s : Option (Setting Int)) : Except ConfigError Config.PositiveLimit := do
  (Config.limit l (← s.mapM number)).mapError .config

/-- A blank charset is UTF-8; a number must not be blank. -/
def config (o : Options) : Except ConfigError Config := do
  let charset := match o.charset with
    | .given c => c
    | .blank => .utf8
  let width ← number o.width
  let maxSequenceLength ← limit .sequenceLength o.maxSequenceLength
  let maxLines ← limit .lines o.maxLines
  let maxColumns ← limit .columns o.maxColumns
  return Config.ofLimits width o.strict o.palette charset o.controlBytes maxSequenceLength maxLines maxColumns

inductive Key
  | help
  | output
  | format
  | width
  | strict
  | palette
  | charset
  | controlBytes
  | maxLines
  | maxColumns
  | maxSequenceLength
  | logLevel
  | input
  deriving DecidableEq, Repr

def Key.names : Key → List String
  | .help => ["-h", "--help"]
  | .output => ["-o", "--output"]
  | .format => ["-f", "--format"]
  | .width => ["-w", "--width"]
  | .strict => ["--strict"]
  | .palette => ["-p", "--palette"]
  | .charset => ["-c", "--charset"]
  | .controlBytes => ["--control-bytes"]
  | .maxLines => ["--max-lines"]
  | .maxColumns => ["--max-columns"]
  | .maxSequenceLength => ["--max-sequence-length"]
  | .logLevel => ["-l", "--log-level"]
  | .input => ["input_path"]

def Key.switch (k : Key) : Switch Key where
  key := k
  names := k.names
  arity := if k = .help ∨ k = .strict then .none else .one

def grammar : Grammar Key where
  program := "ANSI art / terminal capture converter"
  switches := [.help, .output, .format, .width, .strict, .palette, .charset, .controlBytes, .maxLines,
    .maxColumns, .maxSequenceLength, .logLevel].map Key.switch
  operand := some .input

def readCharset (registry : Charset.Registry) (names : List String) (value : String) : Except Refusal Charset :=
  (Charset.requested registry (some value)).mapError fun _ ↦ .usage (.badValue names "charset_option" value)

/-- Options that must not be blank when a command line ends. -/
inductive Required
  | palette
  | controlBytes
  | logLevel
  deriving DecidableEq, Repr

def Required.all : List Required := [.palette, .controlBytes, .logLevel]

/-- Options while a command line is read, and those of the required ones that are blank for now. -/
structure Draft where
  options : Options := {}
  blank : List Required := []
  deriving DecidableEq, Repr

def Draft.require {α : Type} (d : Draft) (r : Required) (s : Setting α)
    (put : Options → α → Options) : Draft :=
  match s with
  | .given a => ⟨put d.options a, d.blank.filter (· ≠ r)⟩
  | .blank => { d with blank := r :: d.blank }

def take (registry : Charset.Registry) (d : Draft) (g : Given Key) : Except Refusal Draft :=
  let o := d.options
  let names := g.key.names
  let number := g.setting (readIntegerValue names)
  match g.key with
  | .help => .error .help
  | .input => return { d with options := { o with input := g.values.headD o.input } }
  | .output => return { d with options := { o with output := some (← g.setting .ok) } }
  | .format =>
    return { d with options := { o with format := ← g.setting (readChoice names Format.all Format.name) } }
  | .width => return { d with options := { o with width := ← number } }
  | .strict => return { d with options := { o with strict := true } }
  | .palette =>
    return d.require .palette (← g.setting (readChoice names Palette.all Palette.name))
      fun o p ↦ { o with palette := p }
  | .charset => return { d with options := { o with charset := ← g.setting (readCharset registry names) } }
  | .controlBytes =>
    return d.require .controlBytes (← g.setting (readChoice names ControlBytes.all ControlBytes.name))
      fun o c ↦ { o with controlBytes := c }
  | .maxLines => return { d with options := { o with maxLines := some (← number) } }
  | .maxColumns => return { d with options := { o with maxColumns := some (← number) } }
  | .maxSequenceLength => return { d with options := { o with maxSequenceLength := some (← number) } }
  | .logLevel =>
    return d.require .logLevel (← g.setting (readChoice names Level.all Level.name))
      fun o l ↦ { o with logLevel := l }

/-- Why a command line gives no options. -/
inductive Error
  | refused (r : Refusal)
  | blank (r : Required)
  deriving DecidableEq, Repr

def read (registry : Charset.Registry) (arguments : List String) : Except Error Options := do
  let d ← (grammar.read (take registry) {} arguments).mapError .refused
  match Required.all.find? d.blank.contains with
  | some r => throw (.blank r)
  | none => return d.options

end Options

end TermCapture.Tool
