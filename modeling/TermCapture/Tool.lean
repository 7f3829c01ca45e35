import TermCapture.Convert
import TermCapture.Folder
import TermCapture.Grid
import TermCapture.Tool.Options

namespace TermCapture.Tool

/-- Why a conversion has no result. -/
inductive Failure
  | config (e : Config.Error)
  | file (e : FileError)
  | fault (f : Fault)
  | blankFormat
  deriving DecidableEq, Repr

def Failure.message : Failure → String
  | .config e => e.message
  | .file e => e.message
  | .fault f => f.message
  | .blankFormat => "[] is not a valid OutputFormat"

def Failure.line (f : Failure) : LogLine := ⟨.error, .tool, "Conversion failed: " ++ f.message⟩

/-- What a run does not handle. -/
inductive Abort
  | blank (r : Options.Required)
  | blankNumber
  | blankPath
  | grid (e : Grid.Error)
  | fault (f : Fault)
  deriving DecidableEq, Repr

def Abort.message : Abort → String
  | .blank .palette => "[] is not a valid PaletteName"
  | .blank .controlBytes => "[] is not a valid ControlBytePolicy"
  | .blank .logLevel => "[] is not a valid LogLevel"
  | .blankNumber => Options.ConfigError.blankNumber.message
  | .blankPath => "expected str, bytes or os.PathLike object, not list"
  | .grid e => e.message
  | .fault f => f.message

/-- An attempt ends in a failure that is reported, or in one that is not handled. -/
abbrev Attempt := ExceptT Failure (Except Abort)

def document (encode : Grid.Encoder) (o : Options) (s : Screen) : Attempt String :=
  match o.format with
  | .given .html => return (Markup.html o.palette).render s ++ "\n"
  | .given .text => return Markup.text.render s ++ "\n"
  | .given .json => ExceptT.lift ((encode {} s.grid).mapError .grid)
  | .blank => throw .blankFormat

/-- The faults that are reported: those of the input, and that a number is too long. -/
def handles : Fault → Bool
  | .wordless _ => true
  | f => f.isOfInput

def refuse (f : Fault) : Attempt String :=
  if handles f then throw (.fault f) else ExceptT.lift (.error (.fault f))

structure Conversion where
  notes : List Note := []
  result : Attempt String

/-- The settings are checked before the input is looked at. -/
def convert (encode : Grid.Encoder) (o : Options) (input : Except FileError (List UInt8)) : Conversion :=
  match o.config with
  | .error .blankNumber => { result := ExceptT.lift (.error .blankNumber) }
  | .error (.config e) => { result := throw (.config e) }
  | .ok cfg => match input with
    | .error e => { result := throw (.file e) }
    | .ok bs =>
      let r := cfg.decode bs
      match r.fault with
      | some f => ⟨r.notes, refuse f⟩
      | none => ⟨r.notes, document encode o r.session.screen⟩

/-- What a run leaves: its exit status, what it printed and logged, and the files. -/
structure Report where
  status : Nat := 0
  printed : String := ""
  usage : Option String := none
  log : List LogLine := []
  folder : Folder
  deriving DecidableEq, Repr

/-- The output is written only when the conversion has succeeded. -/
def deliver (o : Options) (folder : Folder) (text : String) : Attempt (String × Folder) :=
  match o.output with
  | none => return (text, folder)
  | some .blank => ExceptT.lift (.error .blankPath)
  | some (.given path) =>
    if path = standardStream then return (text, folder)
    else match folder.write path text.toUTF8.toList with
      | .ok folder => return ("", folder)
      | .error e => throw (.file e)

def readInput (o : Options) (stdin : List UInt8) (folder : Folder) : Except FileError (List UInt8) :=
  if o.input = standardStream then .ok stdin else folder.read o.input

def logged (o : Options) (lines : List LogLine) : List LogLine :=
  lines.filter fun l ↦ o.logLevel.severity ≤ l.level.severity

def runOptions (encode : Grid.Encoder) (o : Options) (stdin : List UInt8) (folder : Folder) : Except Abort Report := do
  let c := convert encode o (readInput o stdin folder)
  match ← (c.result >>= deliver o folder).run with
  | .ok (printed, folder) =>
    return { printed, log := logged o (c.notes.filterMap Note.line?), folder }
  | .error f =>
    return { status := 1, log := logged o (c.notes.filterMap Note.line? ++ [f.line]), folder }

def run (registry : Charset.Registry) (encode : Grid.Encoder) (arguments : List String) (stdin : List UInt8)
    (folder : Folder) : Except Abort Report :=
  match Options.read registry arguments with
  | .ok o => runOptions encode o stdin folder
  | .error (.refused .help) => .ok { folder }
  | .error (.refused (.usage e)) => .ok { status := 2, usage := some (Options.grammar.usageLine e), folder }
  | .error (.blank r) => .error (.blank r)

end TermCapture.Tool
