import TermCapture.Config
import TermCapture.Note
import TermCapture.Rendition
import TermCapture.Screen.Commands
import TermCapture.Token

namespace TermCapture

/-- A text that is being read. -/
structure Session where
  screen : Screen
  style : Style := {}
  finished : Bool := false
  tokenizer : Tokenizer := .ground
  pending : Option Utf8.Pending := none
  offset : Nat := 0
  deriving DecidableEq, Repr

/-- What a session comes to, also when a fault stops it. The notes are those of this step alone. -/
structure Step where
  session : Session
  fault : Option Fault := none
  notes : List Note := []
  deriving DecidableEq, Repr

namespace Session

def start (cfg : Config) : Session where
  screen := .empty cfg.width (cfg.maxLines.map Int.ofNat) (cfg.maxColumns.map Int.ofNat)

/-- A strict session stops at a fault, any other one notes it and goes on. -/
def report (cfg : Config) (s : Session) (f : Fault) : Step :=
  if cfg.strict then ⟨s, some f, []⟩ else ⟨s, none, [.tolerated f]⟩

@[inline] def onScreen (s : Session) (f : Screen → Outcome Screen) : Step :=
  match s with
  | ⟨screen, style, finished, tokenizer, pending, offset⟩ =>
    let o := f screen
    ⟨⟨o.state, style, finished, tokenizer, pending, offset⟩, o.fault, []⟩

def put (cfg : Config) (s : Session) (b : UInt8) : Step :=
  let (cs, pending) := cfg.charset.decode s.pending b
  let a := s.style
  { s with pending := pending }.onScreen (Screen.writeAll a cs)

/-- Writes what an unfinished character stands for. -/
def flush (cfg : Config) (s : Session) : Step :=
  let cs := cfg.charset.flush s.pending
  let a := s.style
  let r := { s with pending := none }.onScreen (Screen.writeAll a cs)
  match r.fault with
  | some (.lineLimit n) => r.session.report cfg (.lineLimit n)
  | _ => r

/-- Ends the session and drops a sequence that is cut short. -/
def close (cfg : Config) (s : Session) : Step :=
  let cut : List Note := if s.tokenizer.state = .ground then [] else [.cutSequence s.offset]
  let s := { s with tokenizer := s.tokenizer.drop }
  if s.finished then ⟨s, none, cut⟩
  else
    let r := s.flush cfg
    match r.fault with
    | some f => ⟨r.session, some f, cut ++ r.notes⟩
    | none =>
      ⟨{ r.session with finished := true }, none,
        cut ++ r.notes ++ [.finished r.session.offset r.session.screen.lines.size]⟩

def control (cfg : Config) (s : Session) (b : UInt8) : Step :=
  if b = 0x00 ∨ b = 0x0d then ⟨s, none, []⟩
  else if b = 0x0a then s.onScreen (·.newline)
  else if b = 0x1a then
    let mark := s.offset
    let r := s.close cfg
    { r with notes := .endMarker mark :: r.notes }
  else match cfg.controlBytes with
    | .blank => let a := s.style; s.onScreen (·.write ' ' a)
    | .glyph => s.put cfg b
    | .ignore => s.report cfg (.unknownControl b)

/-- A position with one parameter is refused like any other wrong count. Where that is tolerated, its
parameter is read as the row. -/
def command (cfg : Config) (s : Session) (c : Command) (ps : Params) : Step :=
  let r := s.onScreen (·.perform c ps)
  match r.fault with
  | none => r
  | some f =>
    if f.isRefusal then
      let r := r.session.report cfg f
      if r.fault.isNone ∧ c = .position then
        let r' := r.session.onScreen (·.moveToRow ps)
        { r' with notes := r.notes }
      else r
    else r

def dispatch (cfg : Config) (s : Session) (q : Sequence) : Step :=
  if q.isPrivate then ⟨s, none, [.privateSequence q]⟩
  else if q.final = 0x6d then
    let malformed := Rendition.malformedCount cfg.palette (Rendition.values q.params)
    ⟨{ s with style := Rendition.apply cfg.palette q.params s.style }, none,
      List.replicate malformed (.malformedColor (Rendition.values q.params))⟩
  else match Command.ofByte? q.final with
    | none => s.report cfg (.unknownCommand q.final)
    | some c => s.command cfg c q.params

def perform (cfg : Config) (s : Session) : Token → Step
  | .byte b => if 0x20 ≤ b then s.put cfg b else s.control cfg b
  | .sequence q =>
    let r := s.dispatch cfg q
    { r with notes := .parsed q :: r.notes }
  | .fault f => s.report cfg f

/-- A screen that is full ends the session. -/
def settle (cfg : Config) (r : Step) : Step :=
  match r.fault with
  | some (.lineLimit n) =>
    let e := { r.session with finished := true }.report cfg (.lineLimit n)
    { e with notes := r.notes ++ e.notes }
  | _ => r

/-- Reads one byte. A finished session takes no more. -/
def push (cfg : Config) (s : Session) (b : UInt8) : Step :=
  if s.finished then ⟨s, none, []⟩
  else
    let (t, token) := s.tokenizer.next cfg.strict (cfg.maxSequenceLength.map Int.ofNat) b
    let s := { s with tokenizer := t, offset := s.offset + 1 }
    match token with
    | none => ⟨s, none, []⟩
    | some token => settle cfg (s.perform cfg token)

/-- Reads bytes until the session is finished or a fault stops it. `log` is the log so far, its last
note first. -/
def feedFrom (cfg : Config) : List UInt8 → Session → (log : List Note) → Step
  | [], s, log => ⟨s, none, log.reverse⟩
  | b :: bs, s, log =>
    let r := s.push cfg b
    let log := r.notes.reverseAux log
    if r.fault.isSome || r.session.finished then ⟨r.session, r.fault, log.reverse⟩
    else feedFrom cfg bs r.session log

def feed (cfg : Config) (s : Session) (bs : List UInt8) : Step := feedFrom cfg bs s []

/-- Whether a session that was fed `bs` takes more. -/
def wantsMore (bs : List UInt8) (s : Session) : Bool := bs.isEmpty || !s.finished

/-- Reads all bytes and ends the session. -/
def read (cfg : Config) (s : Session) (bs : List UInt8) : Step :=
  let fed := s.feed cfg bs
  match fed.fault with
  | some f => ⟨fed.session, some f, .reading bs.length :: fed.notes⟩
  | none =>
    let r := fed.session.close cfg
    { r with notes := .reading bs.length :: (fed.notes ++ r.notes) }

end Session

end TermCapture
