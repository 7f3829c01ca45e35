import TermCapture.Sequence

namespace TermCapture

inductive Level
  | debug
  | info
  | warning
  | error
  | critical
  deriving DecidableEq, Repr

namespace Level

def all : List Level := [.debug, .info, .warning, .error, .critical]

def name : Level → String
  | .debug => "DEBUG"
  | .info => "INFO"
  | .warning => "WARNING"
  | .error => "ERROR"
  | .critical => "CRITICAL"

def severity : Level → Nat
  | .debug => 10
  | .info => 20
  | .warning => 30
  | .error => 40
  | .critical => 50

end Level

/-- Where a note comes from. -/
inductive Channel
  | session
  | policy
  | sequence
  | rendition
  | tool
  deriving DecidableEq, Repr

/-- A line of a session's log. -/
inductive Note
  | reading (bytes : Nat)
  | endMarker (offset : Nat)
  | cutSequence (offset : Nat)
  | finished (bytes lines : Nat)
  | privateSequence (q : Sequence)
  | parsed (q : Sequence)
  | malformedColor (values : List Int)
  | tolerated (f : Fault)
  deriving DecidableEq, Repr

namespace Note

def level : Note → Level
  | .tolerated f => if f.isLimit then .warning else .debug
  | _ => .debug

def channel : Note → Channel
  | .tolerated _ => .policy
  | .parsed _ => .sequence
  | .malformedColor _ => .rendition
  | _ => .session

/-- A note with a number that is too long has no text. -/
def text? : Note → Option String
  | .reading n => some s!"Decoding {n} bytes"
  | .endMarker n => some s!"End-of-file marker at byte {n}"
  | .cutSequence n => some s!"Input ended inside an escape sequence at byte {n}"
  | .finished bytes lines => some s!"Decoded {bytes} bytes into {lines} lines"
  | .privateSequence q => q.text?.map ("Discarded private sequence " ++ ·)
  | .parsed q => q.text?.map ("Parsed " ++ ·)
  | .malformedColor vs => (vs.mapM Text.decimal?).map fun ts ↦
    "Skipped malformed extended color: [" ++ ", ".intercalate ts ++ "]"
  | .tolerated f => some ((if f.isLimit then "Resource limit reached: " else "Ignored: ") ++ f.message)

end Note

structure LogLine where
  level : Level
  channel : Channel
  text : String
  deriving DecidableEq, Repr

/-- A note without a text is not logged. -/
def Note.line? (n : Note) : Option LogLine := n.text?.map fun t ↦ ⟨n.level, n.channel, t⟩

end TermCapture
