import TermCapture.Charset.Encoding
import TermCapture.Charset.Utf8
import TermCapture.Text.Quoted

namespace TermCapture

inductive Charset
  | page (page : CodePage)
  | utf8
  deriving DecidableEq, Repr

namespace Charset

/-- The characters that a byte completes and what is pending after it. -/
def decode : Charset → Option Utf8.Pending → UInt8 → List Char × Option Utf8.Pending
  | .page p, _, b => ([p.char b], none)
  | .utf8, pending, b => Utf8.next pending b

def flush : Charset → Option Utf8.Pending → List Char
  | .page _, _ => []
  | .utf8, pending => Utf8.flush pending

def label : Charset → String
  | .page p => "CodecCharset(" ++ Text.quoted p.name ++ ")"
  | .utf8 => "Utf8Charset()"

inductive NameError
  | unknown (name : String)
  | multiByte (name : String)
  | transform (encoding : String)
  | zeroCharacter
  deriving DecidableEq, Repr

def NameError.message : NameError → String
  | .unknown name => "unknown encoding: " ++ name
  | .multiByte name => name ++ " is not a single-byte encoding"
  | .transform encoding => Text.quoted encoding ++
      " is not a text encoding; use codecs.decode() to handle arbitrary codecs"
  | .zeroCharacter => "embedded null character"

/-- Looks up what a name stands for. -/
abbrev Registry := String → Except NameError Encoding

/-- The encodings that are known here. -/
def Registry.known : Registry := fun name ↦
  if name.contains '\x00' then .error .zeroCharacter
  else match Encoding.ofName? name with
    | some e => .ok e
    | none => .error (.unknown name)

/-- The table of a name. The one of UTF-8 is ASCII alone. -/
def codePage (r : Registry) (name : String) : Except NameError CodePage := do
  match ← r name with
  | .page p => return p
  | .utf8 => return .utf8
  | .multiByte => throw (.multiByte name)
  | .transform e => throw (.transform e)

/-- No name is UTF-8. -/
def named (r : Registry) : Option String → Except NameError Charset
  | none => .ok .utf8
  | some name => do
    if (← r name) = .utf8 then return .utf8
    return .page (← codePage r name)

/-- A charset that was asked for and cannot be used, for whatever reason. -/
structure Unsupported where
  name : String
  deriving DecidableEq, Repr

def Unsupported.message (e : Unsupported) : String := "Unsupported charset: " ++ e.name

def requested (r : Registry) : Option String → Except Unsupported Charset
  | none => .ok .utf8
  | some name => (named r (some name)).mapError fun _ ↦ ⟨name⟩

end Charset

end TermCapture
