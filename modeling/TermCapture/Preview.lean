import TermCapture.Convert
import TermCapture.Grid
import TermCapture.Preview.Page
import TermCapture.Preview.Parameter

namespace TermCapture.Preview

def maxUploadBytes : Nat := 4 * 1024 * 1024

def maxLines : Nat := 10000

def maxColumns : Nat := 1000

def maxSequenceLength : Nat := 64

/-- Why an upload is not shown. -/
inductive Rejection
  | tooLarge
  | charset (e : Charset.Unsupported)
  | palette (e : Palette.NameError)
  | fault (f : Fault)
  deriving DecidableEq, Repr

namespace Rejection

def status : Rejection → Nat
  | .tooLarge => 413
  | .charset _ | .palette _ => 400
  | .fault _ => 422

def message : Rejection → String
  | .tooLarge => "Upload too large"
  | .charset e => e.message
  | .palette e => e.message
  | .fault f => f.message

end Rejection

def config (width : Int) (strict : Bool) (palette : Palette) (charset : Charset) : Config where
  width := Screen.widthOf width
  strict := strict
  palette := palette
  charset := charset
  controlBytes := .glyph
  maxSequenceLength := some maxSequenceLength
  maxLines := some maxLines
  maxColumns := some maxColumns
  width_pos := Config.widthOf_pos width
  maxSequenceLength_pos := by simp [Preview.maxSequenceLength]
  maxLines_pos := by simp [Preview.maxLines]
  maxColumns_pos := by simp [Preview.maxColumns]

/-- What an answer does not handle: a grid without a document, and a fault that is none of the input. -/
inductive Abort
  | grid (e : Grid.Error)
  | fault (f : Fault)
  deriving DecidableEq, Repr

def Abort.message : Abort → String
  | .grid e => e.message
  | .fault f => f.message

/-- An attempt ends in a rejection, or in what is not handled. -/
abbrev Attempt := ExceptT Rejection (Except Abort)

/-- A fault of the input is rejected. -/
def refuse {α : Type} (f : Fault) : Attempt α :=
  if f.isOfInput then throw (.fault f) else ExceptT.lift (.error (.fault f))

/-- The finished session of an upload. Every session is bounded. -/
def decode (registry : Charset.Registry) (body : List UInt8) (width : Int) (palette : String)
    (charset : Option String) (strict : Bool) : Attempt (Palette × Session) := do
  if maxUploadBytes < body.length then throw .tooLarge
  let charset ← ExceptT.mk (.ok ((Charset.requested registry charset).mapError Rejection.charset))
  let palette ← ExceptT.mk (.ok ((Palette.named palette).mapError Rejection.palette))
  let r := (config width strict palette charset).decode body
  match r.fault with
  | some f => refuse f
  | none => return (palette, r.session)

/-- The defaults of requests. -/
structure App where
  width : Int := 80
  palette : Palette := .cga
  charset : Option String := some "cp437"
  deriving DecidableEq, Repr

def App.build (registry : Charset.Registry) (width : Int) (palette : String) (charset : Option String) :
    Except Rejection App := do
  let palette ← (Palette.named palette).mapError .palette
  let _ ← (Charset.requested registry charset).mapError .charset
  return { width, palette, charset }

structure Request where
  method : String
  path : String
  query : List (String × String)
  body : List UInt8
  deriving DecidableEq, Repr

/-- A document of a media type, the reason of a refusal, or the query parameters at fault. -/
inductive Content
  | document (text : String)
  | detail (text : String)
  | invalid (parameters : List String)
  deriving DecidableEq, Repr

structure Response where
  status : Nat
  type : String
  content : Content
  deriving DecidableEq, Repr

namespace Response

def html (text : String) : Response := ⟨200, "text/html; charset=utf-8", .document text⟩

def json (text : String) : Response := ⟨200, "application/json", .document text⟩

def refusal (status : Nat) (detail : String) : Response := ⟨status, "application/json", .detail detail⟩

def invalid (parameters : List String) : Response := ⟨422, "application/json", .invalid parameters⟩

end Response

/-- The settings of a request. -/
structure Query where
  width : Int
  palette : Palette
  charset : Option String
  strict : Bool
  deriving DecidableEq, Repr

namespace Query

/-- A parameter that may be missing; one that cannot be read is named. -/
def parameter {α : Type} (query : List (String × String)) (name : String) (default : α)
    (read : String → Option α) : Except (List String) α :=
  match query.lookup name with
  | none => .ok default
  | some text => match read text with
    | some a => .ok a
    | none => .error ["query." ++ name]

def faults {α : Type} : Except (List String) α → List String
  | .ok _ => []
  | .error names => names

/-- All parameters at fault are named, in the order of their names. -/
def read (app : App) (query : List (String × String)) : Except (List String) Query :=
  let width := parameter query "width" app.width Parameter.readInteger?
  let palette := parameter query "palette" app.palette fun name ↦ (Palette.named name).toOption
  let strict := parameter query "strict" false Parameter.readSwitch?
  match palette, strict, width with
  | .ok palette, .ok strict, .ok width =>
    .ok { width, palette, strict, charset := query.lookup "charset" <|> app.charset }
  | palette, strict, width => .error (faults palette ++ faults strict ++ faults width)

end Query

/-- Answers with what `answer` makes of the screen of the request's body. -/
def withScreen (registry : Charset.Registry) (app : App) (r : Request)
    (answer : Palette → Screen → Except Abort Response) : Except Abort Response :=
  match Query.read app r.query with
  | .error names => .ok (.invalid names)
  | .ok q => do
    match ← (decode registry r.body q.width q.palette.name q.charset q.strict).run with
    | .error e => return .refusal e.status e.message
    | .ok (palette, s) => answer palette s.screen

def respond (registry : Charset.Registry) (encode : Grid.Encoder) (app : App) (r : Request) :
    Except Abort Response :=
  let route (method : String) (answer : Except Abort Response) : Except Abort Response :=
    if r.method = method then answer else .ok (.refusal 405 "Method Not Allowed")
  match r.path with
  | "/" => route "GET" (.ok (.html page))
  | "/render" => route "POST"
      (withScreen registry app r fun palette s ↦ .ok (.html ((Markup.html palette).render s)))
  | "/grid" => route "POST"
      (withScreen registry app r fun _ s ↦ ((encode {} s.grid).mapError .grid).map .json)
  | _ => .ok (.refusal 404 "Not Found")

end TermCapture.Preview
