import TermCapture.Markup
import TermCapture.Session

namespace TermCapture

/-- A session from the first byte to the last. -/
def Config.decode (cfg : Config) (bs : List UInt8) : Step := (Session.start cfg).read cfg bs

/-- The screen of a text, or the fault that stopped its session. -/
def Config.screen (cfg : Config) (bs : List UInt8) : Except Fault Screen :=
  let r := cfg.decode bs
  match r.fault with
  | none => .ok r.session.screen
  | some f => .error f

namespace Convert

/-- Art for the screens of its time: code page 437, control bytes shown as glyphs. -/
def artConfig (width : Int) (strict : Bool) (palette : Palette) (charset : Charset) : Config :=
  .ofLimits width strict palette charset .glyph .noLimit .noLimit .noLimit

def toHtml (bs : List UInt8) (width : Int) (strict : Bool) (palette : Palette) (charset : Charset) :
    Except Fault String :=
  ((artConfig width strict palette charset).screen bs).map (Markup.html palette).render

def toText (bs : List UInt8) (width : Int) (strict : Bool) (charset : Charset) : Except Fault String :=
  ((artConfig width strict .cga charset).screen bs).map Markup.text.render

/-- The document with default settings, and the number of its bytes in UTF-8. -/
def writeHtml (bs : List UInt8) (width : Int) : Except Fault (String × Nat) :=
  (toHtml bs width false .cga (.page .cp437)).map fun text ↦ (text, text.utf8ByteSize)

end Convert

end TermCapture
