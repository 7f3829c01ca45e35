import TermCapture.Arguments
import TermCapture.Note
import TermCapture.Palette

namespace TermCapture.Preview

structure Options where
  host : Setting String := .given "127.0.0.1"
  port : Setting Int := .given 8000
  origins : List String := ["*"]
  width : Setting Int := .given 80
  palette : Setting Palette := .given .cga
  charset : Setting String := .given "cp437"
  logLevel : Setting Level := .given .info
  deriving DecidableEq, Repr

namespace Options

inductive Key
  | help
  | host
  | port
  | origins
  | width
  | palette
  | charset
  | logLevel
  deriving DecidableEq, Repr

def Key.names : Key → List String
  | .help => ["-h", "--help"]
  | .host => ["--host"]
  | .port => ["--port"]
  | .origins => ["--cors"]
  | .width => ["-w", "--width"]
  | .palette => ["-p", "--palette"]
  | .charset => ["-c", "--charset"]
  | .logLevel => ["-l", "--log-level"]

def Key.switch (k : Key) : Switch Key where
  key := k
  names := k.names
  arity := match k with
    | .help => .none
    | .origins => .many
    | _ => .one

def grammar : Grammar Key where
  program := "ANSI Preview Server"
  switches := [.help, .host, .port, .origins, .width, .palette, .charset, .logLevel].map Key.switch
  operand := none

/-- The charset is looked up only when the service starts. -/
def take (o : Options) (g : Given Key) : Except Refusal Options :=
  let names := g.key.names
  match g.key with
  | .help => .error .help
  | .host => return { o with host := ← g.setting .ok }
  | .port => return { o with port := ← g.setting (readIntegerValue names) }
  | .origins => return { o with origins := g.values }
  | .width => return { o with width := ← g.setting (readIntegerValue names) }
  | .palette => return { o with palette := ← g.setting (readChoice names Palette.all Palette.name) }
  | .charset => return { o with charset := ← g.setting .ok }
  | .logLevel => return { o with logLevel := ← g.setting (readChoice names Level.all Level.name) }

def read (arguments : List String) : Except Refusal Options :=
  grammar.read take {} arguments

end Options

end TermCapture.Preview
