import TermCapture.Grid.Json
import TermCapture.Tool

namespace TermCapture.Main

def readFile (path : String) : IO (Except FileError (List UInt8)) := do
  try
    let bytes ← IO.FS.readBinFile path
    return .ok bytes.toList
  catch
    | .noFileOrDirectory .. => return .error (.missing path)
    | .inappropriateType .. => return .error (.isDirectory path)
    | e => return .error (.other (toString e))

def readStdin (stream : IO.FS.Stream) : IO (List UInt8) := do
  let mut bytes := ByteArray.empty
  let mut more := true
  while more do
    let chunk ← stream.read 65536
    more := !chunk.isEmpty
    bytes := bytes ++ chunk
  return bytes.toList

def writeFile (path text : String) : IO (Except FileError Unit) := do
  try
    IO.FS.writeBinFile path text.toUTF8
    return .ok ()
  catch
    | .noFileOrDirectory .. => return .error (.missing path)
    | .inappropriateType .. => return .error (.isDirectory path)
    | e => return .error (.other (toString e))

def printLog (o : Tool.Options) (lines : List LogLine) : IO Unit := do
  let stderr ← IO.getStderr
  for l in Tool.logged o lines do
    stderr.putStrLn s!"[{l.level.name}] {l.text}"

def write (o : Tool.Options) (text : String) : IO (Except Tool.Abort (Except FileError Unit)) := do
  match o.output with
  | some .blank => return .error .blankPath
  | some (.given path) =>
    if path ≠ Tool.standardStream then return .ok (← writeFile (Path.ofText path).text text)
  | none => pure ()
  (← IO.getStdout).putStr text
  return .ok (.ok ())

def abort (a : Tool.Abort) : IO UInt32 := do
  (← IO.getStderr).putStrLn a.message
  return 1

def fail (o : Tool.Options) (f : Tool.Failure) : IO UInt32 := do
  printLog o [f.line]
  return 1

def run (o : Tool.Options) : IO UInt32 := do
  let input ← if o.input = Tool.standardStream then
      pure (.ok (← readStdin (← IO.getStdin)))
    else readFile (Path.ofText o.input).text
  let c := Tool.convert Grid.json o input
  printLog o (c.notes.filterMap Note.line?)
  match c.result.run with
  | .error a => abort a
  | .ok (.error f) => fail o f
  | .ok (.ok text) => match ← write o text with
    | .error a => abort a
    | .ok (.error e) => fail o (.file e)
    | .ok (.ok ()) => return 0

end TermCapture.Main

def main (arguments : List String) : IO UInt32 := do
  match TermCapture.Tool.Options.read TermCapture.Charset.Registry.known arguments with
  | .ok o => TermCapture.Main.run o
  | .error (.blank r) => TermCapture.Main.abort (.blank r)
  | .error (.refused .help) =>
    let names := TermCapture.Tool.Options.grammar.switches.map fun s ↦ ", ".intercalate s.names
    (← IO.getStdout).putStrLn ("\n".intercalate (TermCapture.Tool.Options.grammar.program :: names))
    return 0
  | .error (.refused (.usage e)) =>
    (← IO.getStderr).putStrLn (TermCapture.Tool.Options.grammar.usageLine e)
    return 2
