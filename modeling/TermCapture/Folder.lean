import TermCapture.Text.Quoted

namespace TermCapture

/-- A path without empty parts and single dots. `root` holds its leading slashes. -/
structure Path where
  root : String
  parts : List String
  deriving DecidableEq, Repr

namespace Path

/-- Two leading slashes differ from one, three do not. -/
def rootOf (cs : List Char) : String :=
  match (cs.takeWhile (· = '/')).length with
  | 0 => ""
  | 2 => "//"
  | _ => "/"

def ofText (text : String) : Path where
  root := rootOf text.toList
  parts := (text.splitOn "/").filter fun p ↦ p ≠ "" ∧ p ≠ "."

def text (p : Path) : String :=
  if p.root = "" ∧ p.parts = [] then "." else p.root ++ "/".intercalate p.parts

end Path

/-- Why a file cannot be read or written. -/
inductive FileError
  | missing (path : String)
  | notDirectory (path : String)
  | isDirectory (path : String)
  | nameTooLong (path : String)
  | zeroByte
  | other (message : String)
  deriving DecidableEq, Repr

def FileError.message : FileError → String
  | .missing p => "[Errno 2] No such file or directory: " ++ Text.quoted p
  | .notDirectory p => "[Errno 20] Not a directory: " ++ Text.quoted p
  | .isDirectory p => "[Errno 21] Is a directory: " ++ Text.quoted p
  | .nameTooLong p => "[Errno 36] File name too long: " ++ Text.quoted p
  | .zeroByte => "embedded null byte"
  | .other message => message

inductive Entry
  | file (bytes : List UInt8)
  | directory
  deriving DecidableEq, Repr

/-- Files and directories below the current directory, by the parts of their paths. -/
structure Folder where
  entries : List (List String × Entry)
  deriving DecidableEq, Repr

namespace Folder

/-- Where a path leads to. -/
inductive Place
  | file (parts : List String) (bytes : List UInt8)
  | directory
  | vacant (parts : List String)
  | absent
  | throughFile
  | tooLong
  deriving DecidableEq, Repr

/-- A directory need not be listed when something below it is. -/
def entry? (f : Folder) (parts : List String) : Option Entry :=
  match f.entries.find? (·.1 = parts) with
  | some e => some e.2
  | none => if f.entries.any fun e ↦ parts.isPrefixOf e.1 then some .directory else none

/-- Follows parts from a directory. Nothing but directories is known to lie outside of the folder. -/
def follow (f : Folder) : (here : List String) → List String → Place
  | _, [] => .directory
  | here, p :: ps =>
    if p = ".." then
      if here.isEmpty then (if ps.all (· = "..") then .directory else .absent)
      else f.follow here.dropLast ps
    else if 255 < p.utf8ByteSize then .tooLong
    else match f.entry? (here ++ [p]) with
      | some (.file bytes) => if ps.isEmpty then .file (here ++ [p]) bytes else .throughFile
      | some .directory => f.follow (here ++ [p]) ps
      | none => if ps.isEmpty then .vacant (here ++ [p]) else .absent

def place (f : Folder) (p : Path) : Place :=
  if 4096 ≤ p.text.utf8ByteSize then .tooLong
  else if p.root = "" then f.follow [] p.parts
  else if p.parts.isEmpty then .directory
  else .absent

def read (f : Folder) (path : String) : Except FileError (List UInt8) :=
  let p := Path.ofText path
  if path.contains '\x00' then .error .zeroByte
  else match f.place p with
    | .file _ bytes => .ok bytes
    | .directory => .error (.isDirectory p.text)
    | .vacant _ | .absent => .error (.missing p.text)
    | .throughFile => .error (.notDirectory p.text)
    | .tooLong => .error (.nameTooLong p.text)

def put (f : Folder) (parts : List String) (bytes : List UInt8) : Folder :=
  ⟨f.entries.filter (·.1 ≠ parts) ++ [(parts, .file bytes)]⟩

def write (f : Folder) (path : String) (bytes : List UInt8) : Except FileError Folder :=
  let p := Path.ofText path
  if path.contains '\x00' then .error .zeroByte
  else match f.place p with
    | .file parts _ | .vacant parts => .ok (f.put parts bytes)
    | .directory => .error (.isDirectory p.text)
    | .absent => .error (.missing p.text)
    | .throughFile => .error (.notDirectory p.text)
    | .tooLong => .error (.nameTooLong p.text)

end Folder

end TermCapture
