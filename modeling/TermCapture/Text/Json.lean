import TermCapture.Text.Integer

namespace TermCapture.Text.Json

def escapeChar (c : Char) : List Char :=
  match c with
  | '"' => ['\\', '"']
  | '\\' => ['\\', '\\']
  | '\x08' => ['\\', 'b']
  | '\t' => ['\\', 't']
  | '\n' => ['\\', 'n']
  | '\x0c' => ['\\', 'f']
  | '\r' => ['\\', 'r']
  | c => if c.toNat < 0x20 then '\\' :: 'u' :: hexadecimal 4 c.toNat else [c]

def quote (cs : List Char) : String := String.ofList ('"' :: cs.flatMap escapeChar ++ ['"'])

/-- How objects and lists are laid out: on one line, or with their members on lines of their own. -/
structure Layout where
  indented : Bool := false
  sorted : Bool := false
  deriving DecidableEq, Repr

namespace Layout

def newline (l : Layout) (depth : Nat) : String :=
  if l.indented then "\n" ++ String.ofList (List.replicate (2 * depth) ' ') else ""

/-- Members that are written already, between brackets at a depth. -/
def enclose (l : Layout) (depth : Nat) («open» close : String) (members : List String) : String :=
  if members.isEmpty then «open» ++ close
  else
    «open» ++ l.newline (depth + 1) ++ ("," ++ l.newline (depth + 1)).intercalate members ++
      l.newline depth ++ close

def list (l : Layout) (depth : Nat) (members : List String) : String := l.enclose depth "[" "]" members

def object (l : Layout) (depth : Nat) (fields : List (String × String)) : String :=
  let fields := if l.sorted then fields.mergeSort fun a b ↦ a.1 ≤ b.1 else fields
  let colon := if l.indented then ": " else ":"
  l.enclose depth "\x7b" "\x7d" (fields.map fun f ↦ quote f.1.toList ++ colon ++ f.2)

end Layout

def bool (b : Bool) : String := if b then "true" else "false"

end TermCapture.Text.Json
