import TermCapture.BitStream

namespace TermCapture

/-- Bytes that are read from front to back. -/
structure Source where
  rest : List UInt8
  position : Nat := 0
  deriving DecidableEq, Repr

namespace Source

inductive Error
  | unsupported (kind : String)
  deriving DecidableEq, Repr

def Error.message : Error → String
  | .unsupported kind => "Unsupported byte source: " ++ kind

def size (s : Source) : Nat := s.position + s.rest.length

def chunkSize : Nat := 8192

/-- The next bytes, at most `n`. -/
def chunk (n : Nat) (s : Source) : List UInt8 × Source :=
  (s.rest.take n, ⟨s.rest.drop n, s.position + min n s.rest.length⟩)

def stream : BitStream Source where
  length s := 8 * s.size
  pos s := 8 * s.position
  read? n s := if n ≤ s.rest.length then some (s.chunk n) else none

/-- The next chunks, at most `count`. -/
def chunks (n count : Nat) (s : Source) : List (List UInt8) × Source :=
  let d := stream.chunks n count s
  (d.chunks, d.stream)

/-- All chunks that are left. There are at most as many as there are bytes. -/
def allChunks (n : Nat) (s : Source) : List (List UInt8) × Source := s.chunks n s.rest.length

def bytes (s : Source) : List UInt8 × Source :=
  let (cs, s) := s.allChunks chunkSize
  (cs.flatten, s)

end Source

end TermCapture
