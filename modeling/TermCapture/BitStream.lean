namespace TermCapture

/-- A stream of bits as whoever holds them offers it. Its length and position count bits. Reading asks for whole
bytes and fails where the stream ends before. -/
structure BitStream (σ : Type) where
  length : σ → Nat
  pos : σ → Nat
  read? : (bytes : Nat) → σ → Option (List UInt8 × σ)

namespace BitStream

inductive Error
  | unexpectedEnd
  deriving DecidableEq, Repr

def Error.message : Error → String
  | .unexpectedEnd => "unexpected end of stream"

/-- What the reading of one more chunk comes to. -/
inductive Turn (σ : Type)
  | ended
  | chunk (bs : List UInt8) (s : σ)
  | broken (e : Error)
  deriving DecidableEq, Repr

/-- Chunks that were read and the stream behind them, also when an error stopped the reading. -/
structure Delivery (σ : Type) where
  chunks : List (List UInt8)
  stream : σ
  error : Option Error := none
  deriving DecidableEq, Repr

variable {σ : Type} (t : BitStream σ)

def size (s : σ) : Nat := t.length s / 8

def position (s : σ) : Nat := t.pos s / 8

def remaining (s : σ) : Nat := t.size s - t.position s

/-- Reads at most `n` bytes, as long as there are any. -/
def turn (n : Nat) (s : σ) : Turn σ :=
  if t.remaining s = 0 then .ended
  else match t.read? (min n (t.remaining s)) s with
    | some (bs, s) => .chunk bs s
    | none => .broken .unexpectedEnd

/-- The next chunks, at most `count`. They are as long as `n` says but for the last one of the stream. -/
def chunks (n : Nat) : (count : Nat) → σ → Delivery σ
  | 0, s => ⟨[], s, none⟩
  | count + 1, s =>
    match t.turn n s with
    | .ended => ⟨[], s, none⟩
    | .broken e => ⟨[], s, some e⟩
    | .chunk c s =>
      let d := chunks n count s
      { d with chunks := c :: d.chunks }

end BitStream

end TermCapture
