import TermCapture.Session
import TermCapture.Source

namespace TermCapture

/-- Ends the session behind what was fed, unless a fault has stopped it. -/
def Step.thenClose (cfg : Config) (fed : Step) : Step :=
  match fed.fault with
  | some f => ⟨fed.session, some f, fed.notes⟩
  | none =>
    let r := fed.session.close cfg
    { r with notes := fed.notes ++ r.notes }

namespace Session

variable {σ : Type}

/-- Feeds the chunks of a stream, at most `count`, until the session is finished or a fault stops it. No chunk
is read ahead. -/
def feedStream (cfg : Config) (t : BitStream σ) (n : Nat) :
    (count : Nat) → σ → Session → Except BitStream.Error Step
  | 0, _, s => .ok ⟨s, none, []⟩
  | count + 1, src, s =>
    match t.turn n src with
    | .ended => .ok ⟨s, none, []⟩
    | .broken e => .error e
    | .chunk c src =>
      let r := s.feed cfg c
      if r.fault.isSome || r.session.finished then .ok r
      else (feedStream cfg t n count src r.session).map fun r' ↦ ⟨r'.session, r'.fault, r.notes ++ r'.notes⟩

/-- Reads what is left of a stream and ends the session. There are at most as many chunks as bytes. -/
def readStream (cfg : Config) (t : BitStream σ) (src : σ) (s : Session) : Except BitStream.Error Step :=
  (feedStream cfg t Source.chunkSize (t.remaining src) src s).map fun fed ↦
    let r := fed.thenClose cfg
    { r with notes := .reading (t.size src) :: r.notes }

end Session

end TermCapture
