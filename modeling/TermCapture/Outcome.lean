import TermCapture.Fault

namespace TermCapture

/-- What an operation leaves, also when it fails half-way. -/
structure Outcome (σ : Type) where
  state : σ
  fault : Option Fault := none

namespace Outcome

variable {σ : Type}

@[inline] def andThen (o : Outcome σ) (f : σ → Outcome σ) : Outcome σ :=
  match o with
  | ⟨s, none⟩ => f s
  | ⟨s, some e⟩ => ⟨s, some e⟩

end Outcome

end TermCapture
