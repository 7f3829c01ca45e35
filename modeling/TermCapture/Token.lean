import TermCapture.Sequence.Partial

namespace TermCapture

/-- What the bytes of a text spell. -/
inductive Token
  | byte (b : UInt8)
  | sequence (q : Sequence)
  | fault (f : Fault)
  deriving DecidableEq, Repr

namespace Tokenizer

/-- Where a text stands between two bytes: outside of sequences, behind an escape, in a sequence, or in
the rest of one that is too long. -/
inductive State
  | ground
  | escape
  | body
  | discard
  deriving DecidableEq, Repr

end Tokenizer

/-- A state and the parser beside it, which holds nothing outside of a sequence. -/
structure Tokenizer where
  state : Tokenizer.State
  parser : Sequence.Partial
  reset_of_ne : state ≠ .body → parser = {}
  deriving DecidableEq, Repr

namespace Tokenizer

open Sequence.Partial (parser_of_ends)

@[match_pattern, reducible]
def ground : Tokenizer := ⟨.ground, {}, fun _ ↦ rfl⟩

@[match_pattern, reducible]
def escape : Tokenizer := ⟨.escape, {}, fun _ ↦ rfl⟩

@[match_pattern, reducible]
def body (p : Sequence.Partial) : Tokenizer := ⟨.body, p, fun h ↦ absurd rfl h⟩

@[match_pattern, reducible]
def discard : Tokenizer := ⟨.discard, {}, fun _ ↦ rfl⟩

@[cases_eliminator, elab_as_elim]
theorem states {motive : Tokenizer → Prop} (ground : motive ground) (escape : motive escape)
    (body : ∀ p, motive (body p)) (discard : motive discard) (t : Tokenizer) : motive t := by
  obtain ⟨state, parser, hreset⟩ := t
  cases state with
  | ground =>
    obtain rfl := hreset nofun
    exact ground
  | escape =>
    obtain rfl := hreset nofun
    exact escape
  | body => exact body parser
  | discard =>
    obtain rfl := hreset nofun
    exact discard

/-- Where a sequence that is too long is refused before its end, the rest of it is dropped. -/
def afterRefusal (f : Fault) (b : UInt8) : State :=
  match f with
  | .sequenceTooLong _ => if Sequence.continues b then .discard else .ground
  | _ => .ground

theorem afterRefusal_ne (f : Fault) (b : UInt8) : afterRefusal f b ≠ .body := by
  unfold afterRefusal
  split
  · split <;> nofun
  · nofun

def next (strict : Bool) (maxLength : Option Int) (t : Tokenizer) (b : UInt8) : Tokenizer × Option Token :=
  match h : t.state with
  | .ground =>
    if b = 0x1b then (⟨.escape, t.parser, fun _ ↦ t.reset_of_ne (by simp [h])⟩, none) else (t, some (.byte b))
  | .escape =>
    if b = 0x5b then (⟨.body, t.parser.reset, fun hb ↦ absurd rfl hb⟩, none)
    else (⟨.ground, t.parser, fun _ ↦ t.reset_of_ne (by simp [h])⟩, some (.fault (.unknownEscape b)))
  | .body =>
    match hp : t.parser.push strict maxLength b with
    | .more p => (⟨.body, p, fun hb ↦ absurd rfl hb⟩, none)
    | .done q p => (⟨.ground, p, fun _ ↦ parser_of_ends hp trivial⟩, some (.sequence q))
    | .refused f p => (⟨afterRefusal f b, p, fun _ ↦ parser_of_ends hp trivial⟩, some (.fault f))
  | .discard =>
    if Sequence.continues b then (t, none)
    else (⟨.ground, t.parser, fun _ ↦ t.reset_of_ne (by simp [h])⟩, none)

/-- Gives up what is being read. -/
def drop (t : Tokenizer) : Tokenizer :=
  if t.state = .ground then t else ⟨.ground, t.parser.reset, fun _ ↦ rfl⟩

end Tokenizer

end TermCapture
