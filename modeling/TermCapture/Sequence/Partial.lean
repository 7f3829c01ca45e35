import TermCapture.Sequence

namespace TermCapture.Sequence

/-- The parser of sequences, with what it has read of one whose final byte is missing; `length` counts the bytes. -/
structure Partial where
  params : Array (Option Int) := #[]
  value : Option Nat := none
  isPrivate : Bool := false
  length : Nat := 0
  deriving DecidableEq, Repr

namespace Partial

/-- What a byte comes to, and the parser behind it. -/
inductive Progress
  | more (p : Partial)
  | done (q : Sequence) (p : Partial)
  | refused (f : Fault) (p : Partial)
  deriving DecidableEq, Repr

/-- Forgets what was read. -/
def reset (p : Partial) : Partial :=
  { p with params := #[], value := none, isPrivate := false, length := 0 }

/-- An omitted parameter is a fault of strict reading. -/
def skip (strict : Bool) (p : Partial) : Except (Fault × Partial) Partial :=
  if strict then .error (.missingParameter p.params.size, p.reset)
  else .ok { p with params := p.params.push none }

/-- Ends the parameter that is being read. -/
def commit (strict : Bool) (p : Partial) : Except (Fault × Partial) Partial :=
  match p.value with
  | some n => .ok { p with params := p.params.push (some n), value := none }
  | none => p.skip strict

/-- A sequence without any parameter text has no parameters rather than an omitted one. -/
def finish (strict : Bool) (p : Partial) : Except (Fault × Partial) Partial :=
  if p.value.isNone ∧ p.params.isEmpty then .ok p else p.commit strict

def push (strict : Bool) (maxLength : Option Int) (p : Partial) (b : UInt8) : Progress :=
  let p := { p with length := p.length + 1 }
  if let some n := maxLength.filter (· < p.length) then .refused (.sequenceTooLong n) p.reset
  else if 0x30 ≤ b ∧ b ≤ 0x39 then
    .more { p with value := some (p.value.getD 0 * 10 + (b.toNat - 0x30)) }
  else if b = 0x3b then
    match p.commit strict with
    | .ok p => .more p
    | .error (f, p) => .refused f p
  else if b = 0x3f then .more { p with isPrivate := true }
  else if b = 0x20 then .more p
  else
    match p.finish strict with
    | .ok p => .done ⟨p.params.toList, b, p.isPrivate⟩ p.reset
    | .error (f, p) => .refused f p

/-- Whether the byte has ended the sequence, for good or bad. -/
def Progress.Ends : Progress → Prop
  | .more _ => False
  | _ => True

/-- The parser behind a byte. -/
def Progress.parser : Progress → Partial
  | .more p | .done _ p | .refused _ p => p

theorem reset_eq (p : Partial) : p.reset = {} := rfl

theorem parser_skip {strict : Bool} {p : Partial} {f : Fault} {p' : Partial} (h : p.skip strict = .error (f, p')) :
    p' = {} := by
  unfold skip at h
  split at h <;> cases h
  rfl

theorem parser_commit {strict : Bool} {p : Partial} {f : Fault} {p' : Partial}
    (h : p.commit strict = .error (f, p')) : p' = {} := by
  unfold commit at h
  split at h
  · cases h
  · exact parser_skip h

theorem parser_finish {strict : Bool} {p : Partial} {f : Fault} {p' : Partial}
    (h : p.finish strict = .error (f, p')) : p' = {} := by
  unfold finish at h
  split at h
  · cases h
  · exact parser_commit h

/-- The parser is ready for another sequence as soon as one has ended. -/
theorem parser_of_ends {strict : Bool} {maxLength : Option Int} {p : Partial} {b : UInt8} {r : Progress}
    (h : p.push strict maxLength b = r) (he : r.Ends) : r.parser = {} := by
  have hmore : ∀ {p' : Partial}, Progress.more p' = r → r.parser = {} := by
    rintro p' rfl
    exact he.elim
  unfold push at h
  dsimp only at h
  split at h
  · subst h
    rfl
  split at h
  · exact hmore h
  split at h
  · split at h
    · exact hmore h
    · rename_i hc
      subst h
      exact parser_commit hc
  split at h
  · exact hmore h
  split at h
  · exact hmore h
  split at h
  · subst h
    rfl
  · rename_i hf
    subst h
    exact parser_finish hf

end Partial

end TermCapture.Sequence
