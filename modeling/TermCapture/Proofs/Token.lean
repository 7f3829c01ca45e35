import Mathlib.Tactic.SplitIfs
import TermCapture.Token

namespace TermCapture

namespace Sequence.Partial

theorem skip_refused {strict : Bool} {p p' : Partial} {f : Fault} (h : p.skip strict = .error (f, p')) :
    ∃ n, f = .missingParameter n := by
  rw [skip] at h
  split at h <;> cases h
  exact ⟨_, rfl⟩

theorem commit_refused {strict : Bool} {p p' : Partial} {f : Fault} (h : p.commit strict = .error (f, p')) :
    ∃ n, f = .missingParameter n := by
  rw [commit] at h
  split at h
  · cases h
  · exact skip_refused h

theorem finish_refused {strict : Bool} {p p' : Partial} {f : Fault} (h : p.finish strict = .error (f, p')) :
    ∃ n, f = .missingParameter n := by
  rw [finish] at h
  split at h
  · cases h
  · exact commit_refused h

theorem push_refused {strict : Bool} {maxLength : Option Int} {p p' : Partial} {b : UInt8} {f : Fault}
    (h : p.push strict maxLength b = .refused f p') :
    (∃ n, f = .sequenceTooLong n) ∨ ∃ n, f = .missingParameter n := by
  rw [push] at h
  dsimp only at h
  split at h
  · cases h
    exact .inl ⟨_, rfl⟩
  · split_ifs at h
    · split at h <;> cases h
      rename_i hc
      exact .inr (commit_refused hc)
    · split at h <;> cases h
      rename_i hf
      exact .inr (finish_refused hf)

end Sequence.Partial

namespace Tokenizer

theorem state_eq_ground_iff {t : Tokenizer} : t.state = .ground ↔ t = ground := by
  cases t with
  | ground => exact iff_of_true rfl rfl
  | escape | body p | discard => exact iff_of_false nofun nofun

theorem drop_eq (t : Tokenizer) : t.drop = ground := by
  cases t <;> rfl

/-- The tokenizer behind a sequence that was refused at the byte `b`. -/
def behindRefusal (f : Fault) (b : UInt8) : Tokenizer := ⟨afterRefusal f b, {}, fun _ ↦ rfl⟩

theorem behindRefusal_tooLong (n : Int) (b : UInt8) :
    behindRefusal (.sequenceTooLong n) b = if Sequence.continues b then discard else ground := by
  simp only [behindRefusal, afterRefusal]
  split <;> rfl

theorem behindRefusal_cases (f : Fault) (b : UInt8) :
    ((∃ n, f = .sequenceTooLong n) ∧ Sequence.continues b = true ∧ behindRefusal f b = discard) ∨
      (¬((∃ n, f = .sequenceTooLong n) ∧ Sequence.continues b = true) ∧ behindRefusal f b = ground) := by
  cases f with
  | sequenceTooLong n =>
    cases hb : Sequence.continues b with
    | true =>
      refine .inl ⟨⟨n, rfl⟩, rfl, ?_⟩
      simp only [behindRefusal, afterRefusal, hb, if_true, discard]
    | false =>
      refine .inr ⟨by simp, ?_⟩
      simp only [behindRefusal, afterRefusal, hb, Bool.false_eq_true, if_false, ground]
  | _ => exact .inr ⟨by simp, rfl⟩

variable (strict : Bool) (maxLength : Option Int)

theorem next_ground (b : UInt8) :
    ground.next strict maxLength b = if b = 0x1b then (escape, none) else (ground, some (.byte b)) := rfl

theorem next_escape (b : UInt8) :
    escape.next strict maxLength b =
      if b = 0x5b then (body {}, none) else (ground, some (.fault (.unknownEscape b))) := rfl

theorem next_discard (b : UInt8) :
    discard.next strict maxLength b = (if Sequence.continues b then discard else ground, none) :=
  (apply_ite (·, none) _ _ _).symm

/-- The parser decides what a byte of a sequence comes to, and it has been reset when the sequence ends. -/
theorem next_body (p : Sequence.Partial) (b : UInt8) :
    (body p).next strict maxLength b = match p.push strict maxLength b with
      | .more p => (body p, none)
      | .done q _ => (ground, some (.sequence q))
      | .refused f _ => (behindRefusal f b, some (.fault f)) := by
  unfold next
  dsimp only
  split
  · rename_i hp
    rw [hp]
  · rename_i q p' hp
    obtain rfl : p' = {} := Sequence.Partial.parser_of_ends hp trivial
    simp only [hp]
  · rename_i f p' hp
    obtain rfl : p' = {} := Sequence.Partial.parser_of_ends hp trivial
    simp only [hp]
    rfl

variable {strict maxLength}

theorem next_fault {t t' : Tokenizer} {b : UInt8} {f : Fault}
    (h : t.next strict maxLength b = (t', some (.fault f))) :
    (∃ b, f = .unknownEscape b) ∨ (∃ n, f = .sequenceTooLong n) ∨ ∃ n, f = .missingParameter n := by
  cases t with
  | ground =>
    rw [next_ground] at h
    split at h <;> cases h
  | escape =>
    rw [next_escape] at h
    split at h <;> cases h
    exact .inl ⟨_, rfl⟩
  | body p =>
    rw [next_body] at h
    split at h <;> cases h
    rename_i hp
    exact .inr (Sequence.Partial.push_refused hp)
  | discard =>
    rw [next_discard] at h
    cases h

/-- Only outside of sequences a byte stands for itself. -/
theorem next_byte {t t' : Tokenizer} {b b' : UInt8} (h : t.next strict maxLength b = (t', some (.byte b'))) :
    t = ground ∧ t' = ground ∧ b' = b ∧ b ≠ 0x1b := by
  cases t with
  | ground =>
    rw [next_ground] at h
    split at h
    · cases h
    · rename_i hb
      cases h
      exact ⟨rfl, rfl, rfl, hb⟩
  | escape =>
    rw [next_escape] at h
    split at h <;> cases h
  | body p =>
    rw [next_body] at h
    split at h <;> cases h
  | discard =>
    rw [next_discard] at h
    cases h

end Tokenizer

end TermCapture
