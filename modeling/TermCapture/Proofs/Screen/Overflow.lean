import TermCapture.Proofs.Screen.Bounds
import TermCapture.Proofs.Screen.Simulation

namespace TermCapture.Screen

theorem column_newline (s : Screen) : s.newline.state.cursor.column = 0 := by
  rw [newline, cursor_moveTo]
  change s.boundColumn 0 = 0
  unfold boundColumn
  split <;> omega

theorem not_tooFar_of_column {s : Screen} (h : s.cursor.column ≤ (s.rowAt s.cursor.row).size) : ¬s.TooFar := by
  rw [TooFar, Nat.sub_eq_zero_of_le h]
  exact Nat.not_lt_zero _

/-- The cell before the cursor is there once it has been written, and a line that is full is left. -/
theorem not_tooFar_of_write {s : Screen} {c : Char} {a : Style} (h : (s.write c a).fault = none) :
    ¬(s.write c a).state.TooFar := by
  rw [write] at h ⊢
  obtain ⟨-, he⟩ | ⟨n, -, -, he⟩ := s.reach_cases s.cursor.row
  · have hrow : (s.extend s.cursor.row).cursor.row < (s.extend s.cursor.row).lines.size := by
      rw [cursor_extend, size_extend]
      omega
    rw [he] at h ⊢
    generalize s.extend s.cursor.row = t at *
    dsimp only [Outcome.andThen] at h ⊢
    split_ifs at h ⊢
    · exact not_tooFar_of_column (Nat.le_trans (Nat.le_of_eq (column_newline _)) (Nat.zero_le _))
    · refine not_tooFar_of_column ?_
      dsimp only
      rw [rowAt]
      dsimp only
      rw [rowAt_modify, if_pos ⟨rfl, hrow⟩, size_put]
      omega
  · rw [he] at h
    cases h

variable {w : Nat} {L C : Option Int} {s : Screen}

/-- The line of the cursor is there, so it is only its length that may be too short. -/
theorem Ready.write_overflow_iff (h : Ready w L C s) (c : Char) (a : Style) :
    (s.write c a).fault = some .overflow ↔ s.TooFar := by
  have hextend : s.extend s.cursor.row = s := if_pos h.row_lt
  have hreach : (s.reach s.cursor.row).fault = none := by
    obtain ⟨-, he⟩ | ⟨n, hn, hle, -⟩ := s.reach_cases s.cursor.row
    · rw [he]
    · exact absurd (h.row_lt_limit n (h.maxLines_eq ▸ hn)) (by omega)
  obtain ⟨he, hfar, -⟩ | ⟨hne, hnear⟩ := s.write_cases c a
  · rw [hextend] at hfar
    rw [he]
    exact iff_of_true rfl hfar
  · rw [hextend] at hnear
    exact iff_of_false hne (hnear hreach)

/-- Only the first of some characters can be too far behind its line. -/
theorem Ready.writeAll_overflow_iff (h : Ready w L C s) (a : Style) (cs : List Char) :
    (Screen.writeAll a cs s).fault = some .overflow ↔ cs ≠ [] ∧ s.TooFar := by
  induction cs generalizing s with
  | nil => simp [Screen.writeAll]
  | cons c cs ih =>
    rw [Screen.writeAll, ← h.write_overflow_iff c a]
    have hsafe := h.write c a
    cases hf : (s.write c a).fault with
    | none =>
      have hready := hsafe.ready (by simp [hf])
      rw [Outcome.andThen_of_none hf, ih hready]
      simp [not_tooFar_of_write hf]
    | some f =>
      rw [Outcome.andThen_of_some hf]
      simp

end TermCapture.Screen
