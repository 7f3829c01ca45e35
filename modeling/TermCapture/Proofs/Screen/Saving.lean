import TermCapture.Proofs.Screen.Simulation

namespace TermCapture

namespace Cursor

def place (c : Cursor) : Nat × Nat := (c.column, c.row)

def saved (c : Cursor) : Nat × Nat := (c.savedColumn, c.savedRow)

end Cursor

namespace Plane

variable (p : Plane)

theorem saved_move (c : Command) (ps : Params) {f : Int → Plane} (hf : ∀ n, (f n).cursor.saved = p.cursor.saved) :
    (p.move c ps f).cursor.saved = p.cursor.saved := by
  unfold move
  split
  · exact hf _
  · rfl

theorem saved_erase (c : Command) (ps : Params) {f : Screen.EraseMode → Plane}
    (hf : ∀ m, (f m).cursor.saved = p.cursor.saved) : (p.erase c ps f).cursor.saved = p.cursor.saved := by
  unfold erase
  split
  · exact hf _
  · rfl

theorem saved_perform {c : Command} {ps : Params} (h : c ≠ .save ∨ ps ≠ []) :
    (p.perform c ps).cursor.saved = p.cursor.saved := by
  cases c with
  | up | down | forward | back | nextLine | previousLine => exact p.saved_move _ ps fun _ ↦ rfl
  | column | position | restore =>
    unfold perform
    dsimp only
    split <;> rfl
  | eraseDisplay => exact p.saved_erase _ ps fun m ↦ by cases m <;> rfl
  | eraseLine => exact p.saved_erase _ ps fun _ ↦ rfl
  | save =>
    cases ps with
    | nil => simp at h
    | cons => rfl

theorem saved_act {a : Action} (h : a ≠ .command .save []) : (p.act a).cursor.saved = p.cursor.saved := by
  cases a with
  | write c st =>
    change (p.write c st).cursor.saved = _
    unfold write
    split_ifs <;> rfl
  | newline => rfl
  | row ps =>
    unfold act
    dsimp only
    split <;> rfl
  | command c ps =>
    refine p.saved_perform ?_
    by_cases hc : c = .save
    · exact .inr fun hps ↦ h (by rw [hc, hps])
    · exact .inl hc

end Plane

namespace Screen

variable {s : Screen}

/-- Nothing but an accepted save changes the saved place. -/
theorem saved_act {a : Action} (h : a ≠ .command .save []) :
    (s.act a).state.cursor.saved = s.cursor.saved := by
  obtain hp | hp := s.plane_act_cases a
  · rw [show (s.act a).state.cursor = (s.plane.act a).cursor from congrArg Plane.cursor hp]
    exact s.plane.saved_act h
  · exact congrArg Cursor.saved (congrArg Plane.cursor hp)

theorem saved_writeAll (a : Style) (cs : List Char) :
    (writeAll a cs s).state.cursor.saved = s.cursor.saved := by
  induction cs generalizing s with
  | nil => rfl
  | cons c cs ih =>
    have hwrite : (s.write c a).state.cursor.saved = s.cursor.saved := saved_act (a := .write c a) nofun
    exact Outcome.andThen_state (P := fun t ↦ t.cursor.saved = s.cursor.saved) hwrite fun t ht ↦ (ih (s := t)).trans ht

/-- A place within the columns is found again, with its line made if it is gone, unless it lies beyond the limit. -/
theorem restoreCursor_lands (hcolumn : ∀ n ∈ s.maxColumns, (s.cursor.savedColumn : Int) < n) :
    s.restoreCursor.state.cursor.place = s.cursor.saved ∧
      ((s.restoreCursor.fault = none ∧ s.restoreCursor.state.cursor.row < s.restoreCursor.state.lines.size) ∨
        ∃ n ∈ s.maxLines, n ≤ (s.cursor.savedRow : Int) ∧
          s.restoreCursor.fault = some (Fault.lineLimit n).raised) := by
  have hbound : s.boundColumn s.cursor.savedColumn = s.cursor.savedColumn := by
    unfold boundColumn
    cases hn : s.maxColumns with
    | none => rfl
    | some n =>
      have := hcolumn n hn
      simp only
      omega
  let moved : Screen := { s with cursor := { s.cursor with
    column := s.cursor.savedColumn, row := s.cursor.savedRow } }
  have hmove : s.restoreCursor = moved.reach s.cursor.savedRow := by
    rw [restoreCursor, moveTo_eq]
    simp only [landing, Option.map_some, Option.getD_some, hbound, Int.toNat_natCast, moved]
  rw [hmove]
  obtain ⟨-, he⟩ | ⟨n, hn, hle, he⟩ := moved.reach_cases s.cursor.savedRow
  · rw [he, cursor_extend, size_extend]
    exact ⟨rfl, .inl ⟨rfl, Nat.lt_of_lt_of_le (Nat.lt_succ_self _) (Nat.le_max_right _ _)⟩⟩
  · rw [he]
    exact ⟨rfl, .inr ⟨n, hn, hle, rfl⟩⟩

end Screen

end TermCapture
