import TermCapture.Proofs.Screen.Keeping

namespace TermCapture.Screen

variable {w : Nat} {L C : Option Int}

/-- A bounded screen whose cursor is on a line and can go back to a row within the limit. A column
limit below the width does not hold back the text, so the larger of the two bounds the column. -/
structure Ready (w : Nat) (L C : Option Int) (s : Screen) : Prop extends Bounded w L C s where
  row_lt : s.cursor.row < s.lines.size
  savedRow_lt : ∀ n ∈ L, (s.cursor.savedRow : Int) < n
  column_lt : ∀ n ∈ C, (s.cursor.column : Int) < max (w : Int) n

/-- Only a full screen stops an operation in a state that is not ready. -/
structure Safe (w : Nat) (L C : Option Int) (o : Outcome Screen) : Prop where
  bounded : Bounded w L C o.state
  noSuchLine : o.fault ≠ some .noSuchLine
  unnamed : ∀ n, o.fault = some (.wordless (.lineLimit n)) → ∃ k ∈ L, ¬Text.Writable k
  ready : (∀ n, o.fault ≠ some (Fault.lineLimit n).raised) → Ready w L C o.state

theorem Ready.kept {s : Screen} (h : Ready w L C s) : Kept w L C s := ⟨h.toBounded, h.column_lt⟩

theorem Kept.ready {s : Screen} (h : Kept w L C s) (hrow : s.cursor.row < s.lines.size)
    (hsaved : ∀ n ∈ L, (s.cursor.savedRow : Int) < n) : Ready w L C s :=
  ⟨h.toBounded, hrow, hsaved, h.column_lt⟩

theorem Ready.row_lt_limit {s : Screen} (h : Ready w L C s) : ∀ n ∈ L, (s.cursor.row : Int) < n := by
  intro n hn
  have hr := h.row_lt
  have hl := h.lines_le n hn
  omega

theorem Ready.safe {s : Screen} (h : Ready w L C s) : Safe w L C ⟨s, none⟩ :=
  ⟨h.toBounded, by simp, by simp, fun _ ↦ h⟩

theorem Ready.refusal {s : Screen} (h : Ready w L C s) {ps : Params} {f : Fault} (hf : Refusal ps f) :
    Safe w L C ⟨s, some f⟩ := by
  refine ⟨h.toBounded, ?_, ?_, fun _ ↦ h⟩
  · rintro ⟨⟩
    exact hf.not_ofScreen .noSuchLine
  · rintro n ⟨⟩
    exact absurd (.wordless n) hf.not_ofScreen

theorem Ready.overflow {s : Screen} (h : Ready w L C s) : Safe w L C ⟨s, some .overflow⟩ :=
  ⟨h.toBounded, by simp, by simp, fun _ ↦ h⟩

theorem Safe.andThen {o : Outcome Screen} {f : Screen → Outcome Screen} (h : Safe w L C o)
    (hf : ∀ s, Ready w L C s → Safe w L C (f s)) : Safe w L C (o.andThen f) := by
  obtain ⟨s, _ | e⟩ := o
  · exact hf s (h.ready (by simp))
  · exact h

theorem empty_ready {width : Int} (hw : 0 < widthOf width) (hL : ∀ n ∈ L, 0 < n) :
    Ready (widthOf width) L C (empty width L C) where
  width_pos := hw
  width_eq := rfl
  maxLines_eq := rfl
  maxColumns_eq := rfl
  lines_pos := by simp [empty]
  lines_le := by
    intro n hn
    have := hL n hn
    change (1 : Int) ≤ n
    omega
  line_le := by
    intro n _ line hl
    obtain rfl : line = #[] := by simpa [empty] using hl
    exact size_empty_le _ n
  row_lt := by simp [empty]
  savedRow_lt := by simpa [empty] using hL
  column_lt := by
    intro n hn
    change (0 : Int) < max (widthOf width : Int) n
    omega

theorem Kept.safe_reach {s : Screen} (h : Kept w L C s) (hs : ∀ n ∈ L, (s.cursor.savedRow : Int) < n) :
    Safe w L C (s.reach s.cursor.row) := by
  have hkept := h.reach s.cursor.row
  obtain ⟨-, he⟩ | ⟨n, hn, -, he⟩ := s.reach_cases s.cursor.row
  · rw [he] at hkept ⊢
    refine ⟨hkept.toBounded, by simp, by simp, fun _ ↦ hkept.ready ?_ ?_⟩
    · rw [cursor_extend, size_extend]
      omega
    · rwa [cursor_extend]
  · rw [he]
    refine ⟨h.toBounded, fun hf ↦ Fault.raised_lineLimit_ne_noSuchLine (Option.some.inj hf), fun k hk ↦ ?_,
      fun hn ↦ absurd rfl (hn n)⟩
    refine ⟨n, h.maxLines_eq ▸ hn, fun hw ↦ ?_⟩
    rw [Fault.raised_lineLimit.mpr hw] at hk
    cases hk

theorem Bounded.safe_moveTo {s : Screen} (h : Bounded w L C s) {column : Option Int} (row : Option Int)
    (hs : ∀ n ∈ L, (s.cursor.savedRow : Int) < n)
    (hc : column = none → ∀ n ∈ C, (s.cursor.column : Int) < max (w : Int) n) : Safe w L C (s.moveTo column row) := by
  rw [moveTo_eq]
  exact (h.landing row hc).safe_reach hs

theorem Ready.moveTo {s : Screen} (h : Ready w L C s) (column row : Option Int) :
    Safe w L C (s.moveTo column row) := h.toBounded.safe_moveTo row h.savedRow_lt fun _ ↦ h.column_lt

theorem Ready.newline {s : Screen} (h : Ready w L C s) : Safe w L C s.newline := h.moveTo _ _

theorem Ready.saveCursor {s : Screen} (h : Ready w L C s) : Ready w L C s.saveCursor where
  toBounded := h.toBounded.withCursor _
  row_lt := h.row_lt
  savedRow_lt := h.row_lt_limit
  column_lt := h.column_lt

theorem Ready.write {s : Screen} (h : Ready w L C s) (c : Char) (a : Style) :
    Safe w L C (s.write c a) := by
  refine (h.kept.safe_reach h.savedRow_lt).andThen ?_
  intro s h
  have hput := (h.kept.put ⟨c, a⟩).withCursor { s.cursor with column := s.cursor.column + 1 }
  split
  · exact h.overflow
  dsimp only
  split
  · -- the column behind the cell is out of bounds here, but the move does not read it
    exact hput.safe_moveTo _ h.savedRow_lt nofun
  · rename_i hwidth
    have hkept : Kept w L C _ := ⟨hput, h.kept.column_succ_lt hwidth⟩
    exact (hkept.ready (by simpa using h.row_lt) h.savedRow_lt).safe

theorem Ready.writeAll {s : Screen} (h : Ready w L C s) (a : Style) (cs : List Char) :
    Safe w L C (writeAll a cs s) := by
  induction cs generalizing s with
  | nil => exact h.safe
  | cons c cs ih => exact (h.write c a).andThen fun s h ↦ ih h

theorem Ready.editLine {s : Screen} (h : Ready w L C s) {f : Line → Line}
    (hf : ∀ line, (f line).size ≤ line.size) : Safe w L C (s.editLine f) := by
  have hkept := h.kept.editLine hf
  rw [Screen.editLine, if_pos h.row_lt] at hkept ⊢
  exact (hkept.ready (by simpa using h.row_lt) h.savedRow_lt).safe

theorem Ready.truncateLine {s : Screen} (h : Ready w L C s) : Safe w L C s.truncateLine := by
  refine h.editLine fun line ↦ ?_
  rw [Array.size_shrink]
  omega

theorem Ready.truncateBelow {s : Screen} (h : Ready w L C s) : Ready w L C s.truncateBelow := by
  refine h.kept.truncateBelow.ready ?_ h.savedRow_lt
  have hrow := h.row_lt
  simp only [Screen.truncateBelow, Array.size_shrink]
  omega

theorem Ready.clearAbove {s : Screen} (h : Ready w L C s) : Ready w L C s.clearAbove :=
  h.kept.clearAbove.ready (by simpa [Screen.clearAbove] using h.row_lt) h.savedRow_lt

theorem Ready.clearAll {s : Screen} (h : Ready w L C s) : Ready w L C s.clearAll :=
  h.kept.clearAll.ready (by simpa [Screen.clearAll] using h.row_lt) h.savedRow_lt

theorem Ready.eraseLine {s : Screen} (h : Ready w L C s) (m : EraseMode) : Safe w L C (s.eraseLine m) := by
  cases m with
  | after => exact h.truncateLine
  | before => exact h.editLine (size_blankThrough_le _)
  | all => exact h.editLine fun _ ↦ Nat.zero_le _

theorem Ready.eraseDisplay {s : Screen} (h : Ready w L C s) (m : EraseMode) :
    Safe w L C (s.eraseDisplay m) := by
  cases m with
  | after => exact h.truncateLine.andThen fun _ h ↦ h.truncateBelow.safe
  | before => exact h.clearAbove.editLine (size_blankThrough_le _)
  | all => exact h.clearAll.moveTo (some 0) (some 0)

theorem Ready.move {s : Screen} (h : Ready w L C s) (c : Command) (ps : Params)
    {f : Int → Outcome Screen} (hf : ∀ n, Safe w L C (f n)) : Safe w L C (s.move c ps f) := by
  rw [Screen.move]
  split
  · exact hf _
  · rename_i he
    exact h.refusal (refusal_of_single he)

theorem Ready.erase {s : Screen} (h : Ready w L C s) (c : Command) (ps : Params)
    {f : EraseMode → Outcome Screen} (hf : ∀ m, Safe w L C (f m)) : Safe w L C (s.erase c ps f) := by
  rw [Screen.erase]
  split
  · exact hf _
  · rename_i he
    exact h.refusal (refusal_of_eraseMode he)

theorem Ready.perform {s : Screen} (h : Ready w L C s) (c : Command) (ps : Params) :
    Safe w L C (s.perform c ps) := by
  cases c with
  | up | down | forward | back | nextLine | previousLine => exact h.move _ ps fun _ ↦ h.moveTo _ _
  | column | position =>
    simp only [Screen.perform]
    split
    all_goals first | exact h.moveTo _ _ | exact h.refusal (.count _ ps)
  | eraseDisplay => exact h.erase _ ps h.eraseDisplay
  | eraseLine => exact h.erase _ ps h.eraseLine
  | save =>
    simp only [Screen.perform]
    split
    · exact h.saveCursor.safe
    · exact h.refusal (.count _ ps)
  | restore =>
    simp only [Screen.perform]
    split
    · exact h.moveTo _ _
    · exact h.refusal (.count _ ps)

theorem Ready.moveToRow {s : Screen} (h : Ready w L C s) (ps : Params) : Safe w L C (s.moveToRow ps) := by
  unfold Screen.moveToRow
  split
  · exact h.moveTo _ _
  · exact h.safe

end TermCapture.Screen
