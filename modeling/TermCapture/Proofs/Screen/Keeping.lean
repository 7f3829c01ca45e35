import TermCapture.Proofs.Screen.Plane

namespace TermCapture.Screen

variable {w : Nat} {L C : Option Int} {s : Screen}

/-- The limits of a screen are kept, wherever its cursor is. -/
structure Bounded (w : Nat) (L C : Option Int) (s : Screen) : Prop where
  width_pos : 0 < w
  width_eq : s.width = w
  maxLines_eq : s.maxLines = L
  maxColumns_eq : s.maxColumns = C
  lines_pos : 0 < s.lines.size
  lines_le : ∀ n ∈ L, (s.lines.size : Int) ≤ n
  line_le : ∀ n ∈ C, ∀ line ∈ s.lines, (line.size : Int) ≤ max (w : Int) n

/-- A bounded screen whose cursor may stand below the last line, where a fault has left it. -/
structure Kept (w : Nat) (L C : Option Int) (s : Screen) : Prop extends Bounded w L C s where
  column_lt : ∀ n ∈ C, (s.cursor.column : Int) < max (w : Int) n

theorem size_empty_le (w : Nat) (n : Int) : ((#[] : Line).size : Int) ≤ max (w : Int) n := by
  rw [Array.size_empty]
  omega

theorem Bounded.extend {row : Nat} (h : Bounded w L C s)
    (hr : ∀ n ∈ L, (row : Int) < n) : Bounded w L C (s.extend row) where
  width_pos := h.width_pos
  width_eq := by unfold Screen.extend; split <;> exact h.width_eq
  maxLines_eq := by unfold Screen.extend; split <;> exact h.maxLines_eq
  maxColumns_eq := by unfold Screen.extend; split <;> exact h.maxColumns_eq
  lines_pos := by have := h.lines_pos; rw [size_extend]; omega
  lines_le := by
    intro n hn
    have hl := h.lines_le n hn
    have := hr n hn
    rw [size_extend]
    omega
  line_le := by
    intro n hn line hl
    obtain hl | rfl := mem_extend hl
    · exact h.line_le n hn line hl
    · exact size_empty_le w n

theorem Bounded.withCursor (h : Bounded w L C s) (cursor : Cursor) : Bounded w L C { s with cursor := cursor } :=
  ⟨h.width_pos, h.width_eq, h.maxLines_eq, h.maxColumns_eq, h.lines_pos, h.lines_le, h.line_le⟩

theorem Bounded.withLines (h : Bounded w L C s) {lines : Array Line} (hpos : 0 < lines.size)
    (hsize : lines.size ≤ s.lines.size) (hline : ∀ n ∈ C, ∀ line ∈ lines, (line.size : Int) ≤ max (w : Int) n) :
    Bounded w L C { s with lines := lines } where
  width_pos := h.width_pos
  width_eq := h.width_eq
  maxLines_eq := h.maxLines_eq
  maxColumns_eq := h.maxColumns_eq
  lines_pos := hpos
  lines_le := by
    intro n hn
    have := h.lines_le n hn
    change (lines.size : Int) ≤ n
    omega
  line_le := hline

theorem boundColumn_lt (h : Bounded w L C s) (x : Int) :
    ∀ n ∈ C, (s.boundColumn x : Int) < max (w : Int) n := by
  intro n hn
  have hw := h.width_pos
  have hs : s.maxColumns = some n := h.maxColumns_eq.trans hn
  simp only [boundColumn, hs]
  omega

theorem size_put (x : Nat) (c : Cell) (line : Line) : (put x c line).size = max line.size (x + 1) := by
  rw [put]
  split
  · rw [Array.size_setIfInBounds]
    omega
  · simp only [Array.size_push, Array.size_append, Array.size_replicate]
    omega

theorem mem_modify {lines : Array Line} {row : Nat} {f : Line → Line} {line : Line}
    (h : line ∈ lines.modify row f) : line ∈ lines ∨ ∃ l ∈ lines, line = f l := by
  obtain ⟨y, hy, rfl⟩ := Array.mem_iff_getElem.mp h
  rw [Array.size_modify] at hy
  rw [Array.getElem_modify]
  split
  · exact .inr ⟨lines[y], Array.getElem_mem hy, rfl⟩
  · exact .inl (Array.getElem_mem hy)

theorem size_blankThrough_le (x : Nat) (line : Line) : (blankThrough x line).size ≤ line.size := by
  rw [blankThrough]
  split <;> simp

theorem Bounded.landing (h : Bounded w L C s) {column : Option Int} (row : Option Int)
    (hc : column = none → ∀ n ∈ C, (s.cursor.column : Int) < max (w : Int) n) :
    Kept w L C { s with cursor := s.landing column row } := by
  refine ⟨h.withCursor _, fun n hn ↦ ?_⟩
  cases column with
  | none => exact hc rfl n hn
  | some x => exact boundColumn_lt h x n hn

/-- A row beyond the limit gets no line. -/
theorem Kept.reach (h : Kept w L C s) (row : Nat) : Kept w L C (s.reach row).state := by
  obtain ⟨hr, he⟩ | ⟨n, -, -, he⟩ := s.reach_cases row
  · rw [h.maxLines_eq] at hr
    rw [he]
    refine ⟨h.toBounded.extend hr, ?_⟩
    rw [cursor_extend]
    exact h.column_lt
  · rw [he]
    exact h

theorem Bounded.kept_moveTo (h : Bounded w L C s) {column : Option Int} (row : Option Int)
    (hc : column = none → ∀ n ∈ C, (s.cursor.column : Int) < max (w : Int) n) :
    Kept w L C (s.moveTo column row).state := by
  rw [moveTo_eq]
  exact (h.landing row hc).reach _

theorem Kept.moveTo (h : Kept w L C s) (column row : Option Int) : Kept w L C (s.moveTo column row).state :=
  h.toBounded.kept_moveTo row fun _ ↦ h.column_lt

/-- A line gets no longer than the limit, because the cursor is within it. -/
theorem Kept.put (h : Kept w L C s) (c : Cell) :
    Bounded w L C { s with lines := s.lines.modify s.cursor.row (Screen.put s.cursor.column c) } := by
  have hsize : (s.lines.modify s.cursor.row (Screen.put s.cursor.column c)).size = s.lines.size := Array.size_modify
  refine h.toBounded.withLines (hsize ▸ h.lines_pos) (Nat.le_of_eq hsize) ?_
  intro n hn line hl
  have hx := h.column_lt n hn
  obtain hl | ⟨l, hm, rfl⟩ := mem_modify hl
  · exact h.line_le n hn line hl
  · have := h.line_le n hn l hm
    rw [size_put]
    omega

theorem Kept.column_succ_lt (h : Kept w L C s) (hwidth : ¬s.width ≤ s.cursor.column + 1) :
    ∀ n ∈ C, ((s.cursor.column + 1 : Nat) : Int) < max (w : Int) n := by
  intro n _
  have := h.width_eq
  omega

theorem Kept.write (h : Kept w L C s) (c : Char) (a : Style) : Kept w L C (s.write c a).state := by
  refine Outcome.andThen_state (h.reach s.cursor.row) fun t h ↦ ?_
  have hput := (h.put ⟨c, a⟩).withCursor { t.cursor with column := t.cursor.column + 1 }
  split
  · exact h
  dsimp only
  split
  · exact hput.kept_moveTo _ nofun
  · rename_i hwidth
    exact ⟨hput, h.column_succ_lt hwidth⟩

theorem Kept.writeAll (h : Kept w L C s) (a : Style) (cs : List Char) : Kept w L C (writeAll a cs s).state := by
  induction cs generalizing s with
  | nil => exact h
  | cons c cs ih => exact Outcome.andThen_state (h.write c a) fun _ ↦ ih

theorem Kept.withLines (h : Kept w L C s) {lines : Array Line} (hsize : lines.size = s.lines.size)
    (hline : ∀ n ∈ C, ∀ line ∈ lines, (line.size : Int) ≤ max (w : Int) n) : Kept w L C { s with lines := lines } :=
  ⟨h.toBounded.withLines (hsize ▸ h.lines_pos) (Nat.le_of_eq hsize) hline, h.column_lt⟩

theorem Kept.editLine (h : Kept w L C s) {f : Line → Line} (hf : ∀ line, (f line).size ≤ line.size) :
    Kept w L C (s.editLine f).state := by
  unfold Screen.editLine
  split
  · refine h.withLines Array.size_modify ?_
    intro n hn line hl
    obtain hl | ⟨l, hm, rfl⟩ := mem_modify hl
    · exact h.line_le n hn line hl
    · have := hf l
      have := h.line_le n hn l hm
      omega
  · exact h

theorem Kept.truncateLine (h : Kept w L C s) : Kept w L C s.truncateLine.state := by
  refine h.editLine fun line ↦ ?_
  rw [Array.size_shrink]
  omega

theorem Kept.truncateBelow (h : Kept w L C s) : Kept w L C s.truncateBelow := by
  have hpos := h.lines_pos
  refine ⟨h.toBounded.withLines ?_ ?_ fun n hn line hl ↦ ?_, h.column_lt⟩
  · rw [Array.size_shrink]
    omega
  · rw [Array.size_shrink]
    omega
  · rw [← Array.mem_toList_iff, Array.toList_shrink] at hl
    exact h.line_le n hn line (Array.mem_toList_iff.mp (List.mem_of_mem_take hl))

theorem Kept.clearAbove (h : Kept w L C s) : Kept w L C s.clearAbove := by
  refine h.withLines Array.size_mapIdx fun n hn line hl ↦ ?_
  obtain ⟨y, hy, rfl⟩ := Array.mem_mapIdx.mp hl
  split
  · exact size_empty_le w n
  · exact h.line_le n hn _ (Array.getElem_mem hy)

theorem Kept.clearAll (h : Kept w L C s) : Kept w L C s.clearAll := by
  refine h.withLines Array.size_map fun n hn line hl ↦ ?_
  obtain ⟨_, _, rfl⟩ := Array.mem_map.mp hl
  exact size_empty_le w n

theorem Kept.eraseLine (h : Kept w L C s) (m : EraseMode) : Kept w L C (s.eraseLine m).state := by
  cases m with
  | after => exact h.truncateLine
  | before => exact h.editLine (size_blankThrough_le _)
  | all => exact h.editLine fun _ ↦ Nat.zero_le _

theorem Kept.eraseDisplay (h : Kept w L C s) (m : EraseMode) : Kept w L C (s.eraseDisplay m).state := by
  cases m with
  | after => exact Outcome.andThen_state h.truncateLine fun _ h ↦ h.truncateBelow
  | before => exact h.clearAbove.editLine (size_blankThrough_le _)
  | all => exact h.clearAll.moveTo (some 0) (some 0)

theorem Kept.move (h : Kept w L C s) (c : Command) (ps : Params) {f : Int → Outcome Screen}
    (hf : ∀ n, Kept w L C (f n).state) : Kept w L C (s.move c ps f).state := by
  unfold Screen.move
  split
  · exact hf _
  · exact h

theorem Kept.erase (h : Kept w L C s) (c : Command) (ps : Params) {f : EraseMode → Outcome Screen}
    (hf : ∀ m, Kept w L C (f m).state) : Kept w L C (s.erase c ps f).state := by
  unfold Screen.erase
  split
  · exact hf _
  · exact h

theorem Kept.perform (h : Kept w L C s) (c : Command) (ps : Params) : Kept w L C (s.perform c ps).state := by
  cases c with
  | up | down | forward | back | nextLine | previousLine => exact h.move _ ps fun _ ↦ h.moveTo _ _
  | column =>
    match ps with
    | [_] => exact h.moveTo _ _
    | [] | _ :: _ :: _ => exact h
  | position =>
    match ps with
    | [] | [_, _] => exact h.moveTo _ _
    | [_] | _ :: _ :: _ :: _ => exact h
  | eraseDisplay => exact h.erase _ ps h.eraseDisplay
  | eraseLine => exact h.erase _ ps h.eraseLine
  | save =>
    match ps with
    | [] => exact ⟨h.toBounded.withCursor _, h.column_lt⟩
    | _ :: _ => exact h
  | restore =>
    match ps with
    | [] => exact h.moveTo _ _
    | _ :: _ => exact h

/-- An action keeps the limits wherever the cursor is, whether it meets a fault or not. -/
theorem Kept.act (h : Kept w L C s) (a : Action) : Kept w L C (s.act a).state := by
  cases a with
  | write c a => exact h.write c a
  | newline => exact h.moveTo _ _
  | command c ps => exact h.perform c ps
  | row ps =>
    match ps with
    | [_] => exact h.moveTo _ _
    | [] | _ :: _ :: _ => exact h

end TermCapture.Screen
