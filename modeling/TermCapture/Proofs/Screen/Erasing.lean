import TermCapture.Proofs.Screen.Bounds
import TermCapture.Proofs.Screen.Operations
import TermCapture.Proofs.Screen.Plane

namespace TermCapture.Screen

theorem blankThrough_blankThrough (x : Nat) (l : Line) : blankThrough x (blankThrough x l) = blankThrough x l := by
  by_cases h : l.size ≤ x
  · simp only [blankThrough, if_pos h, Array.size_empty, Nat.zero_le, if_true]
  · simp only [blankThrough, if_neg h, Array.size_mapIdx, Array.mapIdx_mapIdx]
    congr 1
    funext i c
    simp only [Function.comp_apply]
    split <;> rfl

theorem shrink_shrink (x : Nat) (l : Line) : (l.shrink x).shrink x = l.shrink x := by
  apply Array.toList_inj.mp
  simp only [Array.toList_shrink, List.take_take, Nat.min_self]

namespace EraseMode

variable (m : EraseMode) (c : Command) (k : Cursor)

/-- The lines that are deleted: only erasing to the end of the screen deletes any. -/
def Deletes (y : Nat) : Prop := c = .eraseDisplay ∧ m = .after ∧ k.row < y

/-- The lines that are emptied whatever the column of the cursor is. -/
def Empties (y : Nat) : Prop := c = .eraseDisplay ∧ (m = .all ∨ m = .before ∧ y < k.row)

instance (y : Nat) : Decidable (m.Deletes c k y) := inferInstanceAs (Decidable (_ ∧ _))

instance (y : Nat) : Decidable (m.Empties c k y) := inferInstanceAs (Decidable (_ ∧ _))

/-- What is left of the cursor's line, with the cursor in column `x`. -/
def cut (x : Nat) (l : Line) : Line :=
  match m with
  | .after => l.shrink x
  | .before => blankThrough x l
  | .all => #[]

/-- What is left of the line in row `y`. -/
def rest (y : Nat) (l : Line) : Line :=
  if m.Empties c k y then #[] else if y = k.row then m.cut k.column l else l

/-- Where the cursor is afterwards. -/
def landing : Cursor := if c = .eraseDisplay ∧ m = .all then { k with column := 0, row := 0 } else k

theorem cut_cut (x : Nat) (l : Line) : m.cut x (m.cut x l) = m.cut x l := by
  cases m with
  | after => exact shrink_shrink x l
  | before => exact blankThrough_blankThrough x l
  | all => rfl

theorem size_cut_le (x : Nat) (l : Line) : (m.cut x l).size ≤ l.size := by
  cases m with
  | after =>
    simp only [cut, Array.size_shrink]
    omega
  | before => exact size_blankThrough_le x l
  | all => exact Nat.zero_le _

theorem not_deletes_of_ne {y : Nat} (h : m ≠ .after) : ¬m.Deletes c k y := fun hd ↦ h hd.2.1

theorem not_deletes_of_line (y : Nat) : ¬m.Deletes .eraseLine k y := fun hd ↦ absurd hd.1 (by decide)

theorem not_empties_of_line (y : Nat) : ¬m.Empties .eraseLine k y := fun he ↦ absurd he.1 (by decide)

theorem rest_of_not_empties {y : Nat} (h : ¬m.Empties c k y) :
    m.rest c k y = fun l ↦ if y = k.row then m.cut k.column l else l :=
  funext fun _ ↦ if_neg h

theorem size_rest_le (y : Nat) (l : Line) : (m.rest c k y l).size ≤ l.size := by
  unfold rest
  split_ifs
  · exact Nat.zero_le _
  · exact m.size_cut_le _ l
  · exact Nat.le_refl _

theorem landing_landing : m.landing c (m.landing c k) = m.landing c k := by
  unfold landing
  split <;> rfl

theorem landing_saved : (m.landing c k).savedColumn = k.savedColumn ∧ (m.landing c k).savedRow = k.savedRow := by
  unfold landing
  split <;> exact ⟨rfl, rfl⟩

theorem landing_of_stays (h : c = .eraseLine ∨ m ≠ .all) : m.landing c k = k := by
  apply if_neg
  rintro ⟨rfl, hm⟩
  exact h.elim (fun he ↦ absurd he (by decide)) fun hne ↦ hne hm

/-- Nothing more goes from a line when the command is repeated, also where the cursor has gone home. -/
theorem rest_rest (y : Nat) (l : Line) : m.rest c (m.landing c k) y (m.rest c k y l) = m.rest c k y l := by
  by_cases hall : c = .eraseDisplay ∧ m = .all
  · have hempties : ∀ k, m.Empties c k y := fun k ↦ ⟨hall.1, .inl hall.2⟩
    simp only [rest, if_pos (hempties _)]
  · simp only [landing, if_neg hall]
    unfold rest
    split_ifs
    · rfl
    · exact m.cut_cut _ l
    · rfl

theorem deletes_landing (y : Nat) : m.Deletes c (m.landing c k) y ↔ m.Deletes c k y := by
  by_cases hall : c = .eraseDisplay ∧ m = .all
  · simp [Deletes, hall.2]
  · simp only [landing, if_neg hall]

end EraseMode

variable {c : Command} {m : EraseMode} {s t : Screen}

/-- What erasing makes of a screen, line by line. -/
structure Erased (c : Command) (m : EraseMode) (s t : Screen) : Prop where
  eq : t = { s with lines := t.lines, cursor := m.landing c s.cursor }
  lines_eq : ∀ y, t.lines[y]? = if m.Deletes c s.cursor y then none else s.lines[y]?.map (m.rest c s.cursor y)

theorem Erased.cursor_eq (h : Erased c m s t) : t.cursor = m.landing c s.cursor := congrArg cursor h.eq

theorem Erased.twice (h : Erased c m s t) {u : Screen} (h' : Erased c m t u) : u = t := by
  have hlines : u.lines = t.lines := by
    apply Array.ext_getElem?
    intro y
    simp only [h'.lines_eq, h.lines_eq, h.cursor_eq, EraseMode.deletes_landing]
    split
    · rfl
    · simp only [Option.map_map, Function.comp_def, EraseMode.rest_rest]
  rw [h'.eq, hlines, h.cursor_eq, EraseMode.landing_landing, ← h.cursor_eq]

theorem Erased.size_le (h : Erased c m s t) : t.lines.size ≤ s.lines.size := by
  have hnone : t.lines[s.lines.size]? = none := by
    simp only [h.lines_eq, Array.getElem?_eq_none (Nat.le_refl _), Option.map_none, ite_self]
  exact Array.getElem?_eq_none_iff.mp hnone

theorem Erased.rowAt_le (h : Erased c m s t) (y : Nat) : (t.rowAt y).size ≤ (s.rowAt y).size := by
  simp only [rowAt, h.lines_eq]
  split
  · exact Nat.zero_le _
  · cases s.lines[y]? with
    | none => exact Nat.le_refl _
    | some l => exact m.size_rest_le c s.cursor y l

theorem Erased.line_eq (h : Erased c m s t) (hc : c = .eraseLine) {y : Nat} (hy : y ≠ s.cursor.row) :
    t.lines[y]? = s.lines[y]? := by
  subst hc
  simp only [h.lines_eq, if_neg (m.not_deletes_of_line _ y),
    m.rest_of_not_empties _ _ (m.not_empties_of_line _ y), if_neg hy, Option.map_id']

theorem Erased.onLine (h : Erased c m s t) (hs : s.OnLine) : t.OnLine := by
  have hkept : ∀ {y}, y < s.lines.size → ¬m.Deletes c s.cursor y → y < t.lines.size := by
    intro y hy hkeep
    have hline : t.lines[y]? = some (m.rest c s.cursor y s.lines[y]) := by
      simp only [h.lines_eq, if_neg hkeep, Array.getElem?_eq_getElem hy, Option.map_some]
    exact (Array.getElem?_eq_some_iff.mp hline).1
  unfold OnLine at hs ⊢
  rw [h.cursor_eq]
  by_cases hall : c = .eraseDisplay ∧ m = .all
  · simp only [EraseMode.landing, if_pos hall]
    exact hkept (by omega) fun hd ↦ by cases hall.2.symm.trans hd.2.1
  · simp only [EraseMode.landing, if_neg hall]
    exact hkept hs fun hd ↦ Nat.lt_irrefl _ hd.2.2

theorem getElem?_modify_map (lines : Array Line) (row y : Nat) (f : Line → Line) :
    (lines.modify row f)[y]? = lines[y]?.map fun l ↦ if y = row then f l else l := by
  rw [Array.getElem?_modify]
  by_cases h : row = y
  · simp only [if_pos h, if_pos h.symm]
  · simp only [if_neg h, if_neg (Ne.symm h), Option.map_id']

theorem eraseLine_eq (s : Screen) (m : EraseMode) : s.eraseLine m = s.editLine (m.cut s.cursor.column) := by
  cases m <;> rfl

section

variable (hs : s.OnLine)

include hs

theorem editLine_eq (f : Line → Line) :
    s.editLine f = ⟨{ s with lines := s.lines.modify s.cursor.row f }, none⟩ := if_pos hs

theorem eraseLine_erased (m : EraseMode) : ∃ t, s.eraseLine m = ⟨t, none⟩ ∧ Erased .eraseLine m s t := by
  simp only [eraseLine_eq, editLine_eq hs]
  refine ⟨_, rfl, rfl, fun y ↦ ?_⟩
  simp only [getElem?_modify_map, if_neg (m.not_deletes_of_line _ y),
    m.rest_of_not_empties _ _ (m.not_empties_of_line _ y)]

theorem eraseAfter_erased :
    ∃ t, s.eraseDisplay .after = ⟨t, none⟩ ∧ Erased .eraseDisplay .after s t := by
  simp only [eraseDisplay, truncateLine, editLine_eq hs, Outcome.andThen]
  refine ⟨_, rfl, rfl, fun y ↦ ?_⟩
  have hempties : ¬EraseMode.after.Empties .eraseDisplay s.cursor y := by simp [EraseMode.Empties]
  simp only [truncateBelow, getElem?_shrink, getElem?_modify_map, EraseMode.rest_of_not_empties _ _ _ hempties]
  by_cases hy : s.cursor.row < y
  · have hdeletes : EraseMode.after.Deletes .eraseDisplay s.cursor y := ⟨rfl, rfl, hy⟩
    rw [if_pos hdeletes, if_neg (by omega)]
  · have hdeletes : ¬EraseMode.after.Deletes .eraseDisplay s.cursor y := fun h ↦ hy h.2.2
    rw [if_neg hdeletes, if_pos (by omega)]
    rfl

theorem eraseBefore_erased :
    ∃ t, s.eraseDisplay .before = ⟨t, none⟩ ∧ Erased .eraseDisplay .before s t := by
  have hon : s.clearAbove.OnLine := by simpa [OnLine, clearAbove] using hs
  simp only [eraseDisplay, blankLineThroughCursor, editLine_eq hon]
  refine ⟨_, rfl, rfl, fun y ↦ ?_⟩
  have hdeletes : ¬EraseMode.before.Deletes .eraseDisplay s.cursor y := EraseMode.not_deletes_of_ne _ _ _ (by decide)
  have hempties : EraseMode.before.Empties .eraseDisplay s.cursor y ↔ y < s.cursor.row := by
    simp [EraseMode.Empties]
  simp only [if_neg hdeletes, getElem?_modify_map, clearAbove, Array.getElem?_mapIdx, Option.map_map]
  congr 1
  funext l
  simp only [Function.comp_apply, EraseMode.rest, hempties]
  split_ifs with hrow
  · omega
  all_goals rfl

/-- A screen with a limit has room for its first line, which is there already. -/
theorem moveTo_home (hL : ∀ n ∈ s.maxLines, 1 ≤ n) :
    s.moveTo (some 0) (some 0) = ⟨{ s with cursor := { s.cursor with column := 0, row := 0 } }, none⟩ := by
  have hcolumn : s.boundColumn 0 = 0 := by
    unfold boundColumn
    split <;> omega
  have hlanding : s.landing (some 0) (some 0) = { s.cursor with column := 0, row := 0 } := by
    simp only [landing, Option.map_some, Option.getD_some, hcolumn, Int.toNat_zero]
  have hline : 0 < s.lines.size := Nat.lt_of_le_of_lt (Nat.zero_le _) hs
  rw [moveTo_eq, hlanding]
  obtain ⟨-, he⟩ | ⟨n, hn, hle, -⟩ :=
    reach_cases { s with cursor := { s.cursor with column := 0, row := 0 } } 0
  · simp only [he, extend, if_pos hline]
  · have := hL n hn
    omega

theorem eraseAll_erased (hL : ∀ n ∈ s.maxLines, 1 ≤ n) :
    ∃ t, s.eraseDisplay .all = ⟨t, none⟩ ∧ Erased .eraseDisplay .all s t := by
  have hon : s.clearAll.OnLine := by simpa [OnLine, clearAll] using hs
  simp only [eraseDisplay, moveTo_home hon hL]
  refine ⟨_, rfl, rfl, fun y ↦ ?_⟩
  have hdeletes : ¬EraseMode.all.Deletes .eraseDisplay s.cursor y := EraseMode.not_deletes_of_ne _ _ _ (by decide)
  have hempties : EraseMode.all.Empties .eraseDisplay s.cursor y := ⟨rfl, .inl rfl⟩
  have hrest : EraseMode.all.rest .eraseDisplay s.cursor y = fun _ ↦ #[] := funext fun _ ↦ if_pos hempties
  simp only [if_neg hdeletes, hrest, clearAll, Array.getElem?_map]

/-- An erasing command that accepts its parameters erases what its mode says. -/
theorem perform_erased (hL : ∀ n ∈ s.maxLines, 1 ≤ n) (hc : c = .eraseDisplay ∨ c = .eraseLine) {ps : Params}
    (hm : eraseMode c ps = .ok m) : ∃ t, s.perform c ps = ⟨t, none⟩ ∧ Erased c m s t := by
  obtain rfl | rfl := hc
  · simp only [perform, erase, hm]
    cases m with
    | after => exact eraseAfter_erased hs
    | before => exact eraseBefore_erased hs
    | all => exact eraseAll_erased hs hL
  · simp only [perform, erase, hm]
    exact eraseLine_erased hs m

end

/-- Erasing a second time changes nothing at all, and the first time it changes no more than the number of the mode
says: no line is added or gets longer, the saved position stays, erasing in a line leaves the other lines and the
cursor, and only mode 2 of the display takes the cursor home. -/
theorem erasing_twice (hs : s.OnLine) (hL : ∀ n ∈ s.maxLines, 1 ≤ n) (hc : c = .eraseDisplay ∨ c = .eraseLine)
    {ps : Params} (hps : ¬c.Refuses ps) :
    ∃ n t, EraseNumber ps n ∧ s.perform c ps = ⟨t, none⟩ ∧ t.perform c ps = ⟨t, none⟩ ∧ t.OnLine ∧
      Erased c (.numbered n) s t ∧ t.lines.size ≤ s.lines.size ∧
      (∀ y, (t.rowAt y).size ≤ (s.rowAt y).size) ∧
      t.cursor.savedColumn = s.cursor.savedColumn ∧ t.cursor.savedRow = s.cursor.savedRow ∧
      (c = .eraseLine ∨ n = 0 ∨ n = 1 → t.cursor = s.cursor) ∧
      (c = .eraseDisplay ∧ n = 2 → t.cursor = { s.cursor with column := 0, row := 0 }) ∧
      (c = .eraseLine → ∀ y, y ≠ s.cursor.row → t.lines[y]? = s.lines[y]?) := by
  obtain ⟨n, hn⟩ := number_of_not_refuses hc hps
  have hm : eraseMode c ps = .ok (.numbered n) := eraseMode_of_number hn
  obtain ⟨t, he, ht⟩ := perform_erased hs hL hc hm
  have hon : t.OnLine := ht.onLine hs
  have hlimit : t.maxLines = s.maxLines := by rw [ht.eq]
  obtain ⟨u, he', hu⟩ := perform_erased hon (hlimit ▸ hL) hc hm
  rw [ht.twice hu] at he'
  have hsaved := (EraseMode.numbered n).landing_saved c s.cursor
  rw [← ht.cursor_eq] at hsaved
  refine ⟨n, t, hn, he, he', hon, ht, ht.size_le, ht.rowAt_le, hsaved.1, hsaved.2, ?_, ?_, ?_⟩
  · intro h
    refine ht.cursor_eq.trans (EraseMode.landing_of_stays _ c s.cursor (h.imp_right ?_))
    rintro (rfl | rfl) <;> decide
  · rintro ⟨rfl, rfl⟩
    exact ht.cursor_eq
  · intro h y hy
    exact ht.line_eq h hy

/-- Erasing to the end of the screen from within the second of three lines. -/
theorem erasing_twice_of_lower_lines :
    let word (cs : List Char) : Line := (cs.map fun c ↦ ⟨c, {}⟩).toArray
    let s : Screen := ⟨80, some 3, none, #[word ['a', 'b'], word ['c', 'd', 'e', 'f'], word ['g']], ⟨1, 1, 4, 2⟩⟩
    s.OnLine ∧ (∀ n ∈ s.maxLines, 1 ≤ n) ∧ ¬Command.eraseDisplay.Refuses [none] ∧
      ∃ t, s.perform .eraseDisplay [none] = ⟨t, none⟩ ∧ t.perform .eraseDisplay [none] = ⟨t, none⟩ ∧
        t.lines = #[word ['a', 'b'], word ['c']] ∧ t.cursor = s.cursor := by
  intro word s
  have hs : s.OnLine := by decide
  have hL : ∀ n ∈ s.maxLines, 1 ≤ n := by simp [s]
  have hps : ¬Command.eraseDisplay.Refuses [none] := by
    rintro (hcount | ⟨-, hone, -⟩)
    · cases hcount
    · cases hone
  obtain ⟨n, t, -, he, hagain, -⟩ := erasing_twice hs hL (.inl rfl) hps
  have hlines : (s.perform .eraseDisplay [none]).state.lines = #[word ['a', 'b'], word ['c']] := by decide +kernel
  have hcursor : (s.perform .eraseDisplay [none]).state.cursor = s.cursor := by decide +kernel
  rw [he] at hlines hcursor
  exact ⟨hs, hL, hps, t, he, hagain, hlines, hcursor⟩

end TermCapture.Screen
