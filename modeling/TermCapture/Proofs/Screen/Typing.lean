import TermCapture.Proofs.Screen.Moves

namespace TermCapture.Screen

theorem intercalate_concat (ls : List (List Char)) (l : List Char) :
    ['\n'].intercalate (ls ++ [l]) = ls.flatMap (· ++ ['\n']) ++ l := by
  induction ls with
  | nil => simp
  | cons l' ls ih =>
    obtain ⟨l'', rest, he⟩ := List.exists_cons_of_ne_nil (List.concat_ne_nil l ls)
    rw [List.cons_append, he, List.intercalate_cons_cons, ← he, ih, List.flatMap_cons, List.append_assoc _ _ l]

theorem modify_concat {α : Type} (xs : List α) (x : α) (f : α → α) :
    (xs ++ [x]).modify xs.length f = xs ++ [f x] := by
  induction xs with
  | nil => rfl
  | cons y xs ih => simpa using ih

/-- A screen that takes any number of lines, with the cursor behind the last cell. -/
structure AtEnd (s : Screen) (above : List Line) (last : Line) : Prop where
  maxLines : s.maxLines = none
  lines : s.lines.toList = above ++ [last]
  row : s.cursor.row = above.length
  column : s.cursor.column = last.size

namespace AtEnd

variable {s : Screen} {above : List Line} {last : Line}

theorem size_eq (h : s.AtEnd above last) : s.lines.size = s.cursor.row + 1 := by
  rw [← Array.length_toList, h.lines, h.row, List.length_append, List.length_singleton]

theorem rowAt_eq (h : s.AtEnd above last) : s.rowAt s.cursor.row = last := by
  rw [rowAt, ← Array.getElem?_toList, h.lines, h.row, List.getElem?_concat_length]
  rfl

theorem not_tooFar (h : s.AtEnd above last) : ¬s.TooFar := by
  rw [TooFar, h.rowAt_eq, h.column, Nat.sub_self]
  exact Nat.not_lt_zero _

theorem newline (h : s.AtEnd above last) :
    ∃ t, s.newline = ⟨t, none⟩ ∧ t.AtEnd (above ++ [last]) #[] ∧ t.width = s.width := by
  have hsize := h.size_eq
  have hbound : s.boundColumn 0 = 0 := by
    unfold boundColumn
    split <;> omega
  have hnewline : s.newline = ⟨{ s with
      lines := s.lines ++ #[#[]], cursor := { s.cursor with column := 0, row := s.cursor.row + 1 } }, none⟩ := by
    have hnew : s.cursor.row + 1 + 1 - s.lines.size = 1 := by omega
    simp only [Screen.newline, moveTo, hbound, reach, h.maxLines, Int.toNat_natCast_add_one, extend,
      if_neg (Nat.not_lt.mpr (Nat.le_of_eq hsize)), hnew]
    rfl
  have hlines : (s.lines ++ #[#[]]).toList = (above ++ [last]) ++ [#[]] := by
    rw [Array.toList_append, h.lines]
  have hrow : s.cursor.row + 1 = (above ++ [last]).length := by
    rw [h.row, List.length_append, List.length_singleton]
  exact ⟨_, hnewline, ⟨h.maxLines, hlines, hrow, rfl⟩, rfl⟩

/-- A written cell is the next one of the line, and the line is left once it is full. -/
theorem write_eq (h : s.AtEnd above last) (c : Char) (a : Style) :
    ∃ t, t.AtEnd above (last.push ⟨c, a⟩) ∧ t.width = s.width ∧
      s.write c a = if s.width ≤ last.size + 1 then t.newline else ⟨t, none⟩ := by
  have hsize : s.cursor.row < s.lines.size := by
    rw [h.size_eq]
    exact Nat.lt_succ_self _
  have hreach : s.reach s.cursor.row = ⟨s, none⟩ := by
    simp only [reach, h.maxLines, extend, if_pos hsize]
  have hput : Screen.put s.cursor.column ⟨c, a⟩ last = last.push ⟨c, a⟩ := by
    simp [Screen.put, h.column]
  have hlines : (s.lines.modify s.cursor.row (Screen.put s.cursor.column ⟨c, a⟩)).toList =
      above ++ [last.push ⟨c, a⟩] := by
    rw [Array.toList_modify, h.lines, h.row, modify_concat, hput]
  refine ⟨{ s with
    lines := s.lines.modify s.cursor.row (Screen.put s.cursor.column ⟨c, a⟩)
    cursor := { s.cursor with column := s.cursor.column + 1 } }, ⟨h.maxLines, hlines, h.row, ?_⟩, rfl, ?_⟩
  · rw [Array.size_push, ← h.column]
  · rw [Screen.write, hreach, ← h.column]
    exact if_neg h.not_tooFar

theorem write (h : s.AtEnd above last) (hw : last.size + 1 < s.width) (c : Char) (a : Style) :
    ∃ t, s.write c a = ⟨t, none⟩ ∧ t.AtEnd above (last.push ⟨c, a⟩) ∧ t.width = s.width := by
  obtain ⟨t, ht, hwidth, he⟩ := h.write_eq c a
  exact ⟨t, he.trans (if_neg (Nat.not_le.mpr hw)), ht, hwidth⟩

theorem write_full (h : s.AtEnd above last) (hw : s.width ≤ last.size + 1) (c : Char) (a : Style) :
    ∃ t, s.write c a = ⟨t, none⟩ ∧ t.AtEnd (above ++ [last.push ⟨c, a⟩]) #[] ∧ t.width = s.width := by
  obtain ⟨t, ht, hwidth, he⟩ := h.write_eq c a
  obtain ⟨u, hu, hatEnd, hwidth'⟩ := ht.newline
  exact ⟨u, (he.trans (if_pos hw)).trans hu, hatEnd, hwidth'.trans hwidth⟩

end AtEnd

/-- A screen that takes any number of lines, with the cursor behind the last of the characters `cs`. -/
structure Typed (s : Screen) (cs : List Char) : Prop where
  maxLines : s.maxLines = none
  lines : ∃ above last, s.lines.toList = above ++ [last] ∧ s.cursor.row = above.length ∧
    s.cursor.column = last.size
  text : s.text.toList = cs

/-- The text of a screen, by its last line. -/
theorem text_concat {s : Screen} {above : List Line} {last : Line} (h : s.lines.toList = above ++ [last]) :
    s.text.toList =
      (above.map fun line ↦ line.toList.map Cell.char).flatMap (· ++ ['\n']) ++ last.toList.map Cell.char := by
  have hline : String.toList ∘ Line.text = fun line ↦ line.toList.map Cell.char :=
    funext fun line ↦ String.toList_ofList
  rw [text, String.toList_intercalate, List.map_map, hline, h, List.map_append, ← intercalate_concat]
  rfl

theorem empty_typed (width : Int) (maxColumns : Option Int) : (empty width none maxColumns).Typed [] where
  maxLines := rfl
  lines := ⟨[], #[], rfl, rfl, rfl⟩
  text := rfl

theorem AtEnd.typed {s : Screen} {above : List Line} {last : Line} (h : s.AtEnd above last) :
    s.Typed s.text.toList where
  maxLines := h.maxLines
  lines := ⟨above, last, h.lines, h.row, h.column⟩
  text := rfl

namespace Typed

variable {s : Screen} {cs : List Char}

theorem atEnd (h : s.Typed cs) : ∃ above last, s.AtEnd above last := by
  obtain ⟨above, last, hlines, hrow, hcolumn⟩ := h.lines
  exact ⟨above, last, h.maxLines, hlines, hrow, hcolumn⟩

theorem write (h : s.Typed cs) (hw : s.cursor.column + 1 < s.width) (c : Char) (a : Style) :
    (s.write c a).fault = none ∧ (s.write c a).state.Typed (cs ++ [c]) ∧
      (s.write c a).state.cursor.column = s.cursor.column + 1 ∧ (s.write c a).state.width = s.width := by
  obtain ⟨above, last, hs⟩ := h.atEnd
  rw [hs.column] at hw
  obtain ⟨t, ht, htend, hwidth⟩ := hs.write hw c a
  have htext : t.text.toList = cs ++ [c] := by
    rw [text_concat htend.lines, ← h.text, text_concat hs.lines]
    simp
  rw [ht]
  refine ⟨rfl, htext ▸ htend.typed, ?_, hwidth⟩
  rw [htend.column, hs.column, Array.size_push]

theorem newline (h : s.Typed cs) :
    s.newline.fault = none ∧ s.newline.state.Typed (cs ++ ['\n']) ∧ s.newline.state.cursor.column = 0 ∧
      s.newline.state.width = s.width := by
  obtain ⟨above, last, hs⟩ := h.atEnd
  obtain ⟨t, ht, htend, hwidth⟩ := hs.newline
  have htext : t.text.toList = cs ++ ['\n'] := by
    rw [text_concat htend.lines, ← h.text, text_concat hs.lines]
    simp
  rw [ht]
  exact ⟨rfl, htext ▸ htend.typed, htend.column, hwidth⟩

theorem writeAll (h : s.Typed cs) {ds : List Char} (hw : s.cursor.column + ds.length < s.width) (a : Style) :
    (writeAll a ds s).fault = none ∧ (writeAll a ds s).state.Typed (cs ++ ds) ∧
      (writeAll a ds s).state.cursor.column = s.cursor.column + ds.length ∧
      (writeAll a ds s).state.width = s.width := by
  induction ds generalizing s cs with
  | nil => exact ⟨rfl, by rwa [List.append_nil], rfl, rfl⟩
  | cons c ds ih =>
    rw [List.length_cons] at hw
    obtain ⟨hfault, htyped, hcolumn, hwidth⟩ := h.write (by omega) c a
    obtain ⟨hfault', htyped', hcolumn', hwidth'⟩ := ih htyped (by omega)
    rw [Screen.writeAll, Outcome.andThen_of_none hfault]
    refine ⟨hfault', ?_, ?_, hwidth'.trans hwidth⟩
    · rwa [List.append_assoc] at htyped'
    · rw [hcolumn', hcolumn, List.length_cons]
      omega

end Typed

end TermCapture.Screen
