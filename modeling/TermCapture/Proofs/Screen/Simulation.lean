import TermCapture.Proofs.Screen.Plane

namespace TermCapture.Screen

theorem plane_congr {s t : Screen} (hw : t.width = s.width) (hl : t.maxLines = s.maxLines)
    (hc : t.maxColumns = s.maxColumns) (hv : ∀ y x, t.view y x = s.view y x) (hp : t.cursor = s.cursor) :
    t.plane = s.plane := by
  have hview : t.view = s.view := funext fun y ↦ funext (hv y)
  simp only [plane, hw, hl, hc, hview, hp]

theorem cell_empty (x : Nat) : Line.cell #[] x = .blank := rfl

theorem rowAt_extend (s : Screen) (row y : Nat) : (s.extend row).rowAt y = s.rowAt y := by
  unfold rowAt
  rw [getElem?_extend]
  split
  · rfl
  · rw [Array.getElem?_eq_none (by omega)]
    split <;> rfl

theorem tooFar_extend (s : Screen) (row : Nat) : (s.extend row).TooFar ↔ s.TooFar := by
  simp only [TooFar, cursor_extend, rowAt_extend]

theorem plane_extend (s : Screen) (row : Nat) : (s.extend row).plane = s.plane := by
  refine plane_congr ?_ ?_ ?_ ?_ ?_
  · unfold extend; split <;> rfl
  · exact maxLines_extend s row
  · unfold extend; split <;> rfl
  · intro y x
    rw [view, rowAt_extend, view]
  · exact cursor_extend s row

theorem plane_reach (s : Screen) (row : Nat) : (s.reach row).state.plane = s.plane := by
  obtain ⟨-, he⟩ | ⟨n, -, -, he⟩ := s.reach_cases row
  · rw [he]
    exact s.plane_extend row
  · rw [he]

theorem plane_moveTo (s : Screen) (column row : Option Int) :
    (s.moveTo column row).state.plane = s.plane.moveTo column row := by
  rw [moveTo_eq, plane_reach]
  cases column <;> cases row <;> rfl

theorem cell_put (z : Nat) (c : Cell) (l : Line) (x : Nat) :
    (put z c l).cell x = if x = z then c else l.cell x := by
  unfold put Line.cell
  split
  · rw [Array.getElem?_setIfInBounds]
    by_cases hx : z = x
    · subst hx
      simp [*]
    · rw [if_neg hx, if_neg (Ne.symm hx)]
  · rename_i hz
    simp only [Array.getElem?_push, Array.size_append, Array.size_replicate]
    by_cases hx : x = z
    · rw [if_pos (by omega), if_pos hx]
      rfl
    · rw [if_neg (by omega), if_neg hx, Array.getElem?_append, Array.getElem?_replicate]
      split
      · rfl
      · rw [Array.getElem?_eq_none (by omega)]
        split <;> rfl

theorem cell_shrink (l : Line) (z x : Nat) :
    Line.cell (l.shrink z) x = if z ≤ x then .blank else l.cell x := by
  unfold Line.cell
  rw [getElem?_shrink]
  by_cases hx : z ≤ x
  · rw [if_pos hx, if_neg (by omega)]
    rfl
  · rw [if_neg hx, if_pos (by omega)]

theorem cell_blankThrough (l : Line) (z x : Nat) :
    (blankThrough z l).cell x = if x ≤ z then .blank else l.cell x := by
  unfold blankThrough Line.cell
  split
  · split
    · rfl
    · rw [Array.getElem?_eq_none (by simp), Array.getElem?_eq_none (by omega)]
  · rw [Array.getElem?_mapIdx]
    split
    · cases l[x]? <;> rfl
    · cases l[x]? <;> rfl

theorem rowAt_modify (s : Screen) (row y : Nat) (f : Line → Line) :
    ((s.lines.modify row f)[y]?).getD #[] =
      if y = row ∧ row < s.lines.size then f (s.rowAt y) else s.rowAt y := by
  rw [rowAt, Array.getElem?_modify]
  by_cases hy : row = y
  · subst hy
    by_cases hr : row < s.lines.size
    · simp [hr]
    · simp [hr]
  · rw [if_neg hy, if_neg (fun h ↦ hy h.1.symm)]

/-- A change that only blanks cells is seen in the same way on a line that the screen does not have. -/
theorem plane_editLine (s : Screen) (f : Line → Line) (r : Nat → Bool)
    (hf : ∀ line x, (f line).cell x = if r x then .blank else line.cell x) :
    (s.editLine f).state.plane = s.plane.blank fun y x ↦ y = s.cursor.row && r x := by
  have hcell : ∀ y x, (s.editLine f).state.view y x =
      if (decide (y = s.cursor.row) && r x) = true then .blank else s.view y x := by
    intro y x
    rw [editLine]
    split
    · rename_i hrow
      change Line.cell (((s.lines.modify s.cursor.row f)[y]?).getD #[]) x = _
      rw [rowAt_modify]
      by_cases hy : y = s.cursor.row
      · rw [if_pos ⟨hy, hrow⟩, hf]
        simp [hy, view]
      · rw [if_neg fun h ↦ hy h.1]
        simp [hy, view]
    · rename_i hrow
      by_cases hy : y = s.cursor.row
      · have hempty : s.view y x = .blank := by
          rw [view, rowAt, Array.getElem?_eq_none (by omega)]
          rfl
        simp [hempty]
      · simp [hy]
  have hframe : ∀ t : Screen, t = (s.editLine f).state →
      t.width = s.width ∧ t.maxLines = s.maxLines ∧ t.maxColumns = s.maxColumns ∧ t.cursor = s.cursor := by
    rintro t rfl
    rw [editLine]
    split <;> simp
  obtain ⟨hw, hl, hc, hp⟩ := hframe _ rfl
  simp only [plane, Plane.blank, hw, hl, hc, hp, ← hcell]

theorem plane_truncateLine (s : Screen) :
    s.truncateLine.state.plane = s.plane.eraseLine .after := by
  refine (s.plane_editLine _ (fun x ↦ s.cursor.column ≤ x) ?_).trans rfl
  intro line x
  rw [cell_shrink]
  simp

theorem plane_blankLineThroughCursor (s : Screen) :
    s.blankLineThroughCursor.state.plane = s.plane.eraseLine .before := by
  refine (s.plane_editLine _ (fun x ↦ x ≤ s.cursor.column) ?_).trans rfl
  intro line x
  rw [cell_blankThrough]
  simp

theorem plane_clearLine (s : Screen) : s.clearLine.state.plane = s.plane.eraseLine .all := by
  refine (s.plane_editLine _ (fun _ ↦ true) fun _ _ ↦ rfl).trans ?_
  exact s.plane.blank_congr fun y x ↦ Bool.and_true _

theorem plane_eraseLine (s : Screen) (m : EraseMode) :
    (s.eraseLine m).state.plane = s.plane.eraseLine m := by
  cases m with
  | after => exact s.plane_truncateLine
  | before => exact s.plane_blankLineThroughCursor
  | all => exact s.plane_clearLine

theorem plane_truncateBelow (s : Screen) :
    s.truncateBelow.plane = s.plane.blank fun y _ ↦ s.cursor.row < y := by
  have hview : s.truncateBelow.view = fun y x ↦ if s.cursor.row < y then .blank else s.view y x := by
    funext y x
    unfold view rowAt truncateBelow
    dsimp only
    rw [getElem?_shrink]
    by_cases hy : s.cursor.row < y
    · rw [if_pos hy, if_neg (by omega)]
      rfl
    · rw [if_neg hy, if_pos (by omega)]
  simp only [plane, Plane.blank, hview, decide_eq_true_eq]
  rfl

theorem plane_clearAbove (s : Screen) :
    s.clearAbove.plane = s.plane.blank fun y _ ↦ y < s.cursor.row := by
  have hview : s.clearAbove.view = fun y x ↦ if y < s.cursor.row then .blank else s.view y x := by
    funext y x
    unfold view rowAt clearAbove
    dsimp only
    rw [Array.getElem?_mapIdx]
    cases s.lines[y]? with
    | none => simp [cell_empty]
    | some line =>
      simp only [Option.map_some, Option.getD_some]
      split <;> rfl
  simp only [plane, Plane.blank, hview, decide_eq_true_eq]
  rfl

theorem plane_clearAll (s : Screen) : s.clearAll.plane = s.plane.blank fun _ _ ↦ true := by
  have hview : s.clearAll.view = fun _ _ ↦ .blank := by
    funext y x
    rw [view, rowAt, clearAll]
    dsimp only
    rw [Array.getElem?_map]
    cases s.lines[y]? <;> rfl
  simp only [plane, Plane.blank, hview]
  rfl

/-- The line of the cursor is cut first. Where it does not exist, there is nothing below it either. -/
theorem plane_eraseAfter (s : Screen) :
    (s.eraseDisplay .after).state.plane = s.plane.eraseDisplay .after := by
  have hcut := s.plane_truncateLine
  rw [eraseDisplay, truncateLine, editLine] at *
  by_cases hrow : s.cursor.row < s.lines.size
  · rw [if_pos hrow] at hcut ⊢
    change (truncateBelow _).plane = _
    rw [plane_truncateBelow, hcut, Plane.eraseLine, Plane.blank_blank]
    rfl
  · rw [if_neg hrow]
    refine (s.plane.blank_eq_self ?_).symm
    intro y x h
    change EraseMode.after.inDisplay s.cursor y x = true at h
    have hy : s.cursor.row ≤ y := by
      simp only [EraseMode.inDisplay, EraseMode.inLine, Bool.or_eq_true, Bool.and_eq_true,
        decide_eq_true_eq] at h
      omega
    change (s.rowAt y).cell x = .blank
    rw [rowAt, Array.getElem?_eq_none (by omega)]
    rfl

theorem plane_eraseDisplay (s : Screen) (m : EraseMode) :
    (s.eraseDisplay m).state.plane = s.plane.eraseDisplay m := by
  cases m with
  | after => exact s.plane_eraseAfter
  | before =>
    change s.clearAbove.blankLineThroughCursor.state.plane = _
    rw [plane_blankLineThroughCursor, plane_clearAbove, Plane.eraseLine, Plane.blank_blank]
    exact s.plane.blank_congr fun y x ↦ Bool.or_comm _ _
  | all =>
    change (s.clearAll.moveTo (some 0) (some 0)).state.plane = _
    rw [plane_moveTo, plane_clearAll]
    rfl

theorem within_of_reach (s : Screen) (row : Nat) :
    s.plane.within row = (s.reach row).fault.isNone := by
  rw [Plane.within, reach, plane]
  cases s.maxLines with
  | none => rfl
  | some n =>
    by_cases hn : n ≤ (row : Int)
    · simp [hn]
    · simp [hn, Int.not_le.mp hn]

theorem view_put (s : Screen) (hrow : s.cursor.row < s.lines.size) (c : Cell) :
    plane { s with
      lines := s.lines.modify s.cursor.row (put s.cursor.column c)
      cursor := { s.cursor with column := s.cursor.column + 1 } } = s.plane.set c := by
  unfold plane Plane.set
  congr 1
  funext y x
  change Line.cell (((s.lines.modify s.cursor.row (put s.cursor.column c))[y]?).getD #[]) x = _
  rw [rowAt_modify]
  by_cases hy : y = s.cursor.row
  · rw [if_pos ⟨hy, hrow⟩, cell_put]
    simp [hy, view]
  · rw [if_neg fun h ↦ hy h.1]
    simp [hy, view]

/-- A character behind too many blanks is not written at all. -/
theorem write_cases (s : Screen) (c : Char) (a : Style) :
    (s.write c a = ⟨s.extend s.cursor.row, some .overflow⟩ ∧ (s.extend s.cursor.row).TooFar ∧
      (s.reach s.cursor.row).fault = none) ∨
      ((s.write c a).fault ≠ some .overflow ∧
        ((s.reach s.cursor.row).fault = none → ¬(s.extend s.cursor.row).TooFar)) := by
  rw [write]
  obtain ⟨-, he⟩ | ⟨n, -, -, he⟩ := s.reach_cases s.cursor.row
  · rw [he]
    dsimp only [Outcome.andThen]
    split
    · rename_i hfar
      exact .inl ⟨rfl, hfar, rfl⟩
    · rename_i hfar
      refine .inr ⟨fun hf ↦ ?_, fun _ ↦ hfar⟩
      split at hf
      · obtain ⟨n, -, hn⟩ := moveTo_fault hf
        exact Fault.raised_lineLimit_ne_overflow hn.symm
      · cases hf
  · rw [he]
    refine .inr ⟨fun hf ↦ Fault.raised_lineLimit_ne_overflow (Option.some.inj hf), fun hn ↦ ?_⟩
    cases hn

theorem plane_write {s : Screen} {c : Char} {a : Style} (hfits : (s.write c a).fault ≠ some .overflow) :
    (s.write c a).state.plane = s.plane.write c a := by
  have hreach := s.plane_reach s.cursor.row
  have hwithin := s.within_of_reach s.cursor.row
  rw [write] at hfits ⊢
  rw [Plane.write]
  obtain ⟨-, he⟩ | ⟨n, -, -, he⟩ := s.reach_cases s.cursor.row
  · rw [he] at hreach hwithin hfits ⊢
    rw [← hreach] at hwithin ⊢
    have hcursor : (s.extend s.cursor.row).cursor = s.cursor := cursor_extend _ _
    have hrow : (s.extend s.cursor.row).cursor.row < (s.extend s.cursor.row).lines.size := by
      rw [hcursor, size_extend]
      omega
    generalize s.extend s.cursor.row = t at *
    rw [← hcursor] at hwithin
    have hput := t.view_put hrow ⟨c, a⟩
    dsimp only [Outcome.andThen]
    change _ = if t.plane.within t.cursor.row then
      if t.width ≤ t.cursor.column + 1 then (t.plane.set ⟨c, a⟩).newline else t.plane.set ⟨c, a⟩ else t.plane
    rw [hwithin, Option.isNone_none, if_pos (rfl : true = true)]
    have hfar : ¬t.TooFar := by
      intro hfar
      exact hfits (by simp only [Outcome.andThen, if_pos hfar])
    rw [if_neg hfar]
    split
    · rw [← hput]
      exact plane_moveTo _ _ _
    · exact hput
  · rw [he] at hwithin ⊢
    rw [if_neg (by simpa [plane] using hwithin)]
    rfl

theorem plane_move (s : Screen) (c : Command) (ps : Params) {f : Int → Outcome Screen} {g : Int → Plane}
    (h : ∀ n, (f n).state.plane = g n) : (s.move c ps f).state.plane = s.plane.move c ps g := by
  rw [move, Plane.move]
  cases single c 1 ps with
  | ok n => exact h n
  | error e => rfl

theorem plane_erase (s : Screen) (c : Command) (ps : Params) {f : EraseMode → Outcome Screen}
    {g : EraseMode → Plane} (h : ∀ m, (f m).state.plane = g m) :
    (s.erase c ps f).state.plane = s.plane.erase c ps g := by
  rw [erase, Plane.erase]
  cases eraseMode c ps with
  | ok m => exact h m
  | error e => rfl

theorem plane_perform (s : Screen) (c : Command) (ps : Params) :
    (s.perform c ps).state.plane = s.plane.perform c ps := by
  cases c with
  | up | back =>
    refine s.plane_move _ ps fun n ↦ (s.plane_moveTo _ _).trans ?_
    simp only [Int.add_zero, Int.sub_eq_add_neg]
    rfl
  | down | forward =>
    refine s.plane_move _ ps fun n ↦ (s.plane_moveTo _ _).trans ?_
    simp only [Int.add_zero]
    rfl
  | nextLine | previousLine => exact s.plane_move _ ps fun n ↦ s.plane_moveTo _ _
  | column =>
    match ps with
    | [x] => exact s.plane_moveTo (some (x.getD 1 - 1)) none
    | [] | _ :: _ :: _ => rfl
  | position =>
    match ps with
    | [] => exact s.plane_moveTo (some 0) (some 0)
    | [y, x] => exact s.plane_moveTo (some (x.getD 1 - 1)) (some (y.getD 1 - 1))
    | [_] | _ :: _ :: _ :: _ => rfl
  | eraseDisplay => exact s.plane_erase _ ps s.plane_eraseDisplay
  | eraseLine => exact s.plane_erase _ ps s.plane_eraseLine
  | save => cases ps <;> rfl
  | restore =>
    match ps with
    | [] => exact s.plane_moveTo (some s.cursor.savedColumn) (some s.cursor.savedRow)
    | _ :: _ => rfl

/-- What an action makes of the grid depends on nothing but the grid, unless a line is too short. -/
theorem plane_act {s : Screen} {a : Action} (hfits : (s.act a).fault ≠ some .overflow) :
    (s.act a).state.plane = s.plane.act a := by
  cases a with
  | write c a => exact plane_write hfits
  | newline => exact s.plane_moveTo _ _
  | command c ps => exact s.plane_perform c ps
  | row ps =>
    match ps with
    | [y] => exact s.plane_moveTo (some 0) (some (y.getD 1 - 1))
    | [] | _ :: _ :: _ => rfl

theorem plane_act_cases (s : Screen) (a : Action) :
    (s.act a).state.plane = s.plane.act a ∨ (s.act a).state.plane = s.plane := by
  by_cases hfits : (s.act a).fault = some .overflow
  · cases a with
    | write c a =>
      obtain ⟨he, -⟩ | ⟨hne, -⟩ := s.write_cases c a
      · refine .inr ?_
        change (s.write c a).state.plane = _
        rw [he]
        exact s.plane_extend _
      · exact absurd hfits hne
    | newline => exact .inl (s.plane_moveTo _ _)
    | command c ps => exact .inl (s.plane_perform c ps)
    | row ps =>
      match ps with
      | [y] => exact .inl (s.plane_moveTo (some 0) (some (y.getD 1 - 1)))
      | [] | _ :: _ :: _ => exact .inl rfl
  · exact .inl (plane_act hfits)

theorem plane_actAll {s t : Screen} (h : s.plane = t.plane) {as : List Action} (hs : s.Fits as) (ht : t.Fits as) :
    (s.actAll as).plane = (t.actAll as).plane := by
  induction as generalizing s t with
  | nil => exact h
  | cons a as ih =>
    refine ih ?_ hs.2 ht.2
    rw [plane_act hs.1, plane_act ht.1, h]

theorem fault_none {o : Outcome Screen} {L : Option Int}
    (ho : ∀ {f}, o.fault = some f → ∃ n ∈ L, f = (Fault.lineLimit n).raised)
    (h : ∀ n, o.fault ≠ some (Fault.lineLimit n).raised) : o.fault = none := by
  cases hf : o.fault with
  | none => rfl
  | some f =>
    obtain ⟨n, -, rfl⟩ := ho hf
    exact absurd hf (h n)

theorem within_of_write {s : Screen} {c : Char} {a : Style} (h : (s.write c a).fault = none) :
    s.plane.within s.cursor.row = true := by
  rw [within_of_reach]
  rw [write] at h
  cases hr : s.reach s.cursor.row with
  | mk t e =>
    rw [hr] at h
    cases e with
    | none => rfl
    | some e => cases h

theorem bound_zero (p : Plane) : p.bound 0 = 0 := by
  rw [Plane.bound]
  split
  · omega
  · rfl

theorem write_of_tooFar {s : Screen} (hrow : s.cursor.row < s.lines.size) (hfar : s.TooFar) {c : Char} {a : Style}
    (h : ∀ n, (s.write c a).fault ≠ some (Fault.lineLimit n).raised) : s.write c a = ⟨s, some .overflow⟩ := by
  have hextend : s.extend s.cursor.row = s := if_pos hrow
  obtain ⟨-, hr⟩ | ⟨n, -, -, he⟩ := s.reach_cases s.cursor.row
  · obtain ⟨he, -⟩ | ⟨-, hne⟩ := s.write_cases c a
    · rw [he, hextend]
    · rw [hr, hextend] at hne
      exact absurd hfar (hne rfl)
  · refine absurd ?_ (h n)
    rw [write, he]
    rfl

theorem write_seen {s : Screen} {c : Char} {a : Style} (hfits : (s.write c a).fault ≠ some .overflow)
    (h : ∀ n, (s.write c a).fault ≠ some (Fault.lineLimit n).raised) :
    (s.write c a).fault = none ∧
    (∀ y x, (s.write c a).state.view y x =
      if y = s.cursor.row ∧ x = s.cursor.column then ⟨c, a⟩ else s.view y x) ∧
    (s.write c a).state.cursor =
      if s.width ≤ s.cursor.column + 1 then { s.cursor with column := 0, row := s.cursor.row + 1 }
      else { s.cursor with column := s.cursor.column + 1 } := by
  have hf := fault_none (fun hf ↦ (write_fault hf).resolve_left fun he ↦ hfits (he ▸ hf)) h
  have hp := plane_write hfits
  rw [Plane.write, show s.plane.cursor = s.cursor from rfl, if_pos (within_of_write hf)] at hp
  have hview := congrArg Plane.cell hp
  have hcursor := congrArg Plane.cursor hp
  refine ⟨hf, fun y x ↦ ?_, ?_⟩
  · refine (congrFun (congrFun hview y) x).trans ?_
    split <;> rfl
  · refine hcursor.trans ?_
    change (if s.width ≤ s.cursor.column + 1 then _ else _ : Plane).cursor = _
    split
    · simp [Plane.newline, Plane.moveTo, Plane.set, bound_zero, plane]
    · rfl

theorem eraseLine_seen {s : Screen} (hrow : s.cursor.row < s.lines.size) {ps : Params} {m : EraseMode}
    (hm : eraseMode .eraseLine ps = .ok m) :
    (s.perform .eraseLine ps).fault = none ∧
    (∀ y x, (s.perform .eraseLine ps).state.view y x =
      if m.inLine s.cursor y x then .blank else s.view y x) ∧
    (s.perform .eraseLine ps).state.cursor = s.cursor := by
  have he : s.perform .eraseLine ps = s.eraseLine m := by
    simp only [perform, erase, hm]
  have hp := s.plane_eraseLine m
  rw [he]
  refine ⟨?_, fun y x ↦ ?_, congrArg Plane.cursor hp⟩
  · cases m <;> simp [eraseLine, truncateLine, blankLineThroughCursor, clearLine, editLine, hrow]
  · exact congrFun (congrFun (congrArg Plane.cell hp) y) x

theorem eraseDisplay_seen {s : Screen} (hrow : s.cursor.row < s.lines.size) {ps : Params} {m : EraseMode}
    (hm : eraseMode .eraseDisplay ps = .ok m)
    (h : ∀ n, (s.perform .eraseDisplay ps).fault ≠ some (Fault.lineLimit n).raised) :
    (s.perform .eraseDisplay ps).fault = none ∧
    (∀ y x, (s.perform .eraseDisplay ps).state.view y x =
      if m.inDisplay s.cursor y x then .blank else s.view y x) ∧
    (s.perform .eraseDisplay ps).state.cursor =
      if m = .all then { s.cursor with column := 0, row := 0 } else s.cursor := by
  have he : s.perform .eraseDisplay ps = s.eraseDisplay m := by
    simp only [perform, erase, hm]
  have hp := s.plane_eraseDisplay m
  rw [he] at h ⊢
  cases m with
  | after =>
    refine ⟨?_, fun y x ↦ congrFun (congrFun (congrArg Plane.cell hp) y) x, congrArg Plane.cursor hp⟩
    simp [eraseDisplay, truncateLine, editLine, hrow, Outcome.andThen]
  | before =>
    refine ⟨?_, fun y x ↦ congrFun (congrFun (congrArg Plane.cell hp) y) x, congrArg Plane.cursor hp⟩
    simp [eraseDisplay, blankLineThroughCursor, clearAbove, editLine, hrow]
  | all =>
    refine ⟨fault_none moveTo_fault h, fun y x ↦ congrFun (congrFun (congrArg Plane.cell hp) y) x, ?_⟩
    refine (congrArg Plane.cursor hp).trans ?_
    simp [Plane.eraseDisplay, Plane.moveTo, Plane.blank, bound_zero, plane]

theorem cell_move (p : Plane) (c : Command) (ps : Params) {f : Int → Plane}
    (h : ∀ n, (f n).cell = p.cell) : (p.move c ps f).cell = p.cell := by
  rw [Plane.move]
  cases single c 1 ps with
  | ok n => exact h n
  | error e => rfl

theorem cell_act (p : Plane) {a : Action} (h : a.IsMove) : (p.act a).cell = p.cell := by
  cases a with
  | write c a => exact h.elim
  | newline => rfl
  | command c ps =>
    cases c with
    | up | down | forward | back | nextLine | previousLine =>
      exact cell_move p _ ps fun _ ↦ rfl
    | column =>
      match ps with
      | [_] => rfl
      | [] | _ :: _ :: _ => rfl
    | position =>
      match ps with
      | [] | [_, _] => rfl
      | [_] | _ :: _ :: _ :: _ => rfl
    | eraseDisplay => exact absurd rfl h.2
    | eraseLine => exact absurd rfl h.1
    | save | restore => cases ps <;> rfl
  | row ps =>
    match ps with
    | [_] => rfl
    | [] | _ :: _ :: _ => rfl

theorem move_seen (s : Screen) {a : Action} (h : a.IsMove) : (s.act a).state.view = s.view := by
  obtain hp | hp := s.plane_act_cases a
  · exact (congrArg Plane.cell hp).trans (cell_act s.plane h)
  · exact congrArg Plane.cell hp

theorem inLine_numbered {n : Nat} (hn : n ≤ 2) (c : Cursor) (y x : Nat) :
    (EraseMode.numbered n).inLine c y x = true ↔ c.lineCells n y x := by
  obtain rfl | rfl | rfl : n = 0 ∨ n = 1 ∨ n = 2 := by omega
  all_goals simp [EraseMode.numbered, EraseMode.inLine, Cursor.lineCells]

theorem inDisplay_numbered {n : Nat} (hn : n ≤ 2) (c : Cursor) (y x : Nat) :
    (EraseMode.numbered n).inDisplay c y x = true ↔ c.displayCells n y x := by
  obtain rfl | rfl | rfl : n = 0 ∨ n = 1 ∨ n = 2 := by omega
  all_goals simp [EraseMode.numbered, EraseMode.inDisplay, EraseMode.inLine, Cursor.displayCells, Cursor.lineCells]

theorem numbered_eq_all_iff {n : Nat} (hn : n ≤ 2) : EraseMode.numbered n = .all ↔ n = 2 := by
  obtain rfl | rfl | rfl : n = 0 ∨ n = 1 ∨ n = 2 := by omega
  all_goals simp [EraseMode.numbered]

/-- A screen is a view of a grid without end. Its operations change exactly the cells and the cursor that
they name, but nothing is written behind more blanks than can be asked for. What they do to the grid does not
depend on how long the lines are and how many there are, as long as no line is that short. -/
theorem refines_grid (s : Screen) :
    (s.cursor.row < s.lines.size →
      (∀ c a, (∀ n, (s.write c a).fault ≠ some (Fault.lineLimit n).raised) →
        if s.TooFar then s.write c a = ⟨s, some .overflow⟩
        else
          (s.write c a).fault = none ∧
          (∀ y x, (s.write c a).state.view y x =
            if y = s.cursor.row ∧ x = s.cursor.column then ⟨c, a⟩ else s.view y x) ∧
          (s.write c a).state.cursor =
            if s.width ≤ s.cursor.column + 1 then { s.cursor with column := 0, row := s.cursor.row + 1 }
            else { s.cursor with column := s.cursor.column + 1 }) ∧
      (∀ ps n, EraseNumber ps n →
        (s.perform .eraseLine ps).fault = none ∧
        (∀ y x, (s.perform .eraseLine ps).state.view y x =
          if s.cursor.lineCells n y x then .blank else s.view y x) ∧
        (s.perform .eraseLine ps).state.cursor = s.cursor) ∧
      (∀ ps n, EraseNumber ps n →
        (∀ k, (s.perform .eraseDisplay ps).fault ≠ some (Fault.lineLimit k).raised) →
        (s.perform .eraseDisplay ps).fault = none ∧
        (∀ y x, (s.perform .eraseDisplay ps).state.view y x =
          if s.cursor.displayCells n y x then .blank else s.view y x) ∧
        (s.perform .eraseDisplay ps).state.cursor =
          if n = 2 then { s.cursor with column := 0, row := 0 } else s.cursor) ∧
      ∀ a : Action, a.IsMove → (s.act a).state.view = s.view) ∧
    ∀ (as : List Action) (t : Screen), s.view = t.view → s.cursor = t.cursor → s.width = t.width →
      s.maxLines = t.maxLines → s.maxColumns = t.maxColumns → s.Fits as → t.Fits as →
      (s.actAll as).view = (t.actAll as).view ∧ (s.actAll as).cursor = (t.actAll as).cursor := by
  refine ⟨fun hrow ↦ ⟨fun c a h ↦ ?_, fun ps n hn ↦ ?_, fun ps n hn h ↦ ?_, fun a ↦ s.move_seen⟩, ?_⟩
  · split
    · rename_i hfar
      exact write_of_tooFar hrow hfar h
    · rename_i hfar
      refine write_seen (fun hf ↦ hfar ?_) h
      obtain ⟨-, hfar', -⟩ | ⟨hne, -⟩ := s.write_cases c a
      · rwa [show s.extend s.cursor.row = s from if_pos hrow] at hfar'
      · exact absurd hf hne
  · have hseen := eraseLine_seen hrow (eraseMode_of_number (c := .eraseLine) hn)
    simpa only [inLine_numbered hn.le_two] using hseen
  · have hseen := eraseDisplay_seen hrow (eraseMode_of_number (c := .eraseDisplay) hn) h
    simpa only [inDisplay_numbered hn.le_two, numbered_eq_all_iff hn.le_two] using hseen
  · intro as t hview hcursor hwidth hlines hcolumns hs ht
    have hp : s.plane = t.plane := by
      simp only [plane, hview, hcursor, hwidth, hlines, hcolumns]
    have h := plane_actAll hp hs ht
    exact ⟨congrArg Plane.cell h, congrArg Plane.cursor h⟩

/-- The cursor has gone right as far as it takes, and the line is empty. -/
theorem write_unseen :
    let x := maxBlanks + 1
    let s := ((empty 80 none none).perform .forward [some x]).state
    s.cursor = ⟨x, 0, 0, 0⟩ ∧ s.cursor.row < s.lines.size ∧
      (s.write 'a' {}).fault = some .overflow ∧
      (s.write 'a' {}).state.view 0 x = .blank ∧ (s.write 'a' {}).state.cursor = s.cursor := by
  decide +kernel

end TermCapture.Screen
