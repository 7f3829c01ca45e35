import TermCapture.Proofs.Screen.Bare
import TermCapture.Proofs.Screen.Simulation

namespace TermCapture.Screen

/-- A screen that is not limited, with the same lines and the same cursor. -/
def unlimited (s : Screen) : Screen := { s with maxLines := none, maxColumns := none }

/-- A place that the limits of a screen allow. -/
structure Admits (s : Screen) (c : Cursor) : Prop where
  row_lt : ∀ n ∈ s.maxLines, (c.row : Int) < n
  column_lt : ∀ n ∈ s.maxColumns, (c.column : Int) < n

theorem unlimited_extend (s : Screen) (row : Nat) : (s.extend row).unlimited = s.unlimited.extend row := by
  unfold extend unlimited
  dsimp only
  split <;> rfl

theorem unlimited_reach {s : Screen} {row : Nat} (h : ∀ n ∈ s.maxLines, (row : Int) < n) :
    (s.reach row).map unlimited = s.unlimited.reach row := by
  obtain ⟨-, he⟩ | ⟨n, hn, hle, -⟩ := s.reach_cases row
  · rw [he]
    exact congrArg (Outcome.mk · none) (s.unlimited_extend row)
  · exact absurd (h n hn) (by omega)

/-- A column that is left of the limit is not held back, and neither is one left of the screen. -/
theorem boundColumn_of_lt {s : Screen} {x : Int} (h : ∀ n ∈ s.maxColumns, (x.toNat : Int) < n ∨ x ≤ 0) :
    s.boundColumn x = x.toNat := by
  unfold boundColumn
  cases hc : s.maxColumns with
  | none => rfl
  | some n =>
    have := h n hc
    dsimp only
    omega

theorem unlimited_moveTo {s : Screen} {x y : Option Int} (hx : ∀ v ∈ x, s.boundColumn v = v.toNat)
    (hy : ∀ n ∈ s.maxLines, ((s.unlimited.landing x y).row : Int) < n) :
    (s.moveTo x y).map unlimited = s.unlimited.moveTo x y := by
  have hcolumn : x.map s.boundColumn = x.map s.unlimited.boundColumn := Option.map_congr hx
  have hlanding : s.landing x y = s.unlimited.landing x y := by
    unfold landing
    rw [hcolumn]
    rfl
  rw [moveTo_eq, moveTo_eq, hlanding]
  exact unlimited_reach (s := { s with cursor := s.unlimited.landing x y }) hy

theorem unlimited_moveTo_of_admits {s : Screen} {x y : Option Int}
    (h : s.Admits (s.unlimited.moveTo x y).state.cursor) :
    (s.moveTo x y).map unlimited = s.unlimited.moveTo x y := by
  rw [cursor_moveTo] at h
  refine unlimited_moveTo (fun v hv ↦ boundColumn_of_lt fun n hn ↦ .inl ?_) h.row_lt
  obtain rfl : x = some v := hv
  exact h.column_lt n hn

theorem unlimited_newline {s : Screen} (h : ∀ n ∈ s.maxLines, (s.cursor.row : Int) + 1 < n) :
    s.newline.map unlimited = s.unlimited.newline := by
  refine unlimited_moveTo ?_ h
  rintro v ⟨⟩
  exact boundColumn_of_lt fun n hn ↦ .inr (Int.le_refl 0)

/-- Without a line limit a character is written, or nothing is. -/
theorem write_of_none {s : Screen} (h : s.maxLines = none) (c : Char) (a : Style) :
    ((s.write c a).fault = some .overflow ∧ (s.write c a).state.cursor = s.cursor ∧ s.TooFar) ∨
      (¬s.TooFar ∧ (s.write c a).fault = none ∧
        (s.write c a).state.cursor.row = s.cursor.row + if s.width ≤ s.cursor.column + 1 then 1 else 0) := by
  have hlimit : ∀ n, (s.write c a).fault ≠ some (Fault.lineLimit n).raised := by
    intro n hn
    obtain he | ⟨_, hm, -⟩ := write_fault hn
    · exact Fault.raised_lineLimit_ne_overflow he
    · rw [h] at hm
      cases hm
  have hreach : (s.reach s.cursor.row).fault = none := by
    obtain ⟨-, he⟩ | ⟨n, hn, -⟩ := s.reach_cases s.cursor.row
    · rw [he]
    · rw [h] at hn
      cases hn
  obtain ⟨he, hfar, -⟩ | ⟨hfits, hnear⟩ := s.write_cases c a
  · rw [he]
    exact .inl ⟨rfl, cursor_extend _ _, (s.tooFar_extend _).mp hfar⟩
  · obtain ⟨hf, -, hcursor⟩ := write_seen hfits hlimit
    refine .inr ⟨fun hfar ↦ hnear hreach ((s.tooFar_extend _).mpr hfar), hf, (congrArg Cursor.row hcursor).trans ?_⟩
    split <;> rfl

/-- Where a write without a limit ends up within it, the cursor was within it, and so is the next row if the line is
full. -/
theorem row_lt_of_write {s : Screen} {c : Char} {a : Style}
    (h : ∀ n ∈ s.maxLines, ((s.unlimited.write c a).state.cursor.row : Int) < n) :
    ∀ n ∈ s.maxLines, (s.cursor.row : Int) < n ∧
      (s.width ≤ s.cursor.column + 1 → ¬s.TooFar → (s.cursor.row : Int) + 1 < n) := by
  intro n hn
  have hlt := h n hn
  obtain ⟨-, hcursor, hfar⟩ | ⟨-, -, hnext⟩ := write_of_none (s := s.unlimited) rfl c a
  · rw [hcursor] at hlt
    exact ⟨hlt, fun _ hnear ↦ absurd hfar hnear⟩
  · rw [hnext] at hlt
    change ((s.cursor.row + if s.width ≤ s.cursor.column + 1 then 1 else 0 : Nat) : Int) < n at hlt
    split at hlt
    · omega
    · omega

/-- The width alone says where a text wraps, so only the row matters. -/
theorem unlimited_write {s : Screen} {c : Char} {a : Style}
    (h : ∀ n ∈ s.maxLines, ((s.unlimited.write c a).state.cursor.row : Int) < n) :
    (s.write c a).map unlimited = s.unlimited.write c a := by
  have hrow := row_lt_of_write h
  have hplane := s.plane_extend s.cursor.row
  have hextend := s.tooFar_extend s.cursor.row
  have hreach : s.reach s.cursor.row = ⟨s.extend s.cursor.row, none⟩ := by
    obtain ⟨-, he⟩ | ⟨n, hn, hle, -⟩ := s.reach_cases s.cursor.row
    · exact he
    · exact absurd (hrow n hn).1 (by omega)
  unfold write
  rw [show s.unlimited.reach s.unlimited.cursor.row = _ from (unlimited_reach fun n hn ↦ (hrow n hn).1).symm]
  refine Outcome.map_andThen_of ?_
  rw [hreach]
  generalize s.extend s.cursor.row = t at hplane hextend
  have hwidth : t.width = s.width := congrArg Plane.width hplane
  have hcursor : t.cursor = s.cursor := congrArg Plane.cursor hplane
  have hlines : t.maxLines = s.maxLines := congrArg Plane.maxLines hplane
  by_cases hfar : t.TooFar
  · exact (congrArg (Outcome.map unlimited) (if_pos hfar)).trans (if_pos (show t.unlimited.TooFar from hfar)).symm
  refine (congrArg (Outcome.map unlimited) (if_neg hfar)).trans
    (Eq.trans ?_ (if_neg (show ¬t.unlimited.TooFar from hfar)).symm)
  by_cases hw : t.width ≤ t.cursor.column + 1
  · refine (congrArg (Outcome.map unlimited) (if_pos hw)).trans
      (Eq.trans (unlimited_newline fun n hn ↦ ?_) (if_pos hw).symm)
    rw [hwidth, hcursor] at hw
    change (t.cursor.row : Int) + 1 < n
    rw [hcursor]
    exact (hrow n (hlines ▸ hn)).2 hw fun hs ↦ hfar (hextend.mpr hs)
  · exact (congrArg (Outcome.map unlimited) (if_neg hw)).trans (if_neg (show ¬t.unlimited.width ≤ _ from hw)).symm

theorem maxLines_write (s : Screen) (c : Char) (a : Style) : (s.write c a).state.maxLines = s.maxLines := by
  obtain hp | hp := s.plane_act_cases (.write c a)
  · refine (congrArg Plane.maxLines hp).trans ?_
    change (s.plane.write c a).maxLines = _
    unfold Plane.write
    split_ifs <;> rfl
  · exact congrArg Plane.maxLines hp

/-- Text that is written without a limit never leads back to an earlier row. -/
theorem writeAll_of_none {s : Screen} (h : s.maxLines = none) (a : Style) (cs : List Char) :
    s.cursor.row ≤ (writeAll a cs s).state.cursor.row := by
  induction cs generalizing s with
  | nil => exact Nat.le_refl _
  | cons c cs ih =>
    rw [writeAll]
    obtain ⟨hf, hcursor, -⟩ | ⟨-, hf, hrow⟩ := write_of_none h c a
    · exact Nat.le_of_eq (by rw [Outcome.andThen_of_some hf, hcursor])
    · have hrow' := ih ((s.maxLines_write c a).trans h)
      rw [Outcome.andThen_of_none hf]
      omega

theorem unlimited_writeAll {a : Style} {cs : List Char} {s : Screen}
    (h : ∀ n ∈ s.maxLines, ((writeAll a cs s.unlimited).state.cursor.row : Int) < n) :
    (writeAll a cs s).map unlimited = writeAll a cs s.unlimited := by
  induction cs generalizing s with
  | nil => rfl
  | cons c cs ih =>
    have hnone : (s.unlimited.write c a).state.maxLines = none := s.unlimited.maxLines_write c a
    have hrow : (s.unlimited.write c a).state.cursor.row ≤ (writeAll a (c :: cs) s.unlimited).state.cursor.row := by
      rw [writeAll]
      cases hf : (s.unlimited.write c a).fault with
      | none =>
        rw [Outcome.andThen_of_none hf]
        exact writeAll_of_none hnone a cs
      | some f => exact Nat.le_of_eq (by rw [Outcome.andThen_of_some hf])
    have hw : (s.write c a).map unlimited = s.unlimited.write c a := by
      refine unlimited_write fun n hn ↦ ?_
      have := h n hn
      omega
    cases hf : (s.unlimited.write c a).fault with
    | none =>
      rw [writeAll, Outcome.andThen_of_none hf] at h
      rw [writeAll, writeAll, ← hw]
      refine Outcome.map_andThen_of (ih fun n hn ↦ ?_)
      rw [maxLines_write] at hn
      have := h n hn
      rwa [← hw] at this
    | some f =>
      have hf' : (s.write c a).fault = some f := by
        rw [← hw] at hf
        exact hf
      rw [writeAll, writeAll, Outcome.andThen_of_some hf, Outcome.andThen_of_some hf', ← hw]
      rfl

theorem unlimited_editLine (s : Screen) (f : Line → Line) :
    (s.editLine f).map unlimited = s.unlimited.editLine f := by
  unfold editLine unlimited
  dsimp only
  split <;> rfl

theorem unlimited_eraseLine (s : Screen) (m : EraseMode) :
    (s.eraseLine m).map unlimited = s.unlimited.eraseLine m := by
  cases m <;> exact s.unlimited_editLine _

theorem unlimited_eraseDisplay {s : Screen} {m : EraseMode}
    (h : s.Admits (s.unlimited.eraseDisplay m).state.cursor) :
    (s.eraseDisplay m).map unlimited = s.unlimited.eraseDisplay m := by
  cases m with
  | after =>
    unfold eraseDisplay
    rw [show s.unlimited.truncateLine = _ from (s.unlimited_eraseLine .after).symm]
    exact Outcome.map_andThen (f := unlimited) (g := fun t ↦ ⟨t.truncateBelow, none⟩) (fun _ ↦ rfl) _
  | before => exact s.clearAbove.unlimited_editLine _
  | all => exact unlimited_moveTo_of_admits (s := s.clearAll) ⟨h.row_lt, h.column_lt⟩

theorem unlimited_move {s : Screen} {c : Command} {ps : Params} {f g : Int → Outcome Screen}
    (hf : ∀ n, s.Admits (g n).state.cursor → (f n).map unlimited = g n)
    (h : s.Admits (s.unlimited.move c ps g).state.cursor) :
    (s.move c ps f).map unlimited = s.unlimited.move c ps g := by
  unfold move at h ⊢
  cases hs : single c 1 ps with
  | ok n =>
    rw [hs] at h
    exact hf n h
  | error e => rfl

theorem unlimited_erase {s : Screen} {c : Command} {ps : Params} {f g : EraseMode → Outcome Screen}
    (hf : ∀ m, s.Admits (g m).state.cursor → (f m).map unlimited = g m)
    (h : s.Admits (s.unlimited.erase c ps g).state.cursor) :
    (s.erase c ps f).map unlimited = s.unlimited.erase c ps g := by
  unfold erase at h ⊢
  cases hs : eraseMode c ps with
  | ok m =>
    rw [hs] at h
    exact hf m h
  | error e => rfl

/-- A command whose way the limits admit is performed as if there were none. -/
theorem unlimited_perform {s : Screen} {c : Command} {ps : Params}
    (h : s.Admits (s.unlimited.perform c ps).state.cursor) :
    (s.perform c ps).map unlimited = s.unlimited.perform c ps := by
  cases c with
  | up | down | forward | back | nextLine | previousLine =>
    exact unlimited_move (fun n ↦ unlimited_moveTo_of_admits) h
  | column =>
    match ps with
    | [_] => exact unlimited_moveTo_of_admits h
    | [] | _ :: _ :: _ => rfl
  | position =>
    match ps with
    | [] | [_, _] => exact unlimited_moveTo_of_admits h
    | [_] | _ :: _ :: _ :: _ => rfl
  | eraseDisplay => exact unlimited_erase (fun m ↦ unlimited_eraseDisplay) h
  | eraseLine => exact unlimited_erase (fun m _ ↦ s.unlimited_eraseLine m) h
  | save => cases ps <;> rfl
  | restore =>
    match ps with
    | [] => exact unlimited_moveTo_of_admits h
    | _ :: _ => rfl

theorem unlimited_moveToRow {s : Screen} {ps : Params} (h : s.Admits (s.unlimited.moveToRow ps).state.cursor) :
    (s.moveToRow ps).map unlimited = s.unlimited.moveToRow ps := by
  match ps with
  | [_] => exact unlimited_moveTo_of_admits h
  | [] | _ :: _ :: _ => rfl

end TermCapture.Screen
