import TermCapture.Proofs.Screen.Moves

namespace TermCapture

namespace Outcome

variable {σ : Type}

def map (f : σ → σ) (o : Outcome σ) : Outcome σ := ⟨f o.state, o.fault⟩

theorem map_andThen_of {f : σ → σ} {g h : σ → Outcome σ} {o : Outcome σ}
    (hg : (g o.state).map f = h (f o.state)) : (o.andThen g).map f = (o.map f).andThen h := by
  obtain ⟨s, _ | e⟩ := o
  · exact hg
  · rfl

theorem map_andThen {f : σ → σ} {g h : σ → Outcome σ} (hg : ∀ s, (g s).map f = h (f s)) (o : Outcome σ) :
    (o.andThen g).map f = (o.map f).andThen h := map_andThen_of (hg o.state)

end Outcome

/-- A cell without its style. -/
def Cell.bare (c : Cell) : Cell := ⟨c.char, {}⟩

def Line.bare (l : Line) : Line := l.map Cell.bare

theorem Line.bare_empty : Line.bare #[] = #[] := Array.map_empty

namespace Screen

/-- A screen without its styles. Its lines are as many and as long. -/
def bare (s : Screen) : Screen := { s with lines := s.lines.map Line.bare }

theorem bare_extend (s : Screen) (row : Nat) : (s.extend row).bare = s.bare.extend row := by
  unfold extend bare
  dsimp only
  rw [Array.size_map]
  split
  · rfl
  · rw [Array.map_append, Array.map_replicate, Line.bare_empty]

theorem bare_reach (s : Screen) (row : Nat) : (s.reach row).map bare = s.bare.reach row := by
  obtain ⟨hr, he⟩ | ⟨n, hn, hle, he⟩ := s.reach_cases row
  · rw [he]
    obtain ⟨-, he'⟩ | ⟨n, hn, hle, -⟩ := s.bare.reach_cases row
    · rw [he', ← bare_extend]
      rfl
    · exact absurd (hr n hn) (by omega)
  · rw [he]
    obtain ⟨hr, -⟩ | ⟨m, hm, -, he'⟩ := s.bare.reach_cases row
    · exact absurd (hr n hn) (by omega)
    · rw [he']
      cases Option.mem_unique hn hm
      rfl

theorem bare_moveTo (s : Screen) (x y : Option Int) : (s.moveTo x y).map bare = s.bare.moveTo x y := by
  unfold moveTo
  exact bare_reach _ _

theorem bare_newline (s : Screen) : s.newline.map bare = s.bare.newline := s.bare_moveTo _ _

theorem bare_put (x : Nat) (c : Cell) (l : Line) : (put x c l).bare = put x c.bare l.bare := by
  unfold put Line.bare
  rw [Array.size_map]
  split
  · exact Array.map_setIfInBounds
  · simp only [Array.map_push, Array.map_append, Array.map_replicate]
    rfl

theorem bare_modify {f g : Line → Line} (h : ∀ l, (f l).bare = g l.bare) (lines : Array Line) (row : Nat) :
    (lines.modify row f).map Line.bare = (lines.map Line.bare).modify row g := by
  refine Array.ext_getElem? fun y ↦ ?_
  rw [Array.getElem?_map, Array.getElem?_modify, Array.getElem?_modify, Array.getElem?_map]
  split
  · cases lines[y]? with
    | none => rfl
    | some l => exact congrArg some (h l)
  · rfl

theorem rowAt_bare (s : Screen) (y : Nat) : s.bare.rowAt y = (s.rowAt y).bare := by
  unfold rowAt bare
  dsimp only
  rw [Array.getElem?_map]
  cases s.lines[y]? with
  | none => exact Line.bare_empty.symm
  | some l => rfl

theorem tooFar_bare (s : Screen) : s.bare.TooFar ↔ s.TooFar := by
  unfold TooFar
  rw [rowAt_bare, Line.bare, Array.size_map]
  rfl

theorem bare_write (s : Screen) (c : Char) (a : Style) : (s.write c a).map bare = s.bare.write c {} := by
  unfold write
  rw [← bare_reach]
  refine Outcome.map_andThen (fun t ↦ ?_) _
  have hlines := bare_modify (bare_put t.cursor.column ⟨c, a⟩) t.lines t.cursor.row
  by_cases hfar : t.TooFar
  · rw [if_pos hfar, if_pos (t.tooFar_bare.mpr hfar)]
    rfl
  rw [if_neg hfar, if_neg (mt t.tooFar_bare.mp hfar)]
  dsimp only [bare]
  rw [← show _ = Array.modify _ _ (put _ ⟨c, {}⟩) from hlines]
  split
  · exact bare_moveTo _ _ _
  · rfl

theorem bare_writeAll (a : Style) (cs : List Char) (s : Screen) :
    (writeAll a cs s).map bare = writeAll {} cs s.bare := by
  induction cs generalizing s with
  | nil => rfl
  | cons c cs ih =>
    unfold writeAll
    rw [← bare_write s c a]
    exact Outcome.map_andThen ih _

theorem bare_editLine {f g : Line → Line} (h : ∀ l, (f l).bare = g l.bare) (s : Screen) :
    (s.editLine f).map bare = s.bare.editLine g := by
  unfold editLine
  rw [bare, Array.size_map, ← bare_modify h]
  dsimp only
  split <;> rfl

theorem bare_shrink (x : Nat) (l : Line) : Line.bare (l.shrink x) = l.bare.shrink x := by
  refine Array.toList_inj.mp ?_
  simp [Line.bare]

theorem bare_blankThrough (x : Nat) (l : Line) : (blankThrough x l).bare = blankThrough x l.bare := by
  unfold blankThrough Line.bare
  rw [Array.size_map]
  split
  · exact Array.map_empty
  · refine Array.ext_getElem? fun y ↦ ?_
    simp only [Array.getElem?_map, Array.getElem?_mapIdx]
    cases l[y]? with
    | none => rfl
    | some c =>
      simp only [Option.map_some]
      split <;> rfl

theorem bare_eraseLine (s : Screen) (m : EraseMode) : (s.eraseLine m).map bare = s.bare.eraseLine m := by
  cases m with
  | after => exact bare_editLine (bare_shrink _) s
  | before => exact bare_editLine (bare_blankThrough _) s
  | all => exact bare_editLine (fun _ ↦ Line.bare_empty) s

theorem bare_truncateBelow (s : Screen) : s.truncateBelow.bare = s.bare.truncateBelow := by
  unfold truncateBelow bare
  congr 1
  refine Array.toList_inj.mp ?_
  simp

theorem bare_clearAbove (s : Screen) : s.clearAbove.bare = s.bare.clearAbove := by
  unfold clearAbove bare
  congr 1
  refine Array.ext_getElem? fun y ↦ ?_
  simp only [Array.getElem?_map, Array.getElem?_mapIdx]
  cases s.lines[y]? with
  | none => rfl
  | some l =>
    simp only [Option.map_some]
    split
    · rw [Line.bare_empty]
    · rfl

theorem bare_clearAll (s : Screen) : s.clearAll.bare = s.bare.clearAll := by
  unfold clearAll bare
  congr 1
  rw [Array.map_map, Array.map_map]
  exact Array.map_congr_left fun _ _ ↦ Line.bare_empty

theorem bare_eraseDisplay (s : Screen) (m : EraseMode) :
    (s.eraseDisplay m).map bare = s.bare.eraseDisplay m := by
  cases m with
  | after =>
    unfold eraseDisplay
    rw [show s.bare.truncateLine = _ from (bare_eraseLine s .after).symm]
    exact Outcome.map_andThen (fun t ↦ congrArg (Outcome.mk · none) t.bare_truncateBelow) _
  | before =>
    unfold eraseDisplay
    rw [← bare_clearAbove]
    exact bare_eraseLine s.clearAbove .before
  | all =>
    unfold eraseDisplay
    rw [← bare_clearAll]
    exact bare_moveTo _ _ _

theorem bare_move (s : Screen) (c : Command) (ps : Params) {f g : Int → Outcome Screen}
    (h : ∀ n, (f n).map bare = g n) : (s.move c ps f).map bare = s.bare.move c ps g := by
  unfold move
  cases single c 1 ps with
  | ok n => exact h n
  | error e => rfl

theorem bare_erase (s : Screen) (c : Command) (ps : Params) {f g : EraseMode → Outcome Screen}
    (h : ∀ m, (f m).map bare = g m) : (s.erase c ps f).map bare = s.bare.erase c ps g := by
  unfold erase
  cases eraseMode c ps with
  | ok m => exact h m
  | error e => rfl

theorem bare_perform (s : Screen) (c : Command) (ps : Params) :
    (s.perform c ps).map bare = s.bare.perform c ps := by
  cases c with
  | up | down | forward | back | nextLine | previousLine =>
    exact s.bare_move _ ps fun n ↦ s.bare_moveTo _ _
  | column =>
    match ps with
    | [_] => exact s.bare_moveTo _ _
    | [] | _ :: _ :: _ => rfl
  | position =>
    match ps with
    | [] | [_, _] => exact s.bare_moveTo _ _
    | [_] | _ :: _ :: _ :: _ => rfl
  | eraseDisplay => exact s.bare_erase _ ps s.bare_eraseDisplay
  | eraseLine => exact s.bare_erase _ ps s.bare_eraseLine
  | save => cases ps <;> rfl
  | restore =>
    match ps with
    | [] => exact s.bare_moveTo _ _
    | _ :: _ => rfl

theorem bare_moveToRow (s : Screen) (ps : Params) : (s.moveToRow ps).map bare = s.bare.moveToRow ps := by
  match ps with
  | [_] => exact s.bare_moveTo _ _
  | [] | _ :: _ :: _ => rfl

end Screen

end TermCapture
