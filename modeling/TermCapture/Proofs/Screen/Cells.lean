import TermCapture.Proofs.Screen.Simulation

namespace TermCapture

namespace Plane

open Screen (single eraseMode)

variable (p : Plane)

theorem cell_blank (r : Nat → Nat → Bool) (y x : Nat) :
    (p.blank r).cell y x = p.cell y x ∨ (p.blank r).cell y x = .blank := by
  rw [blank]
  dsimp only
  split
  · exact .inr rfl
  · exact .inl rfl

theorem cell_write (c : Char) (a : Style) (y x : Nat) :
    (p.write c a).cell y x = p.cell y x ∨ (p.write c a).cell y x = ⟨c, a⟩ := by
  have hset : (p.set ⟨c, a⟩).cell y x = p.cell y x ∨ (p.set ⟨c, a⟩).cell y x = ⟨c, a⟩ := by
    rw [set]
    dsimp only
    split
    · exact .inr rfl
    · exact .inl rfl
  unfold write
  split_ifs
  · exact hset
  · exact hset
  · exact .inl rfl

theorem cell_erase (c : Command) (ps : Params) {f : Screen.EraseMode → Plane}
    (h : ∀ m y x, (f m).cell y x = p.cell y x ∨ (f m).cell y x = .blank) (y x : Nat) :
    (p.erase c ps f).cell y x = p.cell y x ∨ (p.erase c ps f).cell y x = .blank := by
  rw [erase]
  cases eraseMode c ps with
  | ok m => exact h m y x
  | error e => exact .inl rfl

end Plane

namespace Screen

/-- An action leaves a cell as it is, blanks it, or is what writes it. -/
theorem view_act (s : Screen) (a : Action) (y x : Nat) :
    (s.act a).state.view y x = s.view y x ∨ (s.act a).state.view y x = .blank ∨
      ∃ c st, a = .write c st ∧ (s.act a).state.view y x = ⟨c, st⟩ := by
  by_cases hm : a.IsMove
  · rw [move_seen s hm]
    exact .inl rfl
  obtain hp | hp := s.plane_act_cases a
  case inr => exact .inl (congrFun (congrFun (congrArg Plane.cell hp) y) x)
  have hcell : (s.act a).state.view y x = (s.plane.act a).cell y x :=
    congrFun (congrFun (congrArg Plane.cell hp) y) x
  rw [hcell]
  cases a with
  | write c st =>
    obtain h | h := s.plane.cell_write c st y x
    · exact .inl h
    · exact .inr (.inr ⟨c, st, rfl, h⟩)
  | newline | row ps => exact absurd trivial hm
  | command c ps =>
    have herase : (s.plane.perform c ps).cell y x = s.plane.cell y x ∨
        (s.plane.perform c ps).cell y x = .blank := by
      cases c with
      | eraseLine => exact s.plane.cell_erase _ ps (fun m ↦ s.plane.cell_blank _) y x
      | eraseDisplay =>
        refine s.plane.cell_erase _ ps (fun m ↦ ?_) y x
        cases m with
        | after | before => exact s.plane.cell_blank _
        | all => exact s.plane.cell_blank (EraseMode.all.inDisplay s.cursor)
      | _ => exact absurd ⟨nofun, nofun⟩ hm
    obtain h | h := herase
    · exact .inl h
    · exact .inr (.inl h)

/-- Every cell of the grid has a property. -/
def Holds (P : Cell → Prop) (s : Screen) : Prop := ∀ y x, P (s.view y x)

variable {P : Cell → Prop} {s : Screen}

theorem empty_holds (hblank : P .blank) (width : Int) (maxLines maxColumns : Option Int) :
    (empty width maxLines maxColumns).Holds P := by
  intro y x
  have hempty : (empty width maxLines maxColumns).view y x = .blank := by
    cases y <;> rfl
  rw [hempty]
  exact hblank

theorem Holds.of_mem (h : s.Holds P) {l : Line} (hl : l ∈ s.lines) {c : Cell} (hc : c ∈ l) : P c := by
  obtain ⟨y, hy⟩ := Array.mem_iff_getElem?.mp hl
  obtain ⟨x, hx⟩ := Array.mem_iff_getElem?.mp hc
  have := h y x
  rwa [view, rowAt, hy, Line.cell, Option.getD_some, hx] at this

section

variable (hblank : P .blank)

include hblank

theorem Holds.act (h : s.Holds P) {a : Action} (ha : ∀ c st, a = .write c st → P ⟨c, st⟩) :
    (s.act a).state.Holds P := by
  intro y x
  obtain he | he | ⟨c, st, hw, he⟩ := s.view_act a y x
  · rw [he]
    exact h y x
  · rw [he]
    exact hblank
  · rw [he]
    exact ha c st hw

theorem Holds.writeAll (h : s.Holds P) {st : Style} {cs : List Char} (hcs : ∀ c ∈ cs, P ⟨c, st⟩) :
    (s.writeAll st cs).state.Holds P := by
  induction cs generalizing s with
  | nil => exact h
  | cons c cs ih =>
    have hw : (s.write c st).state.Holds P := by
      refine h.act hblank (a := .write c st) ?_
      rintro c' st' ⟨⟩
      exact hcs c List.mem_cons_self
    exact Outcome.andThen_state hw fun t ht ↦ ih ht fun c' hc' ↦ hcs c' (List.mem_cons_of_mem c hc')

end

end Screen

end TermCapture
