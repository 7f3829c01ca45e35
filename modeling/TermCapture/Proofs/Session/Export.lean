import TermCapture.Grid
import TermCapture.Proofs.Color.Notation
import TermCapture.Proofs.Session.Contents

namespace TermCapture

/-- The cell that an exported one stands for, or why one of its colors cannot be read. -/
def GridCell.cell? (g : GridCell) : Except Color.NotationError Cell := do
  let foreground ← g.foreground.mapM Color.ofHex
  let background ← g.background.mapM Color.ofHex
  return {
    char := g.char
    style := { foreground, background, bold := g.bold, underline := g.underline, inverse := g.inverse } }

def Grid.cells? (g : Grid) : Except Color.NotationError (List (List Cell)) :=
  g.lines.mapM fun line ↦ line.mapM GridCell.cell?

theorem Color.mapM_ofHex_hex {c : Option Color} (h : ∀ d ∈ c, d.InRange) :
    (c.map Color.hex).mapM Color.ofHex = .ok c := by
  cases c with
  | none => rfl
  | some d =>
    rw [Option.map_some, Option.mapM_some, ofHex_hex (h d rfl)]
    rfl

theorem Cell.cell?_gridCell {c : Cell} (h : c.style.InRange) : c.gridCell.cell? = .ok c := by
  have hforeground := Color.mapM_ofHex_hex h.foreground
  have hbackground := Color.mapM_ofHex_hex h.background
  rw [GridCell.cell?, gridCell]
  dsimp only
  rw [hforeground, hbackground]
  rfl

theorem mapM_map_of_left {α β ε : Type} {f : β → Except ε α} {g : α → β} {as : List α}
    (h : ∀ a ∈ as, f (g a) = .ok a) : (as.map g).mapM f = .ok as := by
  induction as with
  | nil => rfl
  | cons a as ih =>
    rw [List.map_cons, List.mapM_cons, h a List.mem_cons_self, ih fun b hb ↦ h b (List.mem_cons_of_mem a hb)]
    rfl

/-- Every color of a screen is in range. -/
def Screen.InRange (s : Screen) : Prop := ∀ line ∈ s.lines, ∀ c ∈ line, c.style.InRange

theorem Screen.cells?_grid {s : Screen} (h : s.InRange) :
    s.grid.cells? = .ok (s.lines.toList.map Array.toList) := by
  rw [Grid.cells?, grid]
  dsimp only
  rw [show (fun line : Line ↦ line.toList.map Cell.gridCell) =
    (fun cs : List Cell ↦ cs.map Cell.gridCell) ∘ Array.toList from rfl, ← List.map_map]
  refine mapM_map_of_left fun cs hcs ↦ mapM_map_of_left fun c hc ↦ ?_
  obtain ⟨line, hline, rfl⟩ := List.mem_map.mp hcs
  exact Cell.cell?_gridCell (h line (Array.mem_toList_iff.mp hline) c (Array.mem_toList_iff.mp hc))

/-- Whatever a text stores, its colors have channels from 0 to 255. So the exported cells, read back one by one,
are the cells of the screen, line by line. -/
theorem Session.grid_reads_back (cfg : Config) (bs : List UInt8) :
    let s := (cfg.decode bs).session
    s.style.InRange ∧ s.screen.InRange ∧ s.screen.grid.cells? = .ok (s.screen.lines.toList.map Array.toList) := by
  intro s
  have h : s.Shows fun _ ↦ True := decode_shows trivial cfg.charset.yields_any bs
  have hscreen : s.screen.InRange := fun line hline c hc ↦ (h.cells.of_mem hline hc).1
  exact ⟨h.style, hscreen, Screen.cells?_grid hscreen⟩

end TermCapture
