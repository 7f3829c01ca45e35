import Mathlib.Data.List.Chain
import TermCapture.Run

namespace TermCapture

namespace Run

/-- The cells of a run, one for each character. -/
def cells (r : Run) : List Cell := r.chars.map fun c ↦ ⟨c, r.style⟩

/-- The cells of runs that stand one behind the other. -/
def expand (rs : List Run) : List Cell := rs.flatMap cells

/-- Runs that cannot be put together: none is empty, and neighbors differ in style. -/
structure Maximal (rs : List Run) : Prop where
  chars_ne_nil : ∀ r ∈ rs, r.chars ≠ []
  styles_differ : rs.IsChain fun r r' ↦ r.style ≠ r'.style

/-- A run in front of others joins the first of them if that has its style. -/
def join (r : Run) : List Run → List Run
  | [] => [r]
  | r' :: rs => if r'.style = r.style then ⟨r'.style, r.chars ++ r'.chars⟩ :: rs else r :: r' :: rs

theorem expand_join (r : Run) (rs : List Run) : expand (r.join rs) = r.cells ++ expand rs := by
  cases rs with
  | nil => rfl
  | cons r' rs =>
    by_cases h : r'.style = r.style
    · simp only [join, if_pos h, expand, List.flatMap_cons]
      simp only [cells, List.map_append, List.append_assoc, h]
    · simp only [join, if_neg h, expand, List.flatMap_cons]

theorem Maximal.join {r : Run} {rs : List Run} (h : Maximal rs) (hr : r.chars ≠ []) : Maximal (r.join rs) := by
  cases rs with
  | nil => exact ⟨by simpa [Run.join] using hr, by simp [Run.join]⟩
  | cons r' rs =>
    obtain ⟨hr', hrs⟩ := List.forall_mem_cons.mp h.chars_ne_nil
    have hchain := h.styles_differ
    by_cases he : r'.style = r.style
    · simp only [Run.join, if_pos he]
      refine ⟨List.forall_mem_cons.mpr ⟨?_, hrs⟩, ?_⟩
      · exact fun hnil ↦ hr (List.append_eq_nil_iff.mp hnil).1
      · -- the joint run keeps the style of the first one, from which the run behind it differs
        exact List.isChain_cons.mpr (List.isChain_cons.mp hchain)
    · simp only [Run.join, if_neg he]
      refine ⟨List.forall_mem_cons.mpr ⟨hr, h.chars_ne_nil⟩, ?_⟩
      exact List.isChain_cons_cons.mpr ⟨Ne.symm he, hchain⟩

theorem Maximal.join_eq {r : Run} {rs : List Run} (h : Maximal (r :: rs)) : r.join rs = r :: rs := by
  cases rs with
  | nil => rfl
  | cons r' rs =>
    have hne := (List.isChain_cons_cons.mp h.styles_differ).1
    simp only [Run.join, if_neg hne.symm]

theorem Maximal.tail {r : Run} {rs : List Run} (h : Maximal (r :: rs)) : Maximal rs :=
  ⟨fun r' hr' ↦ h.chars_ne_nil r' (List.mem_cons_of_mem r hr'), h.styles_differ.tail⟩

theorem length_join (r : Run) (rs : List Run) :
    (r.join rs).length ≤ rs.length ∨ r.join rs = r :: rs := by
  cases rs with
  | nil => exact .inr rfl
  | cons r' rs =>
    by_cases h : r'.style = r.style
    · exact .inl (by simp only [join, if_pos h, List.length_cons, le_refl])
    · exact .inr (by simp only [join, if_neg h])

/-- The runs of cells, put together from the last cell on. -/
def group (cs : List Cell) : List Run := cs.foldr (fun c ↦ join ⟨c.style, [c.char]⟩) []

theorem group_cons (c : Cell) (cs : List Cell) : group (c :: cs) = join ⟨c.style, [c.char]⟩ (group cs) := rfl

theorem expand_group (cs : List Cell) : expand (group cs) = cs := by
  induction cs with
  | nil => rfl
  | cons c cs ih =>
    rw [group_cons, expand_join, ih]
    rfl

theorem group_maximal (cs : List Cell) : Maximal (group cs) := by
  induction cs with
  | nil => exact ⟨by simp [group], by simp [group]⟩
  | cons c cs ih =>
    rw [group_cons]
    exact ih.join (List.cons_ne_nil _ _)

theorem join_join (a : Style) (cs : List Char) {ds : List Char} (rs : List Run) :
    join ⟨a, cs⟩ (join ⟨a, ds⟩ rs) = join ⟨a, cs ++ ds⟩ rs := by
  cases rs with
  | nil => simp only [join, if_true]
  | cons r rs =>
    by_cases h : r.style = a
    · simp only [join, if_pos h, List.append_assoc]
    · simp only [join, if_neg h, if_true]

theorem join_join_of_ne {r r' : Run} (h : r'.style ≠ r.style) (rs : List Run) :
    join r (join r' rs) = r :: join r' rs := by
  cases rs with
  | nil => simp only [join, if_neg h]
  | cons r'' rs =>
    by_cases he : r''.style = r'.style
    · simp only [join, if_pos he]
      rw [he, if_neg h]
    · simp only [join, if_neg he, if_neg h]

/-- The cells of a run join the runs behind them as the run does. -/
theorem group_cells_append {r : Run} (h : r.chars ≠ []) (cs : List Cell) :
    group (r.cells ++ cs) = r.join (group cs) := by
  obtain ⟨a, chars⟩ := r
  induction chars with
  | nil => exact absurd rfl h
  | cons c chars ih =>
    have hcons : group (cells ⟨a, c :: chars⟩ ++ cs) = join ⟨a, [c]⟩ (group (cells ⟨a, chars⟩ ++ cs)) :=
      group_cons ⟨c, a⟩ _
    rw [hcons]
    cases chars with
    | nil => rfl
    | cons d chars =>
      rw [ih (List.cons_ne_nil _ _), join_join]
      rfl

theorem Maximal.group_expand {rs : List Run} (h : Maximal rs) : group (expand rs) = rs := by
  induction rs with
  | nil => rfl
  | cons r rs ih =>
    have hr := h.chars_ne_nil r List.mem_cons_self
    rw [expand, List.flatMap_cons, group_cells_append hr]
    change r.join (group (expand rs)) = r :: rs
    rw [ih h.tail, h.join_eq]

/-- Grouping makes no more runs than there were, and as many only where it had nothing to put together. -/
theorem group_expand_shortest (rs : List Run) :
    (group (expand rs)).length < rs.length ∨ group (expand rs) = rs := by
  induction rs with
  | nil => exact .inr rfl
  | cons r rs ih =>
    have hle : (group (expand rs)).length ≤ rs.length := by
      obtain hlt | he := ih
      · exact hlt.le
      · rw [he]
    by_cases hr : r.chars = []
    · have hcells : r.cells = [] := by simp only [cells, hr, List.map_nil]
      refine .inl ?_
      simp only [expand, List.flatMap_cons, hcells, List.nil_append, List.length_cons]
      exact Nat.lt_succ_of_le hle
    · have hgroup : group (expand (r :: rs)) = r.join (group (expand rs)) := group_cells_append hr _
      rw [hgroup]
      obtain hjoin | hjoin := length_join r (group (expand rs))
      · refine .inl ?_
        rw [List.length_cons]
        omega
      · rw [hjoin]
        obtain hlt | he := ih
        · exact .inl (by simpa only [List.length_cons, Nat.add_lt_add_iff_right] using hlt)
        · exact .inr (by rw [he])

/-- The loop over the cells comes to the runs it has ended, and behind them the characters at hand join the rest. -/
theorem Grouping.finish_foldl (g : Grouping) (cs : List Cell) :
    (cs.foldl add g).finish =
      g.runs.reverse ++ if g.chars = [] then group cs else join ⟨g.current, g.chars.reverse⟩ (group cs) := by
  induction cs generalizing g with
  | nil =>
    rw [List.foldl_nil, finish]
    split
    · exact (List.append_nil _).symm
    · exact List.reverse_cons
  | cons c cs ih =>
    rw [List.foldl_cons, ih, add, group_cons]
    by_cases hchars : g.chars = []
    · rw [if_neg fun h ↦ h.1 hchars, if_pos hchars, if_neg (List.cons_ne_nil _ _), hchars]
      rfl
    · rw [if_neg hchars]
      by_cases hstyle : c.style = g.current
      · rw [if_neg fun h ↦ h.2 hstyle, if_neg (List.cons_ne_nil _ _), List.reverse_cons, hstyle, join_join]
      · rw [if_pos ⟨hchars, hstyle⟩, if_neg (List.cons_ne_nil _ _), List.reverse_cons, List.append_assoc,
          join_join_of_ne hstyle]
        rfl

end Run

open Run

theorem Line.runs_eq (line : Line) : line.runs = group line.toList := by
  rw [Line.runs, ← Array.foldl_toList, Grouping.finish_foldl]
  exact List.nil_append _

theorem Line.expand_runs (line : Line) : expand line.runs = line.toList := by
  rw [Line.runs_eq, expand_group]

theorem Line.runs_maximal (line : Line) : Maximal line.runs := by
  rw [Line.runs_eq]
  exact group_maximal _

/-- The runs of a line are the line again, cell by cell, and they are its only maximal ones. Every other way to
cut the line into runs has more of them. -/
theorem Line.runs_lossless :
    (∀ line : Line, expand line.runs = line.toList ∧ Maximal line.runs) ∧
    (∀ rs, Maximal rs → Line.runs (expand rs).toArray = rs) ∧
    ∀ (line : Line) (rs : List Run), expand rs = line.toList → rs ≠ line.runs →
      line.runs.length < rs.length := by
  refine ⟨fun line ↦ ?_, fun rs h ↦ ?_, fun line rs h hne ↦ ?_⟩
  · exact ⟨line.expand_runs, line.runs_maximal⟩
  · rw [Line.runs_eq]
    exact h.group_expand
  · rw [Line.runs_eq, ← h] at hne ⊢
    exact (group_expand_shortest rs).resolve_right (Ne.symm hne)

/-- A style that returns begins a run of its own, and a run cut in two is not the grouping. -/
theorem Line.runs_lossless_of_returning_style :
    let red : Style := { foreground := some ⟨170, 0, 0⟩ }
    let rs : List Run := [⟨red, ['a', 'b']⟩, ⟨{}, ['c', 'd']⟩, ⟨red, ['e']⟩]
    let finer : List Run := [⟨red, ['a']⟩, ⟨red, ['b']⟩, ⟨{}, ['c', 'd']⟩, ⟨red, ['e']⟩]
    Maximal rs ∧ Line.runs (expand rs).toArray = rs ∧
      expand finer = (expand rs).toArray.toList ∧ finer ≠ rs ∧ rs.length < finer.length := by
  intro red rs finer
  obtain ⟨-, hgroup, hshortest⟩ := Line.runs_lossless
  have hrs : Maximal rs := ⟨by decide, by decide⟩
  have hruns := hgroup rs hrs
  have hfiner : expand finer = (expand rs).toArray.toList := rfl
  have hne : finer ≠ rs := by decide
  have hne' : finer ≠ Line.runs (expand rs).toArray := by
    rw [hruns]
    exact hne
  have hlt := hshortest (expand rs).toArray finer hfiner hne'
  rw [hruns] at hlt
  exact ⟨hrs, hruns, hfiner, hne, hlt⟩

end TermCapture
