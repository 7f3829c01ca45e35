import Mathlib.Data.List.Induction
import TermCapture.Proofs.Screen.Simulation

namespace TermCapture

/-- What can be done to a screen from outside, one primitive at a time. -/
inductive Operation
  | moveTo (column row : Option Int)
  | moveBy (dx dy : Int)
  | newline
  | saveCursor
  | restoreCursor
  | write (c : Char) (a : Style)
  | truncateLine
  | truncateBelow
  | blankLineThroughCursor
  | clearLine
  | clearAbove
  | clearAll

namespace Operation

def run : Operation → Screen → Outcome Screen
  | .moveTo column row, s => s.moveTo column row
  | .moveBy dx dy, s => s.moveBy dx dy
  | .newline, s => s.newline
  | .saveCursor, s => ⟨s.saveCursor, none⟩
  | .restoreCursor, s => s.restoreCursor
  | .write c a, s => s.write c a
  | .truncateLine, s => s.truncateLine
  | .truncateBelow, s => ⟨s.truncateBelow, none⟩
  | .blankLineThroughCursor, s => s.blankLineThroughCursor
  | .clearLine, s => s.clearLine
  | .clearAbove, s => ⟨s.clearAbove, none⟩
  | .clearAll, s => ⟨s.clearAll, none⟩

/-- Operates one after the other and goes on behind a fault. -/
def runAll (ops : List Operation) (s : Screen) : Screen := ops.foldl (fun s op ↦ (op.run s).state) s

def isMove : Operation → Bool
  | .moveTo .. | .moveBy .. | .newline | .restoreCursor => true
  | _ => false

def isWrite : Operation → Bool
  | .write .. => true
  | _ => false

/-- Whether the line of the cursor is looked up, but not made to exist. -/
def editsLine : Operation → Bool
  | .truncateLine | .blankLineThroughCursor | .clearLine => true
  | _ => false

end Operation

namespace Screen

def OnLine (s : Screen) : Prop := s.cursor.row < s.lines.size

instance (s : Screen) : Decidable s.OnLine := inferInstanceAs (Decidable (_ < _))

/-- The number of lines that a limit allows. -/
structure Sized (L : Option Int) (s : Screen) : Prop where
  maxLines_eq : s.maxLines = L
  lines_pos : 0 < s.lines.size
  lines_le : ∀ n ∈ L, (s.lines.size : Int) ≤ n

/-- Operations that reach for a row find its line, which may be too short, or find it beyond the limit and leave the
cursor there. -/
inductive Reached (L : Option Int) (o : Outcome Screen) : Prop
  | line (hf : o.fault = none) (ho : o.state.OnLine)
  | short (hf : o.fault = some .overflow) (ho : o.state.OnLine)
  | beyond {n : Int} (hn : n ∈ L) (hf : o.fault = some (Fault.lineLimit n).raised)
    (ho : n ≤ (o.state.cursor.row : Int))

variable {L : Option Int} {s : Screen}

theorem Sized.not_onLine (h : s.Sized L) {n : Int} (hn : n ∈ L) (hrow : n ≤ (s.cursor.row : Int)) : ¬s.OnLine := by
  have hle := h.lines_le n hn
  unfold OnLine
  omega

theorem Sized.reach (h : s.Sized L) : (s.reach s.cursor.row).state.Sized L ∧ Reached L (s.reach s.cursor.row) := by
  rcases s.reach_cases s.cursor.row with ⟨hlt, he⟩ | ⟨n, hn, hle, he⟩
  · simp only [h.maxLines_eq] at hlt
    have hpos := h.lines_pos
    simp only [he]
    refine ⟨⟨?_, ?_, ?_⟩, .line rfl ?_⟩
    · simp only [maxLines_extend, h.maxLines_eq]
    · simp only [size_extend]
      omega
    · intro n hn
      have hle := h.lines_le n hn
      have hrow := hlt n hn
      simp only [size_extend]
      omega
    · simp only [OnLine, cursor_extend, size_extend]
      omega
  · simp only [he]
    exact ⟨h, .beyond (h.maxLines_eq ▸ hn) rfl hle⟩

theorem Sized.moveTo (h : s.Sized L) (column row : Option Int) :
    (s.moveTo column row).state.Sized L ∧ Reached L (s.moveTo column row) := by
  have hs : ({ s with cursor := s.landing column row } : Screen).Sized L :=
    ⟨h.maxLines_eq, h.lines_pos, h.lines_le⟩
  simpa only [moveTo_eq] using hs.reach

/-- A move beyond the limit leaves the lines as they are, although it takes the cursor with it. -/
theorem lines_moveTo {column row : Option Int} (hf : (s.moveTo column row).fault ≠ none) :
    (s.moveTo column row).state.lines = s.lines := by
  simp only [moveTo_eq] at hf ⊢
  rcases reach_cases { s with cursor := s.landing column row } (s.landing column row).row with
    ⟨-, he⟩ | ⟨n, -, -, he⟩
  · simp [he] at hf
  · simp only [he]

theorem Sized.write (h : s.Sized L) (c : Char) (a : Style) :
    (s.write c a).state.Sized L ∧ Reached L (s.write c a) := by
  have hreach := h.reach
  rw [Screen.write]
  generalize s.reach s.cursor.row = o at hreach
  rcases o with ⟨t, _ | f⟩
  · rcases hreach with ⟨ht, ⟨-, ho⟩ | ⟨hf, -⟩ | ⟨-, hf, -⟩⟩
    · have hput : ∀ cursor, ({ t with
          lines := t.lines.modify t.cursor.row (put t.cursor.column ⟨c, a⟩), cursor := cursor } : Screen).Sized L := by
        intro cursor
        have hsize : (t.lines.modify t.cursor.row (put t.cursor.column ⟨c, a⟩)).size = t.lines.size := by simp
        refine ⟨ht.maxLines_eq, ?_, ?_⟩
        · simp only [hsize, ht.lines_pos]
        · simpa only [hsize] using ht.lines_le
      dsimp only [Outcome.andThen]
      split
      · exact ⟨ht, .short rfl ho⟩
      split
      · exact (hput _).moveTo _ _
      · refine ⟨hput _, .line rfl ?_⟩
        simpa only [OnLine, Array.size_modify] using ho
    · cases hf
    · cases hf
  · exact hreach

theorem Sized.write_overflow_iff (h : s.Sized L) {c : Char} {a : Style} :
    (s.write c a).fault = some .overflow ↔ (∀ n ∈ L, (s.cursor.row : Int) < n) ∧ s.TooFar := by
  have hwithin : (s.reach s.cursor.row).fault = none ↔ ∀ n ∈ L, (s.cursor.row : Int) < n := by
    rw [← h.maxLines_eq]
    obtain ⟨hlt, he⟩ | ⟨n, hn, hle, he⟩ := s.reach_cases s.cursor.row
    · simpa only [he, true_iff] using hlt
    · simp only [he, reduceCtorEq, false_iff]
      exact fun hlt ↦ absurd (hlt n hn) (by omega)
  rw [← hwithin, ← s.tooFar_extend s.cursor.row]
  obtain ⟨he, hfar, hr⟩ | ⟨hne, hnear⟩ := s.write_cases c a
  · simp only [he, hfar, hr, and_self]
  · simp only [hne, false_iff]
    exact fun hfar ↦ hnear hfar.1 hfar.2

theorem write_fault_ne_none (hfar : s.TooFar) (c : Char) (a : Style) : (s.write c a).fault ≠ none := by
  obtain ⟨he, -⟩ | ⟨-, hnear⟩ := s.write_cases c a
  · simp [he]
  · obtain ⟨-, hr⟩ | ⟨n, -, -, hr⟩ := s.reach_cases s.cursor.row
    · exact absurd ((s.tooFar_extend _).mpr hfar) (hnear (by rw [hr]))
    · rw [write, hr]
      exact Option.some_ne_none _

end Screen

namespace Operation

open Screen (Sized Reached)

variable {L : Option Int} {s : Screen}

/-- What becomes of a screen whose lines are within the limit. A move or a write meets the limit if it takes the
cursor there, a write meets a line that is too short for its column, and an edit finds no line if the cursor was
beyond the limit already. -/
structure Effect (L : Option Int) (op : Operation) (s : Screen) (o : Outcome Screen) : Prop where
  sized : o.state.Sized L
  onLine_iff : o.state.OnLine ↔
    (o.fault = none ∨ o.fault = some .overflow) ∧ (op.isMove = true ∨ op.isWrite = true ∨ s.OnLine)
  lineLimit_iff : (∃ n, o.fault = some (Fault.lineLimit n).raised) ↔
    (op.isMove = true ∨ op.isWrite = true) ∧ ∃ n ∈ L, n ≤ (o.state.cursor.row : Int)
  overflow_iff : o.fault = some .overflow ↔
    op.isWrite = true ∧ (∀ n ∈ L, (s.cursor.row : Int) < n) ∧ s.TooFar
  noSuchLine_iff : o.fault = some .noSuchLine ↔ op.editsLine = true ∧ ¬s.OnLine
  fault_cases : ∀ f, o.fault = some f → f = .overflow ∨ f = .noSuchLine ∨ ∃ n ∈ L, f = (Fault.lineLimit n).raised
  lines_eq : o.fault ≠ none → op.isWrite = false → o.state.lines = s.lines

theorem effect_of_reached {op : Operation} {o : Outcome Screen} (h : o.state.Sized L ∧ Reached L o)
    (hop : op.isMove = true ∨ op.isWrite = true) (hedit : op.editsLine = false)
    (hoverflow : o.fault = some .overflow ↔ op.isWrite = true ∧ (∀ n ∈ L, (s.cursor.row : Int) < n) ∧ s.TooFar)
    (hlines : o.fault ≠ none → op.isWrite = false → o.state.lines = s.lines) : Effect L op s o := by
  have hreaches : op.isMove = true ∨ op.isWrite = true ∨ s.OnLine := by
    rw [← or_assoc]
    exact .inl hop
  have hwithin : o.state.OnLine → ¬∃ n ∈ L, n ≤ (o.state.cursor.row : Int) := by
    rintro ho ⟨n, hn, hrow⟩
    exact h.1.not_onLine hn hrow ho
  rcases h with ⟨hsized, ⟨hf, ho⟩ | ⟨hf, ho⟩ | @⟨n, hn, hf, hrow⟩⟩
  · refine ⟨hsized, ?_, ?_, hoverflow, ?_, ?_, hlines⟩
    · simp only [ho, hf, hreaches, true_or, and_self]
    · simp only [hf, reduceCtorEq, exists_false, false_iff]
      exact fun h ↦ hwithin ho h.2
    · simp [hf, hedit]
    · simp [hf]
  · refine ⟨hsized, ?_, ?_, hoverflow, ?_, ?_, hlines⟩
    · simp only [ho, hf, hreaches, or_true, and_self]
    · refine ⟨?_, fun h ↦ absurd h.2 (hwithin ho)⟩
      rintro ⟨n, hn⟩
      exact absurd (Option.some.inj (hn.symm.trans hf)) Fault.raised_lineLimit_ne_overflow
    · simp [hf, hedit]
    · simp [hf]
  · have hoff := hsized.not_onLine hn hrow
    refine ⟨hsized, ?_, ?_, hoverflow, ?_, ?_, hlines⟩
    · simp [hoff, hf, Fault.raised_lineLimit_ne_overflow]
    · exact ⟨fun _ ↦ ⟨hop, n, hn, hrow⟩, fun _ ↦ ⟨n, hf⟩⟩
    · simp [hf, hedit, Fault.raised_lineLimit_ne_noSuchLine]
    · intro f he
      simp only [hf, Option.some.injEq] at he
      exact .inr (.inr ⟨n, hn, he.symm⟩)

theorem effect_of_move (h : s.Sized L) (op : Operation) (column row : Option Int) (hop : op.isMove = true)
    (hwrite : op.isWrite = false) (hedit : op.editsLine = false) : Effect L op s (s.moveTo column row) := by
  refine effect_of_reached (h.moveTo column row) (.inl hop) hedit ?_ fun hf _ ↦ Screen.lines_moveTo hf
  simp only [hwrite, Bool.false_eq_true, false_and, iff_false]
  intro hf
  obtain ⟨n, -, hn⟩ := Screen.moveTo_fault hf
  exact Fault.raised_lineLimit_ne_overflow hn.symm

theorem effect_of_editLine (h : s.Sized L) {op : Operation} (hmove : op.isMove = false)
    (hwrite : op.isWrite = false) (hedit : op.editsLine = true) (f : Line → Line) :
    Effect L op s (s.editLine f) := by
  unfold Screen.editLine
  split
  · rename_i ho
    have hsize : (s.lines.modify s.cursor.row f).size = s.lines.size := by simp
    have hon : s.OnLine := ho
    refine ⟨⟨h.maxLines_eq, ?_, ?_⟩, ?_, ?_, ?_, ?_, ?_, ?_⟩
    · simp only [hsize, h.lines_pos]
    · simpa only [hsize] using h.lines_le
    · simp [Screen.OnLine, ho]
    · simp [hmove, hwrite]
    · simp [hwrite]
    · simp [hon]
    · simp
    · simp
  · rename_i ho
    have hoff : ¬s.OnLine := ho
    refine ⟨h, ?_, ?_, ?_, ?_, ?_, ?_⟩
    · simp [hoff]
    · simp only [hmove, hwrite, Bool.false_eq_true, or_self, false_and, iff_false, not_exists, Option.some.injEq]
      exact fun n hn ↦ Fault.raised_lineLimit_ne_noSuchLine hn.symm
    · simp [hwrite]
    · simp [hoff, hedit]
    · intro e he
      simp only [Option.some.injEq] at he
      exact .inr (.inl he.symm)
    · simp

/-- An operation that cannot fail keeps the cursor on its line, and keeps it off where it has none. -/
theorem effect_of_lines (h : s.Sized L) {op : Operation} (hmove : op.isMove = false) (hwrite : op.isWrite = false)
    (hedit : op.editsLine = false) {t : Screen} (hlimit : t.maxLines = s.maxLines)
    (hrow : t.cursor.row = s.cursor.row)
    (hsize : t.lines.size = s.lines.size ∨ t.lines.size = min s.lines.size (s.cursor.row + 1)) :
    Effect L op s ⟨t, none⟩ := by
  have hpos := h.lines_pos
  refine ⟨⟨hlimit.trans h.maxLines_eq, ?_, ?_⟩, ?_, ?_, ?_, ?_, ?_, ?_⟩
  · dsimp only
    omega
  · intro n hn
    have hle := h.lines_le n hn
    dsimp only
    omega
  · simp only [Screen.OnLine, hmove, hwrite, true_and, true_or, false_or, Bool.false_eq_true]
    omega
  · simp [hmove, hwrite]
  · simp [hwrite]
  · simp [hedit]
  · simp
  · simp

/-- The one step that every statement about runs is read off. -/
theorem run_effect (h : s.Sized L) (op : Operation) : Effect L op s (op.run s) := by
  cases op with
  | moveTo column row => exact effect_of_move h (.moveTo column row) column row rfl rfl rfl
  | moveBy dx dy =>
    exact effect_of_move h (.moveBy dx dy) (some (s.cursor.column + dx)) (some (s.cursor.row + dy)) rfl rfl rfl
  | newline => exact effect_of_move h .newline (some 0) (some (s.cursor.row + 1)) rfl rfl rfl
  | restoreCursor =>
    exact effect_of_move h .restoreCursor (some s.cursor.savedColumn) (some s.cursor.savedRow) rfl rfl rfl
  | write c a =>
    refine effect_of_reached (h.write c a) (.inr rfl) rfl ?_ nofun
    refine h.write_overflow_iff.trans ?_
    simp only [isWrite, true_and]
  | truncateLine => exact effect_of_editLine h rfl rfl rfl _
  | blankLineThroughCursor => exact effect_of_editLine h rfl rfl rfl _
  | clearLine => exact effect_of_editLine h rfl rfl rfl _
  | saveCursor => exact effect_of_lines h rfl rfl rfl rfl rfl (.inl rfl)
  | truncateBelow =>
    refine effect_of_lines h rfl rfl rfl rfl rfl (.inr ?_)
    simp only [Screen.truncateBelow, Array.size_shrink]
    omega
  | clearAbove => exact effect_of_lines h rfl rfl rfl rfl rfl (.inl (by simp [Screen.clearAbove]))
  | clearAll => exact effect_of_lines h rfl rfl rfl rfl rfl (.inl (by simp [Screen.clearAll]))

theorem runAll_sized (h : s.Sized L) (ops : List Operation) : (runAll ops s).Sized L := by
  induction ops generalizing s with
  | nil => exact h
  | cons op ops ih => exact ih (run_effect h op).sized

theorem runAll_concat (ops : List Operation) (op : Operation) (s : Screen) :
    runAll (ops ++ [op]) s = (op.run (runAll ops s)).state := by
  simp only [runAll, List.foldl_append, List.foldl_cons, List.foldl_nil]

/-- Whether an operation meets the line limit. -/
def Meets (op : Operation) (s : Screen) : Prop := ∃ n, (op.run s).fault = some (Fault.lineLimit n).raised

/-- Whether an operation is stopped by the line limit, or by a line that is too short to be written to. -/
def Stops (op : Operation) (s : Screen) : Prop := op.Meets s ∨ (op.isWrite = true ∧ s.TooFar)

theorem Effect.fault_eq {op : Operation} (h : Effect L op s (op.run s)) (hs : s.OnLine) (hl : ¬op.Stops s) :
    (op.run s).fault = none := by
  rcases hf : (op.run s).fault with _ | f
  · rfl
  · rcases h.fault_cases f hf with rfl | rfl | ⟨n, -, rfl⟩
    · obtain ⟨hwrite, -, hfar⟩ := h.overflow_iff.mp hf
      exact absurd (.inr ⟨hwrite, hfar⟩) hl
    · exact absurd hs (h.noSuchLine_iff.mp hf).2
    · exact absurd (.inl ⟨n, hf⟩) hl

theorem runAll_onLine (h : s.Sized L) (hs : s.OnLine) {ops : List Operation}
    (hl : ∀ pre op post, ops = pre ++ op :: post → ¬op.Stops (runAll pre s)) : (runAll ops s).OnLine := by
  induction ops using List.reverseRecOn with
  | nil => exact hs
  | append_singleton ops op ih =>
    have hstep := run_effect (runAll_sized h ops) op
    have hon : (runAll ops s).OnLine := by
      apply ih
      intro pre op' post he
      apply hl pre op' (post ++ [op])
      simp only [he, List.append_assoc, List.cons_append]
    have hfault := hstep.fault_eq hon (hl ops op [] rfl)
    simp only [runAll_concat]
    exact hstep.onLine_iff.mpr ⟨.inl hfault, .inr (.inr hon)⟩

/-- An operation that a screen survives: the cursor is on a line afterwards, a move that met the limit has
changed nothing, and there is no other fault than the limit. -/
structure Survives (op : Operation) (s : Screen) : Prop where
  onLine : (op.run s).state.OnLine
  unmoved : op.isMove = true → op.Meets s →
    (op.run s).state.lines = s.lines ∧ (op.run s).state.cursor = s.cursor
  fault_eq : ∀ f, (op.run s).fault = some f → ∃ n, f = .lineLimit n

theorem empty_sized (width : Int) {L : Option Int} (hL : ∀ n ∈ L, 1 ≤ n) (C : Option Int) :
    (Screen.empty width L C).Sized L :=
  ⟨rfl, by simp [Screen.empty], by simpa [Screen.empty] using hL⟩

/-- An operation that meets the limit has left the cursor on no line, and nothing makes up for a line that is too
short. -/
theorem Effect.not_survives {op : Operation} (h : Effect L op s (op.run s)) (hstops : op.Stops s) :
    ¬op.Survives s := by
  intro hsurvives
  have hmet : ¬op.Meets s := by
    rintro ⟨n, hn⟩
    rcases (h.onLine_iff.mp hsurvives.onLine).1 with hf | hf
    · cases hn.symm.trans hf
    · exact Fault.raised_lineLimit_ne_overflow (Option.some.inj (hn.symm.trans hf))
  obtain hmeets | ⟨hwrite, hfar⟩ := hstops
  · exact hmet hmeets
  · have hfault : (op.run s).fault ≠ none := by
      cases op with
      | write c a => exact Screen.write_fault_ne_none hfar c a
      | _ => cases hwrite
    obtain ⟨f, hf⟩ := Option.ne_none_iff_exists'.mp hfault
    obtain ⟨k, rfl⟩ := hsurvives.fault_eq f hf
    rcases h.fault_cases _ hf with hover | hnone | ⟨n, -, hn⟩
    · cases hover
    · cases hnone
    · exact hmet ⟨n, hf.trans (congrArg some hn)⟩

/-- A screen survives exactly the runs that neither meet its line limit nor a line that is too short. An operation
that meets the limit leaves the cursor on no line, where edits of the line fail until a move within the limit brings
it back. -/
theorem survives_iff (width : Int) (L C : Option Int) (hL : ∀ n ∈ L, 1 ≤ n) :
    let screen := fun ops ↦ runAll ops (Screen.empty width L C)
    (∀ ops : List Operation,
      (∀ pre op post, ops = pre ++ op :: post → op.Survives (screen pre)) ↔
        ∀ pre op post, ops = pre ++ op :: post → ¬op.Stops (screen pre)) ∧
    ∀ ops op, Effect L op (screen ops) (op.run (screen ops)) := by
  intro screen
  have hempty := empty_sized width hL C
  have heffect : ∀ ops op, Effect L op (screen ops) (op.run (screen ops)) :=
    fun ops op ↦ run_effect (runAll_sized hempty ops) op
  refine ⟨fun ops ↦ ⟨?_, ?_⟩, heffect⟩
  · intro hsurvives pre op post he hstops
    exact (heffect pre op).not_survives hstops (hsurvives pre op post he)
  · intro hl pre op post he
    have hon : (screen pre).OnLine := by
      apply runAll_onLine hempty (Nat.zero_lt_one)
      intro pre' op' post' he'
      apply hl pre' op' (post' ++ op :: post)
      simp only [he, he', List.append_assoc, List.cons_append]
    have hnot := hl pre op post he
    have hnone := (heffect pre op).fault_eq hon hnot
    refine ⟨(heffect pre op).onLine_iff.mpr ⟨.inl hnone, .inr (.inr hon)⟩, ?_, ?_⟩
    · intro _ hmeets
      exact absurd (.inl hmeets) hnot
    · intro f hf
      cases hf.symm.trans hnone

/-- The way back from beyond a limit of two lines. -/
theorem survives_iff_at_two_lines :
    let screen := fun ops ↦ runAll ops (Screen.empty 80 (some 2) none)
    (∀ n ∈ some (2 : Int), 1 ≤ n) ∧ newline.Meets (screen [.newline]) ∧
      ¬(∀ pre op post, [newline, newline] = pre ++ op :: post → op.Survives (screen pre)) ∧
      ¬(screen [.newline, .newline]).OnLine ∧ (screen [.newline, .newline, .moveBy 3 (-1)]).OnLine := by
  intro screen
  have hL : ∀ n ∈ some (2 : Int), 1 ≤ n := by simp
  have hmeets : newline.Meets (screen [.newline]) := ⟨2, by decide +kernel⟩
  obtain ⟨hsurvives, heffect⟩ := survives_iff 80 (some 2) none hL
  have hback := (heffect [.newline, .newline] (.moveBy 3 (-1))).onLine_iff
  refine ⟨hL, hmeets, ?_, by decide +kernel, ?_⟩
  · intro h
    exact (hsurvives _).mp h [.newline] .newline [] rfl (.inl hmeets)
  · exact hback.mpr ⟨by decide +kernel, .inl rfl⟩

/-- A line feed on the last of two lines moves the cursor although the limit stops it, and clearing the line then
looks for one that is not there. A character is not written behind more blanks than can be asked for. -/
theorem newline_beyond_limit :
    let s := runAll [.newline] (Screen.empty 80 (some 2) none)
    let t := (newline.run s).state
    let u := runAll [.moveTo (some (Screen.maxBlanks + 1 : Nat)) none] (Screen.empty 80 none none)
    newline.Meets s ∧ t.cursor ≠ s.cursor ∧ ¬t.OnLine ∧ ¬newline.Survives s ∧
      (clearLine.run t).fault = some .noSuchLine ∧ ¬clearLine.Survives t ∧
      ((write 'a' {}).run u).fault = some .overflow ∧ ¬(write 'a' {}).Survives u := by
  intro s t u
  have hmoved : t.cursor ≠ s.cursor := by decide +kernel
  have hoff : ¬t.OnLine := by decide +kernel
  have hfault : (clearLine.run t).fault = some .noSuchLine := by decide +kernel
  have hover : ((write 'a' {}).run u).fault = some .overflow := by decide +kernel
  refine ⟨⟨2, by decide +kernel⟩, hmoved, hoff, ?_, hfault, ?_, hover, ?_⟩
  · intro h
    exact hoff h.onLine
  · intro h
    obtain ⟨n, hn⟩ := h.fault_eq _ hfault
    cases hn
  · intro h
    obtain ⟨n, hn⟩ := h.fault_eq _ hover
    cases hn

end Operation

end TermCapture
