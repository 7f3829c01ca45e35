import TermCapture.Proofs.Session.Actions
import TermCapture.Proofs.Session.Lexemes

namespace TermCapture

/-- The columns and rows by which a command moves the cursor. -/
def Command.shift? (n : Int) : Command → Option (Int × Int)
  | .up => some (0, -n)
  | .down => some (0, n)
  | .forward => some (n, 0)
  | .back => some (-n, 0)
  | _ => none

/-- The number that a relative move goes by. -/
def Params.amount (ps : Params) : Int := (ps.head?.getD none).getD 1

theorem Params.amount_nonneg {ps : Params} (h : ∀ n, some n ∈ ps → 0 ≤ n) : 0 ≤ Params.amount ps := by
  match ps with
  | [] | none :: _ => exact Int.one_nonneg
  | some n :: _ => exact h n List.mem_cons_self

namespace Screen

variable {s : Screen}

theorem single_amount (c : Command) {ps : Params} (hps : ps.length ≤ 1) : single c 1 ps = .ok (Params.amount ps) := by
  match ps with
  | [] | [_] => rfl
  | _ :: _ :: _ => simp at hps

theorem perform_shift {c : Command} {ps : Params} (hps : ps.length ≤ 1) {dx dy : Int}
    (hc : c.shift? (Params.amount ps) = some (dx, dy)) :
    ¬c.Refuses ps ∧ s.perform c ps = s.moveBy dx dy := by
  cases c with
  | up | down | forward | back =>
    cases hc
    refine ⟨Command.not_refuses (by simpa [Command.takes] using hps) (by decide), ?_⟩
    simp only [perform, move, single_amount _ hps]
  | _ => cases hc

end Screen

namespace Session

variable {cfg : Config} {s : Session}

theorem dispatch_accepted (s : Session) {q : Sequence} {c : Command} (hq : q.isPrivate = false)
    (hc : Command.ofByte? q.final = some c) (h : ¬c.Refuses q.params) :
    s.dispatch cfg q = s.onScreen (·.perform c q.params) := by
  rw [dispatch_command cfg s hq hc, command_accepted]
  intro f hf
  obtain ⟨hr, -⟩ | ⟨-, hs⟩ := s.screen.perform_cases c q.params
  · exact absurd hr h
  · exact (hs f hf).1.not_refusal

/-- The cursor behind a command. -/
def cursorBehind (cfg : Config) (s : Session) (final : UInt8) (ps : Params) : Cursor :=
  (s.dispatch cfg ⟨ps, final, false⟩).session.screen.cursor

/-- A relative move goes by columns and rows from the cursor and is held back at the edges. -/
theorem cursorBehind_shift (cfg : Config) (s : Session) {ps : Params} (hps : ps.length ≤ 1) (final : UInt8)
    (c : Command) (hc : Command.ofByte? final = some c) {dx dy : Int} (hd : c.shift? (Params.amount ps) = some (dx, dy)) :
    (s.cursorBehind cfg final ps).column = s.screen.boundColumn (s.screen.cursor.column + dx) ∧
      (s.cursorBehind cfg final ps).row = (s.screen.cursor.row + dy).toNat := by
  obtain ⟨haccepted, hperform⟩ := @Screen.perform_shift s.screen c ps hps dx dy hd
  rw [cursorBehind, dispatch_accepted s rfl hc haccepted, onScreen_eq]
  dsimp only
  rw [hperform, Screen.moveBy, Screen.cursor_moveTo]
  exact ⟨rfl, rfl⟩

/-- A move that is not to the right ends at most at the cursor, and one that is not to the left at least there,
unless the cursor is beyond the last column: then it ends in that column. -/
theorem boundColumn_shift (h : cfg.Kept s.screen) (dx : Int) :
    let x := s.screen.boundColumn (s.screen.cursor.column + dx)
    (dx ≤ 0 → x ≤ s.screen.cursor.column) ∧ (∀ n ∈ cfg.maxColumns, x ≤ n - 1) ∧
      (0 ≤ dx → (∀ n ∈ cfg.maxColumns, s.screen.cursor.column < n) → s.screen.cursor.column ≤ x) ∧
      (0 ≤ dx → ∀ n ∈ cfg.maxColumns, n ≤ s.screen.cursor.column → x = n - 1) := by
  have hmax := h.maxColumns_eq
  unfold Screen.boundColumn
  rw [hmax]
  cases cfg.maxColumns with
  | none =>
    simp only [Option.map_none]
    exact ⟨fun _ ↦ by omega, nofun, fun _ _ ↦ by omega, fun _ ↦ nofun⟩
  | some k =>
    simp only [Option.map_some, Option.mem_some_iff, forall_eq', Int.ofNat_eq_natCast]
    omega

section

variable {ps : Params} (hps : ps.length ≤ 1) (hnonneg : ∀ n, some n ∈ ps → 0 ≤ n)

include hps hnonneg

theorem rows_of_relative_moves (cfg : Config) (s : Session) :
    (s.cursorBehind cfg 0x41 ps).row ≤ s.screen.cursor.row ∧ s.screen.cursor.row ≤ (s.cursorBehind cfg 0x42 ps).row ∧
      (s.cursorBehind cfg 0x43 ps).row = s.screen.cursor.row ∧
      (s.cursorBehind cfg 0x44 ps).row = s.screen.cursor.row := by
  have hamount := Params.amount_nonneg hnonneg
  obtain ⟨-, hup⟩ := cursorBehind_shift cfg s hps 0x41 .up rfl rfl
  obtain ⟨-, hdown⟩ := cursorBehind_shift cfg s hps 0x42 .down rfl rfl
  obtain ⟨-, hforward⟩ := cursorBehind_shift cfg s hps 0x43 .forward rfl rfl
  obtain ⟨-, hback⟩ := cursorBehind_shift cfg s hps 0x44 .back rfl rfl
  omega

/-- Only a cursor that text has carried beyond the last column is held back to that column, also by moves up and
down. -/
theorem columns_of_relative_moves (h : cfg.Kept s.screen) :
    (s.cursorBehind cfg 0x44 ps).column ≤ s.screen.cursor.column ∧
      ((∀ n ∈ cfg.maxColumns, s.screen.cursor.column < n) →
        (s.cursorBehind cfg 0x41 ps).column = s.screen.cursor.column ∧
        (s.cursorBehind cfg 0x42 ps).column = s.screen.cursor.column ∧
        s.screen.cursor.column ≤ (s.cursorBehind cfg 0x43 ps).column) ∧
      ∀ n ∈ cfg.maxColumns, n ≤ s.screen.cursor.column →
        (s.cursorBehind cfg 0x41 ps).column = n - 1 ∧ (s.cursorBehind cfg 0x42 ps).column = n - 1 ∧
        (s.cursorBehind cfg 0x43 ps).column = n - 1 ∧ (s.cursorBehind cfg 0x44 ps).column ≤ n - 1 := by
  have hamount := Params.amount_nonneg hnonneg
  obtain ⟨hup, -⟩ := cursorBehind_shift cfg s hps 0x41 .up rfl rfl
  obtain ⟨hdown, -⟩ := cursorBehind_shift cfg s hps 0x42 .down rfl rfl
  obtain ⟨hforward, -⟩ := cursorBehind_shift cfg s hps 0x43 .forward rfl rfl
  obtain ⟨hback, -⟩ := cursorBehind_shift cfg s hps 0x44 .back rfl rfl
  obtain ⟨hstay, -, hkeep, hland⟩ := boundColumn_shift h 0
  obtain ⟨-, -, hright, hright'⟩ := boundColumn_shift h (Params.amount ps)
  obtain ⟨hleft, hleft', -, -⟩ := boundColumn_shift h (-Params.amount ps)
  rw [hup, hdown, hforward, hback]
  refine ⟨hleft (by omega), fun hinside ↦ ?_, fun n hn hpast ↦ ?_⟩
  · have hsame := Nat.le_antisymm (hstay (Int.le_refl 0)) (hkeep (Int.le_refl 0) hinside)
    exact ⟨hsame, hsame, hright hamount hinside⟩
  · have hlast := hland (Int.le_refl 0) n hn hpast
    exact ⟨hlast, hlast, hright' hamount n hn hpast, hleft' n hn⟩

end

/-- The bytes of a sequence that is accepted do to the screen what the sequence does. -/
theorem screen_pushAll_spelled (hf : s.finished = false) (ht : s.tokenizer = .ground) {body : List UInt8}
    {final : UInt8} (hroom : ∀ k ∈ cfg.maxSequenceLength, body.length < k)
    (hbody : ∀ b ∈ body, Sequence.continues b = true) (hfinal : Sequence.continues final = false)
    (hfields : cfg.strict = true → Sequence.fields body = [[]] ∨ [] ∉ Sequence.fields body) :
    (pushAll cfg (0x1b :: 0x5b :: (body ++ [final])) s).screen =
      (s.dispatch cfg (.ofBody body final)).session.screen := by
  rw [pushAll_spelled hf ht hroom hbody hfinal hfields, settle_session]
  have hmoved := (dispatch_inner cfg (s.moved .ground (s.offset + body.length + 3)) (.ofBody body final)).core_eq
  have hself := (dispatch_inner cfg s (.ofBody body final)).core_eq
  have hscreen := congrArg Session.screen (hmoved.trans hself.symm)
  exact hscreen

/-- A relative move goes along its own axis and in its own direction, unless text has carried the cursor beyond the
last column. A sequence moves the cursor by the numbers that its bytes spell. -/
theorem relative_movement (cfg : Config) (bs : List UInt8) :
    let s := pushAll cfg bs (start cfg)
    let cursor := s.screen.cursor
    (∀ ps : Params, ps.length ≤ 1 → (∀ n, some n ∈ ps → 0 ≤ n) →
      let up := s.cursorBehind cfg 0x41 ps
      let down := s.cursorBehind cfg 0x42 ps
      let forward := s.cursorBehind cfg 0x43 ps
      let back := s.cursorBehind cfg 0x44 ps
      (up.row ≤ cursor.row ∧ cursor.row ≤ down.row ∧ forward.row = cursor.row ∧ back.row = cursor.row) ∧
      back.column ≤ cursor.column ∧
      ((∀ n ∈ cfg.maxColumns, cursor.column < n) →
        up.column = cursor.column ∧ down.column = cursor.column ∧ cursor.column ≤ forward.column) ∧
      ∀ n ∈ cfg.maxColumns, n ≤ cursor.column →
        up.column = n - 1 ∧ down.column = n - 1 ∧ forward.column = n - 1 ∧ back.column ≤ n - 1) ∧
    ∀ body final, s.finished = false → s.tokenizer = .ground →
      (∀ k ∈ cfg.maxSequenceLength, body.length < k) → (∀ b ∈ body, Sequence.continues b = true) →
      Sequence.continues final = false →
      (cfg.strict = true → Sequence.fields body = [[]] ∨ [] ∉ Sequence.fields body) →
      (pushAll cfg (0x1b :: 0x5b :: (body ++ [final])) s).screen =
          (s.dispatch cfg (.ofBody body final)).session.screen ∧
        ∀ n, some n ∈ (Sequence.ofBody body final).params → 0 ≤ n := by
  intro s cursor
  have hs : cfg.Kept s.screen := pushAll_kept cfg bs
  refine ⟨fun ps hps hnonneg ↦ ?_, fun body final hf ht hroom hbody hfinal hfields ↦ ?_⟩
  · exact ⟨rows_of_relative_moves hps hnonneg cfg s, columns_of_relative_moves hps hnonneg hs⟩
  · exact ⟨screen_pushAll_spelled hf ht hroom hbody hfinal hfields, fun n ↦ Sequence.ofBody_nonneg⟩

/-- A sequence with a number that is larger than what is left of the screen. -/
theorem relative_movement_of_limited_columns :
    let cfg : Config := { strict := true, maxColumns := some 3 }
    let bs : List UInt8 := [0x61, 0x0a, 0x62]
    ∃ s t, s = pushAll cfg bs (start cfg) ∧ t = pushAll cfg (0x1b :: 0x5b :: ([0x35] ++ [0x43])) s ∧
      s.screen.cursor.column = 1 ∧ t.screen.cursor.row = s.screen.cursor.row ∧
      s.screen.cursor.column ≤ t.screen.cursor.column ∧
      (s.cursorBehind cfg 0x41 [some 5]).column = s.screen.cursor.column ∧
      (s.cursorBehind cfg 0x44 [some 5]).column ≤ s.screen.cursor.column := by
  intro cfg bs
  have hcolumn : (pushAll cfg bs (start cfg)).screen.cursor.column = 1 := by decide +kernel
  have hspelled : Sequence.ofBody [0x35] 0x43 = ⟨[some 5], 0x43, false⟩ := by decide
  have hdigit : ∀ b ∈ [0x35], Sequence.continues b = true := by simp [Sequence.continues]
  obtain ⟨hmove, hbytes⟩ := relative_movement cfg bs
  obtain ⟨⟨-, -, hrow, -⟩, hleft, hinside, -⟩ := hmove [some 5] (by decide) (by simp)
  obtain ⟨hup, -, hright⟩ := hinside (by
    rw [hcolumn]
    decide)
  obtain ⟨hscreen, -⟩ := hbytes [0x35] 0x43 (by decide +kernel) (by decide +kernel) (by decide) hdigit (by decide)
    fun _ ↦ .inr (by decide)
  rw [hspelled] at hscreen
  refine ⟨_, _, rfl, rfl, hcolumn, ?_, ?_, hup, hleft⟩
  · rw [hscreen, ← hrow, cursorBehind]
  · rw [hscreen]
    rwa [cursorBehind] at hright

/-- Text carries the cursor to the sixth column of a screen whose moves end at the second. -/
theorem relative_movement_past_limit :
    let cfg : Config := { maxColumns := some 2 }
    let s := pushAll cfg [0x61, 0x62, 0x63, 0x64, 0x65] (start cfg)
    s.finished = false ∧ s.tokenizer = .ground ∧ s.screen.cursor.column = 5 ∧
      (pushAll cfg [0x1b, 0x5b, 0x41] s).screen.cursor.column ≠ s.screen.cursor.column ∧
      (pushAll cfg [0x1b, 0x5b, 0x42] s).screen.cursor.column ≠ s.screen.cursor.column ∧
      (pushAll cfg [0x1b, 0x5b, 0x43] s).screen.cursor.column < s.screen.cursor.column := by
  decide +kernel

end Session

end TermCapture
