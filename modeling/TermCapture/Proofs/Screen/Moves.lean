import Mathlib.Tactic.SplitIfs
import TermCapture.Proofs.Fault
import TermCapture.Screen.Commands

namespace TermCapture

theorem Outcome.andThen_fault {σ : Type} {o : Outcome σ} {f : σ → Outcome σ} {e : Fault}
    (h : (o.andThen f).fault = some e) : o.fault = some e ∨ (f o.state).fault = some e := by
  obtain ⟨s, _ | e'⟩ := o
  · exact .inr h
  · exact .inl h

theorem Outcome.eq_of_none {σ : Type} {o : Outcome σ} (h : o.fault = none) : o = ⟨o.state, none⟩ := by
  rw [← h]

theorem Outcome.andThen_of_none {σ : Type} {o : Outcome σ} (h : o.fault = none) (f : σ → Outcome σ) :
    o.andThen f = f o.state := by
  obtain ⟨s, _ | e⟩ := o
  · rfl
  · cases h

theorem Outcome.andThen_of_some {σ : Type} {o : Outcome σ} {e : Fault} (h : o.fault = some e)
    (f : σ → Outcome σ) : o.andThen f = ⟨o.state, some e⟩ := by
  obtain ⟨s, _ | e'⟩ := o
  · cases h
  · exact congrArg (Outcome.mk s) h

theorem Outcome.andThen_state {σ : Type} {P : σ → Prop} {o : Outcome σ} {f : σ → Outcome σ}
    (ho : P o.state) (hf : ∀ s, P s → P (f s).state) : P (o.andThen f).state := by
  obtain ⟨s, _ | e⟩ := o
  · exact hf s ho
  · exact ho

/-- The numbers of parameters that a command takes. -/
def Command.takes : Command → Nat → Bool
  | .column, n => n = 1
  | .position, n => n = 0 || n = 2
  | .save, n | .restore, n => n = 0
  | _, n => n ≤ 1

/-- Parameters that a command does not accept: too many or too few, or a number that is no mode of erasing. -/
inductive Command.Refuses (c : Command) (ps : Params) : Prop
  | count (h : c.takes ps.length = false)
  | mode {n : Int} (hc : c = .eraseDisplay ∨ c = .eraseLine) (hps : ps = [some n])
      (hn : n ≠ 0 ∧ n ≠ 1 ∧ n ≠ 2)

/-- The number of a mode of erasing, which is 0 where it is omitted. -/
inductive EraseNumber : Params → Nat → Prop
  | missing : EraseNumber [] 0
  | omitted : EraseNumber [none] 0
  | given {n : Nat} (h : n ≤ 2) : EraseNumber [some n] n

theorem EraseNumber.le_two {ps : Params} {n : Nat} (h : EraseNumber ps n) : n ≤ 2 := by
  cases h with
  | missing | omitted => exact Nat.zero_le 2
  | given h => exact h

theorem Fault.OfScreen.not_refusal {f : Fault} (h : f.OfScreen) : f.isRefusal = false := by
  cases h <;> rfl

theorem Fault.ofScreen_lineLimit (n : Int) : (Fault.lineLimit n).raised.OfScreen := by
  obtain h | ⟨-, h⟩ := (Fault.lineLimit n).raised_cases
  · rw [h]
    exact .lineLimit n
  · rw [h]
    exact .wordless n

theorem Command.not_refuses {c : Command} {ps : Params} (h : c.takes ps.length = true)
    (hc : c ≠ .eraseDisplay ∧ c ≠ .eraseLine) : ¬c.Refuses ps := by
  rintro (hf | ⟨he, -, -⟩)
  · rw [h] at hf
    cases hf
  · exact he.elim hc.1 hc.2

namespace Screen

theorem getElem?_shrink {α : Type} (xs : Array α) (n i : Nat) :
    (xs.shrink n)[i]? = if i < n then xs[i]? else none := by
  rw [← Array.getElem?_toList, Array.toList_shrink, List.getElem?_take, Array.getElem?_toList]

def landing (s : Screen) (column row : Option Int) : Cursor :=
  { s.cursor with
    column := (column.map s.boundColumn).getD s.cursor.column
    row := (row.map Int.toNat).getD s.cursor.row }

theorem moveTo_eq (s : Screen) (column row : Option Int) :
    s.moveTo column row =
      { s with cursor := s.landing column row }.reach (s.landing column row).row := by
  cases column <;> cases row <;> rfl

/-- A row is reached unless it lies beyond the limit, which changes nothing. -/
theorem reach_cases (s : Screen) (row : Nat) :
    ((∀ n ∈ s.maxLines, (row : Int) < n) ∧ s.reach row = ⟨s.extend row, none⟩) ∨
      ∃ n ∈ s.maxLines, n ≤ (row : Int) ∧ s.reach row = ⟨s, some (Fault.lineLimit n).raised⟩ := by
  cases h : s.maxLines with
  | none => exact .inl ⟨by simp, by simp [reach, h]⟩
  | some n =>
    by_cases hn : n ≤ (row : Int)
    · exact .inr ⟨n, rfl, hn, by simp [reach, h, hn]⟩
    · exact .inl ⟨by simpa using Int.not_le.mp hn, by simp [reach, h, hn]⟩

theorem size_extend (s : Screen) (row : Nat) :
    (s.extend row).lines.size = max s.lines.size (row + 1) := by
  rw [extend]
  split
  · omega
  · simp only [Array.size_append, Array.size_replicate]
    omega

theorem mem_extend {s : Screen} {row : Nat} {line : Line} (h : line ∈ (s.extend row).lines) :
    line ∈ s.lines ∨ line = #[] := by
  rw [extend] at h
  split at h
  · exact .inl h
  · rw [Array.mem_append, Array.mem_replicate] at h
    exact h.imp_right And.right

theorem getElem?_extend (s : Screen) (row y : Nat) :
    (s.extend row).lines[y]? =
      if y < s.lines.size then s.lines[y]? else if y ≤ row then some #[] else none := by
  rw [extend]
  split
  · rename_i h
    split
    · rfl
    · rw [if_neg (by omega), Array.getElem?_eq_none (by omega)]
  · rw [Array.getElem?_append, Array.getElem?_replicate]
    split
    · rfl
    · congr 1
      exact propext (by omega)

theorem cursor_extend (s : Screen) (row : Nat) : (s.extend row).cursor = s.cursor := by
  rw [extend]
  split <;> rfl

theorem cursor_moveTo (s : Screen) (column row : Option Int) :
    (s.moveTo column row).state.cursor = s.landing column row := by
  rw [moveTo_eq]
  obtain ⟨-, he⟩ | ⟨n, -, -, he⟩ := reach_cases { s with cursor := s.landing column row }
    (s.landing column row).row
  · rw [he]
    exact cursor_extend _ _
  · rw [he]

/-- The faults that parameters are refused with. They are put into words unless a number is too long. -/
def Refusal (ps : Params) (e : Fault) : Prop :=
  ∃ f : Fault, f.isRefusal = true ∧ e = f.raised ∧ (f.raised = f ↔ ps.Writable)

theorem Refusal.count (c : Command) (ps : Params) : Refusal ps (Fault.parameterCount c ps).raised :=
  ⟨_, rfl, rfl, Fault.raised_parameterCount⟩

theorem Refusal.mode (c : Command) (ps : Params) : Refusal ps (Fault.unsupportedMode c ps).raised :=
  ⟨_, rfl, rfl, Fault.raised_unsupportedMode⟩

theorem Refusal.cases {ps : Params} {e : Fault} (h : Refusal ps e) :
    (ps.Writable ∧ e.isRefusal = true) ∨ (¬ps.Writable ∧ ∃ f : Fault, f.isRefusal = true ∧ e = .wordless f) := by
  obtain ⟨f, hf, rfl, hw⟩ := h
  obtain he | ⟨-, he⟩ := f.raised_cases
  · exact .inl ⟨hw.mp he, by rwa [he]⟩
  · refine .inr ⟨fun h ↦ ?_, f, hf, he⟩
    rw [he] at hw
    have := hw.mpr h
    rw [← this] at hf
    cases hf

theorem Refusal.not_ofScreen {ps : Params} {e : Fault} (h : Refusal ps e) : ¬e.OfScreen := by
  intro he
  obtain ⟨-, hf⟩ | ⟨-, f, hf, rfl⟩ := h.cases
  · rw [he.not_refusal] at hf
    cases hf
  · cases he
    cases hf

theorem refusal_of_single {c : Command} {d : Int} {ps : Params} {e : Fault}
    (h : single c d ps = .error e) : Refusal ps e := by
  unfold single at h
  split at h <;> cases h
  exact .count c _

theorem refusal_of_eraseMode {c : Command} {ps : Params} {e : Fault}
    (h : eraseMode c ps = .error e) : Refusal ps e := by
  rw [eraseMode] at h
  split at h
  · split_ifs at h
    cases h
    exact .mode c ps
  · rename_i e' he
    cases h
    exact refusal_of_single he

theorem moveTo_fault {s : Screen} {column row : Option Int} {f : Fault}
    (h : (s.moveTo column row).fault = some f) : ∃ n ∈ s.maxLines, f = (Fault.lineLimit n).raised := by
  rw [moveTo_eq] at h
  obtain ⟨-, he⟩ | ⟨n, hn, -, he⟩ := reach_cases { s with cursor := s.landing column row }
    (s.landing column row).row
  · rw [he] at h
    cases h
  · rw [he] at h
    cases h
    exact ⟨n, hn, rfl⟩

theorem ofScreen_of_moveTo {s : Screen} {column row : Option Int} {f : Fault}
    (h : (s.moveTo column row).fault = some f) : f.OfScreen := by
  obtain ⟨n, -, rfl⟩ := moveTo_fault h
  exact Fault.ofScreen_lineLimit n

theorem maxLines_extend (s : Screen) (row : Nat) : (s.extend row).maxLines = s.maxLines := by
  rw [extend]
  split <;> rfl

theorem write_fault {s : Screen} {c : Char} {a : Style} {f : Fault}
    (h : (s.write c a).fault = some f) : f = .overflow ∨ ∃ n ∈ s.maxLines, f = (Fault.lineLimit n).raised := by
  rw [write] at h
  obtain ⟨-, he⟩ | ⟨n, hn, -, he⟩ := s.reach_cases s.cursor.row
  · rw [he] at h
    dsimp only [Outcome.andThen] at h
    split at h
    · cases h
      exact .inl rfl
    split at h
    · simpa only [maxLines_extend] using Or.inr (moveTo_fault h)
    · cases h
  · rw [he] at h
    cases h
    exact .inr ⟨n, hn, rfl⟩

theorem writeAll_fault {a : Style} {cs : List Char} {s : Screen} {f : Fault}
    (h : (writeAll a cs s).fault = some f) : f = .overflow ∨ ∃ n, f = (Fault.lineLimit n).raised := by
  induction cs generalizing s with
  | nil => cases h
  | cons c cs ih =>
    obtain h | h := Outcome.andThen_fault h
    · exact (write_fault h).imp_right fun ⟨n, _, hn⟩ ↦ ⟨n, hn⟩
    · exact ih h

theorem ofScreen_of_writeAll {a : Style} {cs : List Char} {s : Screen} {f : Fault}
    (h : (writeAll a cs s).fault = some f) : f.OfScreen := by
  obtain rfl | ⟨n, rfl⟩ := writeAll_fault h
  · exact .overflow
  · exact Fault.ofScreen_lineLimit n

theorem writeAll_singleton (s : Screen) (c : Char) (a : Style) : writeAll a [c] s = s.write c a := by
  unfold writeAll
  obtain ⟨t, _ | f⟩ := s.write c a <;> rfl

theorem editLine_fault {s : Screen} {g : Line → Line} {f : Fault} (h : (s.editLine g).fault = some f) :
    f = .noSuchLine := by
  rw [editLine] at h
  split at h <;> cases h
  rfl

theorem single_cases (c : Command) (d : Int) (ps : Params) :
    (ps.length ≤ 1 ∧ ∃ n, single c d ps = .ok n) ∨
      (1 < ps.length ∧ single c d ps = .error (Fault.parameterCount c ps).raised) := by
  match ps with
  | [] => exact .inl ⟨by simp, _, rfl⟩
  | [_] => exact .inl ⟨by simp, _, rfl⟩
  | _ :: _ :: _ => exact .inr ⟨by simp, rfl⟩

theorem eraseMode_cases {c : Command} (hc : c = .eraseDisplay ∨ c = .eraseLine) (ps : Params) :
    (¬c.Refuses ps ∧ ∃ m, eraseMode c ps = .ok m) ∨
      (c.Refuses ps ∧ ∃ f, Refusal ps f ∧ eraseMode c ps = .error f) := by
  have htakes : ∀ k, c.takes k = decide (k ≤ 1) := by
    obtain rfl | rfl := hc <;> exact fun _ ↦ rfl
  have haccepts : ∀ qs : Params, qs.length ≤ 1 → (∀ n, qs = [some n] → ¬(n ≠ 0 ∧ n ≠ 1 ∧ n ≠ 2)) →
      ¬c.Refuses qs := by
    rintro qs hl hm (h | ⟨-, hqs, hn⟩)
    · simp [htakes, hl] at h
    · exact hm _ hqs hn
  match ps with
  | [] => exact .inl ⟨haccepts _ (by simp) (by simp), .after, rfl⟩
  | [none] => exact .inl ⟨haccepts _ (by simp) (by simp), .after, rfl⟩
  | [some n] =>
    by_cases hn : n ≠ 0 ∧ n ≠ 1 ∧ n ≠ 2
    · refine .inr ⟨.mode hc rfl hn, _, .mode c [some n], ?_⟩
      simp [eraseMode, single, hn]
    · refine .inl ⟨haccepts _ (by simp) (fun m hm ↦ by cases hm; exact hn), ?_⟩
      simp only [eraseMode, single, Option.getD_some]
      split_ifs with h₀ h₁ h₂
      · exact ⟨_, rfl⟩
      · exact ⟨_, rfl⟩
      · exact ⟨_, rfl⟩
      · exact absurd ⟨h₀, h₁, h₂⟩ hn
  | p :: q :: ps =>
    exact .inr ⟨.count (by simp [htakes]), _, .count c (p :: q :: ps), rfl⟩

/-- The mode with a number. -/
def EraseMode.numbered : Nat → EraseMode
  | 0 => .after
  | 1 => .before
  | _ => .all

theorem eraseMode_of_number {c : Command} {ps : Params} {n : Nat} (h : EraseNumber ps n) :
    eraseMode c ps = .ok (.numbered n) := by
  cases h with
  | missing | omitted => rfl
  | given h =>
    obtain rfl | rfl | rfl : n = 0 ∨ n = 1 ∨ n = 2 := by omega
    all_goals rfl

theorem number_of_not_refuses {c : Command} (hc : c = .eraseDisplay ∨ c = .eraseLine) {ps : Params}
    (h : ¬c.Refuses ps) : ∃ n, EraseNumber ps n := by
  match ps with
  | [] => exact ⟨0, .missing⟩
  | [none] => exact ⟨0, .omitted⟩
  | [some n] =>
    have hn : ¬(n ≠ 0 ∧ n ≠ 1 ∧ n ≠ 2) := fun hn ↦ h (.mode hc rfl hn)
    obtain ⟨k, rfl⟩ : ∃ k : Nat, n = k := ⟨n.toNat, by omega⟩
    exact ⟨k, .given (by omega)⟩
  | _ :: _ :: _ => exact absurd (.count (by obtain rfl | rfl := hc <;> simp [Command.takes])) h

/-- A command refuses its parameters and leaves the screen as it is, or meets no fault but the screen's own. -/
theorem perform_cases (s : Screen) (c : Command) (ps : Params) :
    (c.Refuses ps ∧ ∃ f, Refusal ps f ∧ s.perform c ps = ⟨s, some f⟩) ∨
      (¬c.Refuses ps ∧ ∀ f, (s.perform c ps).fault = some f → f.OfScreen ∧ f ≠ .overflow) := by
  have hmove : ∀ {t : Screen} {x y : Option Int} {f : Fault},
      (t.moveTo x y).fault = some f → f.OfScreen ∧ f ≠ .overflow := by
    intro t x y f h
    obtain ⟨n, -, rfl⟩ := moveTo_fault h
    exact ⟨Fault.ofScreen_lineLimit n, Fault.raised_lineLimit_ne_overflow⟩
  have hedit : ∀ {t : Screen} {g : Line → Line} {f : Fault},
      (t.editLine g).fault = some f → f.OfScreen ∧ f ≠ .overflow := by
    intro t g f h
    rw [editLine_fault h]
    exact ⟨.noSuchLine, nofun⟩
  cases c with
  | up | down | forward | back | nextLine | previousLine =>
    simp only [perform, move]
    obtain ⟨hl, n, he⟩ | ⟨hl, he⟩ := single_cases _ 1 ps
    · rw [he]
      exact .inr ⟨Command.not_refuses (by simpa [Command.takes] using hl) (by decide), fun f ↦ hmove⟩
    · rw [he]
      exact .inl ⟨.count (by simpa [Command.takes] using hl), _, .count _ ps, rfl⟩
  | column =>
    match ps with
    | [_] => exact .inr ⟨Command.not_refuses rfl (by decide), fun f ↦ hmove⟩
    | [] | _ :: _ :: _ => exact .inl ⟨.count rfl, _, .count _ _, rfl⟩
  | position =>
    match ps with
    | [] | [_, _] => exact .inr ⟨Command.not_refuses rfl (by decide), fun f ↦ hmove⟩
    | [_] | _ :: _ :: _ :: _ => exact .inl ⟨.count (by simp [Command.takes]), _, .count _ _, rfl⟩
  | eraseDisplay =>
    simp only [perform, erase]
    obtain ⟨hr, m, he⟩ | ⟨hr, f, hf, he⟩ := eraseMode_cases (.inl rfl) ps
    · rw [he]
      refine .inr ⟨hr, fun f h ↦ ?_⟩
      cases m with
      | after =>
        obtain h | h := Outcome.andThen_fault h
        · exact hedit h
        · cases h
      | before => exact hedit h
      | all => exact hmove h
    · rw [he]
      exact .inl ⟨hr, f, hf, rfl⟩
  | eraseLine =>
    simp only [perform, erase]
    obtain ⟨hr, m, he⟩ | ⟨hr, f, hf, he⟩ := eraseMode_cases (.inr rfl) ps
    · rw [he]
      refine .inr ⟨hr, fun f h ↦ ?_⟩
      cases m <;> exact hedit h
    · rw [he]
      exact .inl ⟨hr, f, hf, rfl⟩
  | save =>
    match ps with
    | [] => exact .inr ⟨Command.not_refuses rfl (by decide), fun f h ↦ by cases h⟩
    | _ :: _ => exact .inl ⟨.count rfl, _, .count _ _, rfl⟩
  | restore =>
    match ps with
    | [] => exact .inr ⟨Command.not_refuses rfl (by decide), fun f ↦ hmove⟩
    | _ :: _ => exact .inl ⟨.count rfl, _, .count _ _, rfl⟩

/-- What is raised instead of a refusal refuses numbers of too many digits. -/
theorem perform_unrefused {s : Screen} {c : Command} {ps : Params} {f : Fault} (h : (s.perform c ps).fault = some f)
    (hf : f.isRefusal = false) :
    (f.OfScreen ∧ f ≠ .overflow) ∨
      (c.Refuses ps ∧ ¬ps.Writable ∧ (s.perform c ps).state = s ∧ ∃ g : Fault, g.isRefusal = true ∧ f = .wordless g) := by
  obtain ⟨hrefuses, e, he, hperform⟩ | ⟨-, hscreen⟩ := s.perform_cases c ps
  · rw [hperform] at h ⊢
    obtain rfl : e = f := Option.some.inj h
    obtain ⟨-, hrefusal⟩ | ⟨hlong, hwordless⟩ := he.cases
    · rw [hrefusal] at hf
      cases hf
    · exact .inr ⟨hrefuses, hlong, rfl, hwordless⟩
  · exact .inl (hscreen f h)

theorem perform_refused {s : Screen} {c : Command} {ps : Params} {f : Fault}
    (h : (s.perform c ps).fault = some f) (hf : ¬f.OfScreen) : (s.perform c ps).state = s := by
  obtain ⟨-, _, -, he⟩ | ⟨-, hs⟩ := s.perform_cases c ps
  · rw [he]
  · exact absurd (hs f h).1 hf

end Screen

end TermCapture
