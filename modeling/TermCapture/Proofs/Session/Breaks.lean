import TermCapture.Proofs.Screen.Overflow
import TermCapture.Proofs.Session.Actions

namespace TermCapture.Session

/-- The characters that a byte writes outside of sequences. -/
def written (cfg : Config) (s : Session) (b : UInt8) : List Char :=
  if 0x20 ≤ b then (cfg.charset.decode s.pending b).1
  else if b = 0x00 ∨ b = 0x0d ∨ b = 0x0a ∨ b = 0x1b then []
  else if b = 0x1a then cfg.charset.flush s.pending
  else match cfg.controlBytes with
    | .blank => [' ']
    | .glyph => (cfg.charset.decode s.pending b).1
    | .ignore => []

/-- A byte raises what is no fault of the input: it writes behind more blanks than can be asked for, it completes a
command that refuses a number of too many digits, or it exceeds a line limit of too many digits. -/
inductive Breaks (cfg : Config) (s : Session) (b : UInt8) : Prop
  | overflow (hs : s.finished = false) (ht : s.tokenizer = .ground) (hw : s.written cfg b ≠ [])
      (hfar : s.screen.TooFar)
  | digits {q : Sequence} {c : Command} (hs : s.finished = false)
      (hq : (s.tokenizer.next cfg.strict (cfg.maxSequenceLength.map Int.ofNat) b).2 = some (.sequence q))
      (hp : q.isPrivate = false) (hc : Command.ofByte? q.final = some c) (hr : c.Refuses q.params)
      (hw : ¬q.params.Writable)
  | limit {f : Fault} (hf : (s.push cfg b).fault = some f) (hu : f.Unnamed)

/-- The end of the text raises what is no fault of the input. -/
inductive BreaksAtEnd (cfg : Config) (s : Session) : Prop
  | overflow (hs : s.finished = false) (hw : cfg.charset.flush s.pending ≠ []) (hfar : s.screen.TooFar)
  | limit {f : Fault} (hf : (s.close cfg).fault = some f) (hu : f.Unnamed)

variable {cfg : Config} {s : Session} {f : Fault}

theorem isOfInput_of_ofScreen (h : f.OfScreen) (ho : f ≠ .overflow) (hl : f ≠ .noSuchLine) :
    f.isOfInput = true ∨ f.Unnamed := by
  cases h with
  | lineLimit n => exact .inl rfl
  | wordless n => exact .inr ⟨n, rfl⟩
  | overflow => exact absurd rfl ho
  | noSuchLine => exact absurd rfl hl

theorem isOfInput_of_unnamed (h : f.Unnamed) : f.isOfInput = false := by
  obtain ⟨n, rfl⟩ := h
  rfl

theorem isOfInput_of_limit (n : Int) : (Fault.lineLimit n).raised.isOfInput = true ∨ (Fault.lineLimit n).raised.Unnamed :=
  isOfInput_of_ofScreen (Fault.ofScreen_lineLimit n) Fault.raised_lineLimit_ne_overflow
    Fault.raised_lineLimit_ne_noSuchLine

theorem isOfInput_of_move {t : Screen} {x y : Option Int} (h : (t.moveTo x y).fault = some f) :
    f.isOfInput = true ∨ f.Unnamed := by
  obtain ⟨n, -, rfl⟩ := Screen.moveTo_fault h
  exact isOfInput_of_limit n

theorem isOfInput_of_report {g : Fault} (hg : g.isOfInput = true) (h : (s.report cfg g).fault = some f) :
    f.isOfInput = true := by
  rw [report] at h
  split at h <;> cases h
  exact hg

section

variable (h : cfg.Ready s.screen)

include h

theorem writeAll_fault {a : Style} {cs : List Char} (hf : (Screen.writeAll a cs s.screen).fault = some f) :
    (f.isOfInput = true ∨ f.Unnamed) ∨ (cs ≠ [] ∧ s.screen.TooFar) := by
  obtain rfl | ⟨n, rfl⟩ := Screen.writeAll_fault hf
  · exact .inr ((h.writeAll_overflow_iff a cs).mp hf)
  · exact .inl (isOfInput_of_limit n)

theorem close_fault (hf : (s.close cfg).fault = some f) :
    (f.isOfInput = true ∨ f.Unnamed) ∨ (cfg.charset.flush s.pending ≠ [] ∧ s.screen.TooFar) := by
  obtain hs | ⟨hs, g, hg, hc⟩ | ⟨hs, hc⟩ := close_cases cfg s
  · rw [close_finished hs] at hf
    cases hf
  · rw [close_stopped hs hg hc] at hf
    cases hf
    exact writeAll_fault h hg
  · rw [close_done hs hc] at hf
    cases hf

theorem perform_byte_fault {b : UInt8} (hb : b ≠ 0x1b) (hf : (s.perform cfg (.byte b)).fault = some f) :
    (f.isOfInput = true ∨ f.Unnamed) ∨ (s.written cfg b ≠ [] ∧ s.screen.TooFar) := by
  by_cases hprint : 0x20 ≤ b
  · rw [written, if_pos hprint]
    simp only [perform, if_pos hprint] at hf
    exact writeAll_fault h hf
  simp only [perform, if_neg hprint, control] at hf
  split_ifs at hf with hnull hline hend
  · exact .inl (isOfInput_of_move hf)
  · have hplain : ¬(b = 0x00 ∨ b = 0x0d ∨ b = 0x0a ∨ b = 0x1b) := by simp [hend]
    rw [written, if_neg hprint, if_neg hplain, if_pos hend]
    exact close_fault h hf
  · have hplain : ¬(b = 0x00 ∨ b = 0x0d ∨ b = 0x0a ∨ b = 0x1b) := by
      rintro (hz | hr | hl | he)
      · exact hnull (.inl hz)
      · exact hnull (.inr hr)
      · exact hline hl
      · exact hb he
    rw [written, if_neg hprint, if_neg hplain, if_neg hend]
    cases hp : cfg.controlBytes with
    | ignore =>
      rw [hp] at hf
      exact .inl (.inl (isOfInput_of_report rfl hf))
    | blank =>
      rw [hp] at hf
      rw [onScreen_eq, ← Screen.writeAll_singleton] at hf
      exact writeAll_fault h hf
    | glyph =>
      rw [hp] at hf
      exact writeAll_fault h hf

theorem command_fault {c : Command} {ps : Params} (hf : (s.command cfg c ps).fault = some f) :
    (f.isOfInput = true ∨ f.Unnamed) ∨ (c.Refuses ps ∧ ¬ps.Writable) := by
  obtain ha | ⟨g, hg, hr, hc | ⟨hc, rfl⟩⟩ := command_cases cfg s c ps
  · rw [command_accepted ha] at hf
    obtain ⟨hof, hover⟩ | ⟨hrefuses, hlong, -⟩ := Screen.perform_unrefused hf (ha f hf)
    · refine .inl (isOfInput_of_ofScreen hof hover ?_)
      rintro rfl
      exact (h.perform c ps).noSuchLine hf
    · exact .inr ⟨hrefuses, hlong⟩
  · rw [command_refused hg hr hc] at hf
    exact .inl (.inl (isOfInput_of_report (isOfInput_of_isRefusal hr) hf))
  · rw [command_row hg hr hc] at hf
    match ps with
    | [_] => exact .inl (isOfInput_of_move hf)
    | [] | _ :: _ :: _ => cases hf

theorem dispatch_fault {q : Sequence} (hf : (s.dispatch cfg q).fault = some f) :
    (f.isOfInput = true ∨ f.Unnamed) ∨
      (q.isPrivate = false ∧ ∃ c, Command.ofByte? q.final = some c ∧ c.Refuses q.params ∧ ¬q.params.Writable) := by
  obtain ⟨-, he⟩ | ⟨-, -, he⟩ | ⟨-, -, -, he⟩ | ⟨hp, c, hc, he⟩ := dispatch_cases cfg s q
  · rw [he] at hf
    cases hf
  · rw [he] at hf
    cases hf
  · rw [he] at hf
    exact .inl (.inl (isOfInput_of_report rfl hf))
  · rw [he] at hf
    exact (command_fault h hf).imp_right fun hr ↦ ⟨hp, c, hc, hr⟩

theorem flushed_overflow (hw : cfg.charset.flush s.pending ≠ []) (hfar : s.screen.TooFar) :
    (s.flushed cfg).fault = some .overflow := (h.writeAll_overflow_iff _ _).mpr ⟨hw, hfar⟩

theorem close_overflow (hs : s.finished = false) (hw : cfg.charset.flush s.pending ≠ []) (hfar : s.screen.TooFar) :
    (s.close cfg).fault = some .overflow := by
  rw [close_stopped hs (flushed_overflow h hw hfar) (.inr nofun)]

theorem perform_byte_overflow (hs : s.finished = false) {b : UInt8} (hw : s.written cfg b ≠ [])
    (hfar : s.screen.TooFar) : (s.perform cfg (.byte b)).fault = some .overflow := by
  have hwrites : ∀ cs, cs ≠ [] → (Screen.writeAll s.style cs s.screen).fault = some .overflow :=
    fun cs hcs ↦ (h.writeAll_overflow_iff _ cs).mpr ⟨hcs, hfar⟩
  by_cases hprint : 0x20 ≤ b
  · rw [written, if_pos hprint] at hw
    simp only [perform, if_pos hprint]
    exact hwrites _ hw
  rw [written, if_neg hprint] at hw
  by_cases hplain : b = 0x00 ∨ b = 0x0d ∨ b = 0x0a ∨ b = 0x1b
  · exact absurd (if_pos hplain) hw
  rw [if_neg hplain] at hw
  obtain ⟨hnull, hreturn, hline, -⟩ : ¬b = 0x00 ∧ ¬b = 0x0d ∧ ¬b = 0x0a ∧ ¬b = 0x1b := by
    simpa only [not_or] using hplain
  simp only [perform, if_neg hprint, control]
  rw [if_neg (not_or.mpr ⟨hnull, hreturn⟩), if_neg hline]
  by_cases hend : b = 0x1a
  · rw [if_pos hend] at hw ⊢
    exact close_overflow h hs hw hfar
  rw [if_neg hend] at hw ⊢
  cases hp : cfg.controlBytes with
  | ignore =>
    rw [hp] at hw
    exact absurd rfl hw
  | blank =>
    change (s.screen.write ' ' s.style).fault = _
    rw [← Screen.writeAll_singleton]
    exact hwrites _ (List.cons_ne_nil _ _)
  | glyph =>
    rw [hp] at hw
    exact hwrites _ hw

end

theorem dispatch_digits (cfg : Config) (s : Session) {q : Sequence} {c : Command} (hp : q.isPrivate = false)
    (hc : Command.ofByte? q.final = some c) (hr : c.Refuses q.params) (hw : ¬q.params.Writable) :
    ∃ f, (s.dispatch cfg q).fault = some (.wordless f) := by
  obtain ⟨-, e, he, hperform⟩ | ⟨hnot, -⟩ := s.screen.perform_cases c q.params
  · obtain ⟨hw', -⟩ | ⟨-, f, -, rfl⟩ := he.cases
    · exact absurd hw' hw
    · refine ⟨f, ?_⟩
      rw [dispatch_command cfg s hp hc, command_accepted fun g hg ↦ ?_, onScreen_eq, hperform]
      rw [hperform] at hg
      cases hg
      rfl
  · exact absurd hr hnot

theorem settle_fault {r : Step} (hf : (settle cfg r).fault = some f) : r.fault = some f := by
  obtain ⟨-, he⟩ | ⟨n, hn, he⟩ := settle_cases cfg r
  · rwa [he] at hf
  · rw [he] at hf
    dsimp only at hf
    split at hf <;> cases hf
    exact hn

theorem settle_fault_of_ne {r : Step} (hf : r.fault = some f) (hn : ∀ n, f ≠ .lineLimit n) :
    (settle cfg r).fault = some f := by
  obtain ⟨-, he⟩ | ⟨n, hr, -⟩ := settle_cases cfg r
  · rw [he, hf]
  · cases hf.symm.trans hr
    exact absurd rfl (hn n)

/-- A byte raises faults of the input only, unless it is one that breaks the session. -/
theorem push_fault (h : s.Bounded cfg) {b : UInt8} (hf : (s.push cfg b).fault = some f) :
    f.isOfInput = true ∨ s.Breaks cfg b := by
  have hlimit : f.isOfInput = true ∨ f.Unnamed → f.isOfInput = true ∨ s.Breaks cfg b :=
    Or.imp_right fun hu ↦ .limit hf hu
  obtain ⟨-, he⟩ | ⟨-, t, -, he⟩ | ⟨hs, t, token, ht, he⟩ := push_cases cfg s b
  · rw [he] at hf
    cases hf
  · rw [he] at hf
    cases hf
  have hready : cfg.Ready ({ s with tokenizer := t, offset := s.offset + 1 } : Session).screen := h.ready hs
  have hstep := settle_fault (he ▸ hf)
  cases token with
  | byte b' =>
    obtain ⟨hground, -, rfl, hb⟩ := Tokenizer.next_byte ht
    obtain hi | ⟨hw, hfar⟩ := perform_byte_fault hready hb hstep
    · exact hlimit hi
    · exact .inr (.overflow hs hground hw hfar)
  | sequence q =>
    obtain hi | ⟨hp, c, hc, hr, hw⟩ := dispatch_fault hready hstep
    · exact hlimit hi
    · exact .inr (.digits hs (congrArg Prod.snd ht) hp hc hr hw)
  | fault g => exact .inl (isOfInput_of_report (isOfInput_of_next ht g rfl) hstep)

/-- Exactly the bytes that break a session raise what is no fault of the input. -/
theorem push_breaks_iff (h : s.Bounded cfg) (b : UInt8) :
    (∃ f, (s.push cfg b).fault = some f ∧ f.isOfInput = false) ↔ s.Breaks cfg b := by
  constructor
  · rintro ⟨f, hf, hi⟩
    refine (push_fault h hf).resolve_left fun hi' ↦ ?_
    rw [hi] at hi'
    cases hi'
  -- what breaks the session is raised by its own level and not held back by those above
  · rintro (⟨hs, ht, hw, hfar⟩ | ⟨hs, hq, hp, hc, hr, hw⟩ | ⟨hf, hu⟩)
    · have hb : b ≠ 0x1b := by
        rintro rfl
        exact hw rfl
      have hnext : s.tokenizer.next cfg.strict (cfg.maxSequenceLength.map Int.ofNat) b =
          (.ground, some (.byte b)) := by
        rw [ht, Tokenizer.next_ground, if_neg hb]
      refine ⟨.overflow, ?_, rfl⟩
      rw [push_token hs hnext]
      exact settle_fault_of_ne (perform_byte_overflow
        (s := { s with tokenizer := .ground, offset := s.offset + 1 }) (h.ready hs) hs hw hfar) nofun
    · obtain ⟨f, hf⟩ := dispatch_digits cfg { s with
        tokenizer := (s.tokenizer.next cfg.strict (cfg.maxSequenceLength.map Int.ofNat) b).1
        offset := s.offset + 1 } hp hc hr hw
      refine ⟨.wordless f, ?_, rfl⟩
      rw [push_token hs (Prod.ext rfl hq)]
      exact settle_fault_of_ne hf nofun
    · exact ⟨_, hf, isOfInput_of_unnamed hu⟩

/-- Exactly the ends that break a session raise what is no fault of the input. -/
theorem close_breaks_iff (h : s.Bounded cfg) :
    (∃ f, (s.close cfg).fault = some f ∧ f.isOfInput = false) ↔ s.BreaksAtEnd cfg := by
  constructor
  · rintro ⟨f, hf, hi⟩
    cases hs : s.finished with
    | true =>
      rw [close_finished hs] at hf
      cases hf
    | false =>
      obtain (hi' | hu) | ⟨hw, hfar⟩ := close_fault (h.ready hs) hf
      · rw [hi] at hi'
        cases hi'
      · exact .limit hf hu
      · exact .overflow hs hw hfar
  · rintro (⟨hs, hw, hfar⟩ | ⟨hf, hu⟩)
    · exact ⟨.overflow, close_overflow (h.ready hs) hs hw hfar, rfl⟩
    · exact ⟨_, hf, isOfInput_of_unnamed hu⟩

/-- In every state that bytes lead to, also behind faults, the limits of the settings are kept. As long as no line
limit is exceeded that has too many digits to be named, the cursor is on a line where the session goes on, and a byte
raises nothing but faults of the input exactly where it does not break the session. Columns and rows are natural
numbers, so none of them is negative. -/
theorem pushAll_keeps_limits (cfg : Config) (bs : List UInt8) :
    let s := pushAll cfg bs (start cfg)
    0 < s.screen.lines.size ∧
    (∀ n ∈ cfg.maxLines, s.screen.lines.size ≤ n) ∧
    (∀ n ∈ cfg.maxColumns, s.screen.cursor.column < max cfg.width n ∧
      ∀ line ∈ s.screen.lines, line.size ≤ max cfg.width n) ∧
    (cfg.NamesLimit → Named cfg bs (start cfg)) ∧
    (Named cfg bs (start cfg) →
      (s.finished = false → s.screen.cursor.row < s.screen.lines.size ∧
        ∀ n ∈ cfg.maxLines, s.screen.cursor.savedRow < n) ∧
      ∀ b, (∀ f, (s.push cfg b).fault = some f → f.isOfInput = true) ↔ ¬s.Breaks cfg b) := by
  intro s
  have hkept : cfg.Kept s.screen := pushAll_kept cfg bs
  have hlimit : ∀ {k : Option Nat} {n : Nat}, n ∈ k → (n : Int) ∈ k.map Int.ofNat :=
    fun hn ↦ Option.mem_map_of_mem Int.ofNat hn
  refine ⟨hkept.lines_pos, fun n hn ↦ ?_, fun n hn ↦ ⟨?_, fun line hl ↦ ?_⟩,
    fun hcfg ↦ named_of_namesLimit hcfg (start_bounded cfg) bs, fun hnamed ↦ ?_⟩
  · have := hkept.lines_le n (hlimit hn)
    omega
  · have := hkept.column_lt n (hlimit hn)
    omega
  · have := hkept.line_le n (hlimit hn) line hl
    omega
  · have h : s.Bounded cfg := pushAll_bounded (start_bounded cfg) hnamed
    refine ⟨fun hf ↦ ⟨(h.ready hf).row_lt, fun n hn ↦ ?_⟩, fun b ↦ ?_⟩
    · have := (h.ready hf).savedRow_lt n (hlimit hn)
      omega
    · rw [← push_breaks_iff h b]
      simp

/-- The cursor is moved behind more blanks than can be asked for, and the next character is written there. -/
theorem push_overflows :
    let cfg : Config := {}
    let s := pushAll cfg ("\x1b[100000000000000000000C".toUTF8.toList) (start cfg)
    (s.push cfg 0x61).fault = some .overflow ∧ Fault.isOfInput .overflow = false := by
  decide +kernel

end TermCapture.Session
