import TermCapture.Proofs.Screen.Moves
import TermCapture.Proofs.Token
import TermCapture.Session

namespace TermCapture

namespace Session

variable (cfg : Config) (s : Session)

theorem onScreen_eq (f : Screen → Outcome Screen) :
    s.onScreen f = ⟨{ s with screen := (f s.screen).state }, (f s.screen).fault, []⟩ := rfl

theorem put_eq (b : UInt8) :
    s.put cfg b = { s with pending := (cfg.charset.decode s.pending b).2 }.onScreen
      (Screen.writeAll s.style (cfg.charset.decode s.pending b).1) := rfl

theorem report_session (f : Fault) : (s.report cfg f).session = s := by
  rw [report]
  split <;> rfl

theorem report_permissive {cfg : Config} (hc : cfg.strict = false) (f : Fault) :
    s.report cfg f = ⟨s, none, [.tolerated f]⟩ := by
  simp [report, hc]

theorem report_strict {cfg : Config} (hc : cfg.strict = true) (f : Fault) :
    s.report cfg f = ⟨s, some f, []⟩ := by
  simp [report, hc]

/-- The screen behind what an unfinished character stands for. -/
def flushed : Outcome Screen := Screen.writeAll s.style (cfg.charset.flush s.pending) s.screen

theorem flushed_ground : flushed cfg { s with tokenizer := .ground } = s.flushed cfg := rfl

/-- The session behind what an unfinished character stands for, outside of any sequence. -/
def dropped : Session := { s with tokenizer := .ground, pending := none, screen := (s.flushed cfg).state }

theorem flush_eq :
    s.flush cfg = match (s.flushed cfg).fault with
      | some (.lineLimit n) => { s with pending := none, screen := (s.flushed cfg).state }.report cfg (.lineLimit n)
      | f => ⟨{ s with pending := none, screen := (s.flushed cfg).state }, f, []⟩ := by
  unfold flush flushed
  dsimp only
  rw [onScreen_eq]
  dsimp only
  split <;> simp only [*]

def cutNotes : List Note := if s.tokenizer = .ground then [] else [.cutSequence s.offset]

variable {cfg s}

theorem close_finished (h : s.finished = true) :
    s.close cfg = ⟨{ s with tokenizer := .ground }, none, s.cutNotes⟩ := by
  simp only [close, cutNotes, Tokenizer.drop_eq, Tokenizer.state_eq_ground_iff, h, if_true]

/-- A fault that is not reported, or that is reported in strict reading, keeps the session from being finished. -/
theorem close_stopped (h : s.finished = false) {f : Fault} (hf : (s.flushed cfg).fault = some f)
    (hc : cfg.strict = true ∨ ∀ n, f ≠ .lineLimit n) :
    s.close cfg = ⟨s.dropped cfg, some f, s.cutNotes⟩ := by
  have hflush : ({ s with tokenizer := .ground } : Session).flush cfg = ⟨s.dropped cfg, some f, []⟩ := by
    rw [flush_eq, flushed_ground, hf]
    split
    · rename_i n hn
      cases hn
      exact report_strict _ (hc.resolve_right fun h ↦ h n rfl) _
    · rfl
  simp only [close, cutNotes, Tokenizer.drop_eq, Tokenizer.state_eq_ground_iff, h, Bool.false_eq_true, if_false]
    at hflush ⊢
  simp only [hflush, List.append_nil]

/-- A full screen is noted in permissive reading. -/
theorem close_done (h : s.finished = false)
    (hc : (s.flushed cfg).fault = none ∨ (cfg.strict = false ∧ ∃ n, (s.flushed cfg).fault = some (.lineLimit n))) :
    s.close cfg = ⟨{ s.dropped cfg with finished := true }, none,
      s.cutNotes ++ ((s.flushed cfg).fault.map Note.tolerated).toList ++
        [.finished s.offset (s.flushed cfg).state.lines.size]⟩ := by
  have hflush : ({ s with tokenizer := .ground } : Session).flush cfg =
      ⟨s.dropped cfg, none, ((s.flushed cfg).fault.map Note.tolerated).toList⟩ := by
    rw [flush_eq, flushed_ground]
    obtain hf | ⟨hc, n, hf⟩ := hc
    · rw [hf]
      rfl
    · rw [hf]
      exact report_permissive _ hc _
  simp only [close, cutNotes, Tokenizer.drop_eq, Tokenizer.state_eq_ground_iff, h, Bool.false_eq_true, if_false]
    at hflush ⊢
  simp only [hflush]
  rfl

/-- The three ways in which a session can be closed. -/
theorem close_cases (cfg : Config) (s : Session) :
    s.finished = true ∨
      (s.finished = false ∧
        ∃ f, (s.flushed cfg).fault = some f ∧ (cfg.strict = true ∨ ∀ n, f ≠ .lineLimit n)) ∨
      (s.finished = false ∧ ((s.flushed cfg).fault = none ∨
        (cfg.strict = false ∧ ∃ n, (s.flushed cfg).fault = some (.lineLimit n)))) := by
  cases hfin : s.finished with
  | true => exact .inl rfl
  | false =>
    refine .inr ?_
    cases hf : (s.flushed cfg).fault with
    | none => exact .inr ⟨rfl, .inl rfl⟩
    | some f =>
      cases hc : cfg.strict with
      | true => exact .inl ⟨rfl, f, rfl, .inl rfl⟩
      | false =>
        by_cases hn : ∃ n, f = .lineLimit n
        · obtain ⟨n, rfl⟩ := hn
          exact .inr ⟨rfl, .inr ⟨rfl, n, rfl⟩⟩
        · exact .inl ⟨rfl, f, rfl, .inr fun n he ↦ hn ⟨n, he⟩⟩

/-- Closing raises a fault that is not tolerated, or finishes a session. -/
theorem close_ends_or_raises (cfg : Config) (s : Session) :
    (∃ f, (s.close cfg).fault = some f ∧ (cfg.strict = true ∨ ∀ n, f ≠ .lineLimit n)) ∨
      ((s.close cfg).fault = none ∧ (s.close cfg).session.finished = true) := by
  obtain hf | ⟨hf, f, ho, hc⟩ | ⟨hf, hc⟩ := close_cases cfg s
  · rw [close_finished hf]
    exact .inr ⟨rfl, hf⟩
  · rw [close_stopped hf ho hc]
    exact .inl ⟨f, rfl, hc⟩
  · rw [close_done hf hc]
    exact .inr ⟨rfl, rfl⟩

section

variable {c : Command} {ps : Params} {f : Fault}

theorem command_accepted (h : ∀ f, (s.screen.perform c ps).fault = some f → f.isRefusal = false) :
    s.command cfg c ps = s.onScreen (·.perform c ps) := by
  rw [command, onScreen_eq]
  dsimp only
  split
  · simp only [*]
  · rename_i f hf
    simp [h f hf, hf]

theorem not_ofScreen_of_isRefusal (hf : f.isRefusal = true) : ¬f.OfScreen := by
  intro h
  rw [h.not_refusal] at hf
  cases hf

theorem command_refused (h : (s.screen.perform c ps).fault = some f) (hf : f.isRefusal = true)
    (hc : cfg.strict = true ∨ c ≠ .position) : s.command cfg c ps = s.report cfg f := by
  have hs := Screen.perform_refused h (not_ofScreen_of_isRefusal hf)
  rw [command, onScreen_eq]
  dsimp only
  rw [h, hs]
  dsimp only
  rw [if_pos hf, if_neg]
  rintro ⟨hr, hp⟩
  obtain hc | hc := hc
  · rw [report_strict _ hc] at hr
    cases hr
  · exact hc hp

theorem command_row (h : (s.screen.perform .position ps).fault = some f) (hf : f.isRefusal = true)
    (hc : cfg.strict = false) :
    s.command cfg .position ps = ⟨{ s with screen := (s.screen.moveToRow ps).state },
      (s.screen.moveToRow ps).fault, [.tolerated f]⟩ := by
  have hs := Screen.perform_refused h (not_ofScreen_of_isRefusal hf)
  rw [command, onScreen_eq]
  dsimp only
  rw [h, hs]
  dsimp only
  rw [if_pos hf, report_permissive _ hc]
  rfl

theorem command_cases (cfg : Config) (s : Session) (c : Command) (ps : Params) :
    (∀ f, (s.screen.perform c ps).fault = some f → f.isRefusal = false) ∨
      ∃ f, (s.screen.perform c ps).fault = some f ∧ f.isRefusal = true ∧
        ((cfg.strict = true ∨ c ≠ .position) ∨ (cfg.strict = false ∧ c = .position)) := by
  by_cases h : ∃ f, (s.screen.perform c ps).fault = some f ∧ f.isRefusal = true
  · obtain ⟨f, hf, hr⟩ := h
    refine .inr ⟨f, hf, hr, ?_⟩
    by_cases hp : c = .position
    · cases hc : cfg.strict with
      | true => exact .inl (.inl rfl)
      | false => exact .inr ⟨rfl, hp⟩
    · exact .inl (.inr hp)
  · refine .inl fun f hf ↦ ?_
    rw [← Bool.not_eq_true]
    exact fun hr ↦ h ⟨f, hf, hr⟩

end

/-- A sequence is set aside as private, changes the style, means nothing, or is a command. -/
theorem dispatch_cases (cfg : Config) (s : Session) (q : Sequence) :
    (q.isPrivate = true ∧ s.dispatch cfg q = ⟨s, none, [.privateSequence q]⟩) ∨
      (q.isPrivate = false ∧ q.final = 0x6d ∧ s.dispatch cfg q =
        ⟨{ s with style := Rendition.apply cfg.palette q.params s.style }, none,
          .replicate (Rendition.malformedCount cfg.palette (Rendition.values q.params))
            (.malformedColor (Rendition.values q.params))⟩) ∨
      (q.isPrivate = false ∧ q.final ≠ 0x6d ∧ Command.ofByte? q.final = none ∧
        s.dispatch cfg q = s.report cfg (.unknownCommand q.final)) ∨
      (q.isPrivate = false ∧ ∃ c, Command.ofByte? q.final = some c ∧
        s.dispatch cfg q = s.command cfg c q.params) := by
  rw [dispatch]
  cases hp : q.isPrivate with
  | true => exact .inl ⟨rfl, if_pos rfl⟩
  | false =>
    refine .inr ?_
    rw [if_neg (by decide)]
    by_cases hm : q.final = 0x6d
    · rw [if_pos hm]
      exact .inl ⟨rfl, hm, rfl⟩
    · rw [if_neg hm]
      cases hk : Command.ofByte? q.final with
      | none => exact .inr (.inl ⟨rfl, hm, rfl, rfl⟩)
      | some c => exact .inr (.inr ⟨rfl, c, rfl, rfl⟩)

theorem dispatch_command (cfg : Config) (s : Session) {q : Sequence} {c : Command} (hp : q.isPrivate = false)
    (hc : Command.ofByte? q.final = some c) : s.dispatch cfg q = s.command cfg c q.params := by
  obtain ⟨hp', -⟩ | ⟨-, hm, -⟩ | ⟨-, -, hn, -⟩ | ⟨-, c', hc', he⟩ := dispatch_cases cfg s q
  · rw [hp] at hp'
    cases hp'
  · rw [hm] at hc
    cases hc
  · rw [hn] at hc
    cases hc
  · cases hc.symm.trans hc'
    exact he

/-- Nothing but a full screen is settled. -/
theorem settle_cases (cfg : Config) (r : Step) :
    ((∀ n, r.fault ≠ some (.lineLimit n)) ∧ settle cfg r = r) ∨
      ∃ n, r.fault = some (.lineLimit n) ∧
        settle cfg r = ⟨{ r.session with finished := true }, if cfg.strict then some (.lineLimit n) else none,
          r.notes ++ if cfg.strict then [] else [.tolerated (.lineLimit n)]⟩ := by
  by_cases h : ∃ n, r.fault = some (.lineLimit n)
  · obtain ⟨n, hn⟩ := h
    refine .inr ⟨n, hn, ?_⟩
    unfold settle report
    rw [hn]
    cases cfg.strict <;> rfl
  · rw [not_exists] at h
    refine .inl ⟨h, ?_⟩
    rw [settle]
    split
    · rename_i n hn
      exact absurd hn (h n)
    · rfl

theorem settle_session (cfg : Config) (r : Step) :
    (settle cfg r).session = { r.session with finished := (settle cfg r).session.finished } := by
  obtain ⟨-, he⟩ | ⟨n, -, he⟩ := settle_cases cfg r
  · rw [he]
  · rw [he]

theorem push_none (h : s.finished = false) {t : Tokenizer} {b : UInt8}
    (ht : s.tokenizer.next cfg.strict (cfg.maxSequenceLength.map Int.ofNat) b = (t, none)) :
    s.push cfg b = ⟨{ s with tokenizer := t, offset := s.offset + 1 }, none, []⟩ := by
  simp [push, h, ht]

theorem push_token (h : s.finished = false) {t : Tokenizer} {b : UInt8} {token : Token}
    (ht : s.tokenizer.next cfg.strict (cfg.maxSequenceLength.map Int.ofNat) b = (t, some token)) :
    s.push cfg b =
      settle cfg ({ s with tokenizer := t, offset := s.offset + 1 }.perform cfg token) := by
  simp [push, h, ht]

/-- A byte is not taken, is part of something longer, or completes a token. -/
theorem push_cases (cfg : Config) (s : Session) (b : UInt8) :
    (s.finished = true ∧ s.push cfg b = ⟨s, none, []⟩) ∨
      (s.finished = false ∧ ∃ t,
        s.tokenizer.next cfg.strict (cfg.maxSequenceLength.map Int.ofNat) b = (t, none) ∧
        s.push cfg b = ⟨{ s with tokenizer := t, offset := s.offset + 1 }, none, []⟩) ∨
      (s.finished = false ∧ ∃ t token,
        s.tokenizer.next cfg.strict (cfg.maxSequenceLength.map Int.ofNat) b = (t, some token) ∧
        s.push cfg b = settle cfg ({ s with tokenizer := t, offset := s.offset + 1 }.perform cfg token)) := by
  by_cases hf : s.finished = true
  · exact .inl ⟨hf, by simp [push, hf]⟩
  · rw [Bool.not_eq_true] at hf
    obtain ⟨t, _ | token, ht⟩ : ∃ t token,
      s.tokenizer.next cfg.strict (cfg.maxSequenceLength.map Int.ofNat) b = (t, token) := ⟨_, _, rfl⟩
    · exact .inr (.inl ⟨hf, t, ht, push_none hf ht⟩)
    · exact .inr (.inr ⟨hf, t, token, ht, push_token hf ht⟩)

/-- Reads bytes one after the other and goes on behind a fault. -/
def pushAll (cfg : Config) (bs : List UInt8) (s : Session) : Session :=
  bs.foldl (fun s b ↦ (s.push cfg b).session) s

theorem pushAll_append (cfg : Config) (as bs : List UInt8) (s : Session) :
    pushAll cfg (as ++ bs) s = pushAll cfg bs (pushAll cfg as s) := List.foldl_append

theorem pushAll_cons (cfg : Config) (b : UInt8) (bs : List UInt8) (s : Session) :
    pushAll cfg (b :: bs) s = pushAll cfg bs (s.push cfg b).session := rfl

theorem push_finished (h : s.finished = true) (b : UInt8) : s.push cfg b = ⟨s, none, []⟩ := by
  simp [push, h]

theorem feedFrom_finished (h : s.finished = true) (bs : List UInt8) (log : List Note) :
    s.feedFrom cfg bs log = ⟨s, none, log.reverse⟩ := by
  cases bs with
  | nil => rfl
  | cons b bs =>
    rw [feedFrom, push_finished h]
    simp [h]

theorem pushAll_finished (h : s.finished = true) (bs : List UInt8) : pushAll cfg bs s = s := by
  induction bs with
  | nil => rfl
  | cons b bs ih => rw [pushAll_cons, push_finished h, ih]

end Session

end TermCapture
