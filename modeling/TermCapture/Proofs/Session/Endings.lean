import TermCapture.Proofs.Session.Steps

namespace TermCapture

/-- What can be asked of a session from outside. -/
inductive Call
  | push (b : UInt8)
  | feed (bs : List UInt8)
  | close

/-- Whether the session takes more, which closing does not tell. -/
def Call.answer : Call → Session → Option Bool
  | .push _, s => some !s.finished
  | .feed bs, s => some (Session.wantsMore bs s)
  | .close, _ => none

def Step.HitsLimit (r : Step) : Prop :=
  (∃ n, r.fault = some (.lineLimit n)) ∨ ∃ n, Note.tolerated (.lineLimit n) ∈ r.notes

def Step.Quiet (r : Step) : Prop := ∀ n, Note.tolerated (.lineLimit n) ∉ r.notes

theorem Step.quiet_nil (s : Session) (f : Option Fault) : Quiet ⟨s, f, []⟩ := fun _ h ↦ by cases h

namespace Session

def call (cfg : Config) (s : Session) : Call → Step
  | .push b => s.push cfg b
  | .feed bs => s.feed cfg bs
  | .close => s.close cfg

/-- Calls one after the other and goes on behind a fault. -/
def calls (cfg : Config) (cs : List Call) (s : Session) : Session :=
  cs.foldl (fun s c ↦ (s.call cfg c).session) s

/-- A session that is over for good: no later call raises anything, takes a byte or changes what is seen. -/
structure Over (cfg : Config) (s : Session) : Prop where
  finished : s.finished = true
  fault_eq : ∀ cs c, ((calls cfg cs s).call cfg c).fault = none
  answer_ne : ∀ cs c, c ≠ Call.feed [] → c.answer ((calls cfg cs s).call cfg c).session ≠ some true
  screen_eq : ∀ cs, (calls cfg cs s).screen = s.screen
  style_eq : ∀ cs, (calls cfg cs s).style = s.style

variable {cfg : Config} {s : Session}

section

variable (h : s.finished = true)

include h

/-- A finished session stays as it is, but for a sequence that closing drops. -/
theorem call_finished (cfg : Config) (c : Call) :
    (s.call cfg c).fault = none ∧ (s.call cfg c).session.finished = true ∧
      (s.call cfg c).session.screen = s.screen ∧ (s.call cfg c).session.style = s.style := by
  cases c with
  | push b =>
    have hpush : s.call cfg (.push b) = _ := push_finished h b
    rw [hpush]
    exact ⟨rfl, h, rfl, rfl⟩
  | feed bs =>
    have hfeed : s.call cfg (.feed bs) = _ := feedFrom_finished h bs []
    rw [hfeed]
    exact ⟨rfl, h, rfl, rfl⟩
  | close =>
    have hclose : s.call cfg .close = _ := close_finished h
    rw [hclose]
    exact ⟨rfl, h, rfl, rfl⟩

theorem calls_finished (cs : List Call) :
    (calls cfg cs s).finished = true ∧ (calls cfg cs s).screen = s.screen ∧
      (calls cfg cs s).style = s.style := by
  induction cs generalizing s with
  | nil => exact ⟨h, rfl, rfl⟩
  | cons c cs ih =>
    obtain ⟨-, hf, hscreen, hstyle⟩ := call_finished h cfg c
    obtain ⟨hf', hscreen', hstyle'⟩ := ih hf
    exact ⟨hf', hscreen'.trans hscreen, hstyle'.trans hstyle⟩

theorem over_of_finished : s.Over cfg where
  finished := h
  fault_eq cs c := (call_finished (calls_finished h cs).1 cfg c).1
  answer_ne cs c hc := by
    have hf : ((calls cfg cs s).call cfg c).session.finished = true :=
      (call_finished (calls_finished h cs).1 cfg c).2.1
    cases c with
    | push b => simp [Call.answer, hf]
    | feed bs =>
      have hbs : bs ≠ [] := by
        rintro rfl
        exact hc rfl
      simp [Call.answer, wantsMore, hf, hbs]
    | close => simp [Call.answer]
  screen_eq cs := (calls_finished h cs).2.1
  style_eq cs := (calls_finished h cs).2.2

end

theorem report_quiet (s : Session) {f : Fault} (hf : ∀ n, f ≠ .lineLimit n) : (s.report cfg f).Quiet := by
  intro n h
  rw [report] at h
  split at h
  · cases h
  · rw [List.mem_singleton] at h
    cases h
    exact hf n rfl

theorem command_quiet (s : Session) (c : Command) (ps : Params) : (s.command cfg c ps).Quiet := by
  have hrefusal : ∀ {f : Fault}, f.isRefusal = true → ∀ n, f ≠ .lineLimit n := by
    rintro f hf n rfl
    cases hf
  obtain hf | ⟨f, hf, hr, hc | ⟨hc, rfl⟩⟩ := command_cases cfg s c ps
  · rw [command_accepted hf]
    exact Step.quiet_nil _ _
  · rw [command_refused hf hr hc]
    exact report_quiet s (hrefusal hr)
  · rw [command_row hf hr hc]
    intro n h
    rw [List.mem_singleton] at h
    cases h
    exact hrefusal hr n rfl

theorem dispatch_quiet (s : Session) (q : Sequence) : (s.dispatch cfg q).Quiet := by
  obtain ⟨-, he⟩ | ⟨-, -, he⟩ | ⟨-, -, -, he⟩ | ⟨-, c, -, he⟩ := dispatch_cases cfg s q
  · rw [he]
    intro n h
    rw [List.mem_singleton] at h
    cases h
  · rw [he]
    intro n h
    cases (List.mem_replicate.mp h).2
  · rw [he]
    exact report_quiet s (by simp)
  · rw [he]
    exact command_quiet s c _

theorem close_quiet (cfg : Config) (s : Session) :
    (s.close cfg).Quiet ∨ (s.close cfg).session.finished = true := by
  obtain hf | ⟨hf, f, ho, hc⟩ | ⟨hf, hc⟩ := close_cases cfg s
  · rw [close_finished hf]
    exact .inr hf
  · refine .inl fun n h ↦ ?_
    rw [close_stopped hf ho hc] at h
    rw [cutNotes] at h
    dsimp only at h
    split at h
    · cases h
    · rw [List.mem_singleton] at h
      cases h
  · rw [close_done hf hc]
    exact .inr rfl

theorem control_quiet (cfg : Config) (s : Session) (b : UInt8) :
    (s.control cfg b).Quiet ∨ (s.control cfg b).session.finished = true := by
  rw [control]
  split_ifs
  · exact .inl (Step.quiet_nil _ _)
  · exact .inl (Step.quiet_nil _ _)
  · refine (close_quiet cfg s).imp_left fun hq n h ↦ ?_
    obtain h | h := List.mem_cons.mp h
    · cases h
    · exact hq n h
  · cases cfg.controlBytes with
    | ignore => exact .inl (report_quiet s (by simp))
    | blank | glyph => exact .inl (Step.quiet_nil _ _)

/-- The end marker is the only token whose performance notes the line limit. -/
theorem perform_quiet (s : Session) {t : Token} (ht : ∀ n, t ≠ .fault (.lineLimit n)) :
    (s.perform cfg t).Quiet ∨ (s.perform cfg t).session.finished = true := by
  cases t with
  | byte b =>
    simp only [perform]
    split
    · exact .inl (Step.quiet_nil _ _)
    · exact control_quiet cfg s b
  | sequence q =>
    refine .inl fun n h ↦ ?_
    obtain h | h := List.mem_cons.mp h
    · cases h
    · exact dispatch_quiet s q n h
  | fault f =>
    refine .inl (report_quiet s fun n hf ↦ ?_)
    exact ht n (by rw [hf])

theorem push_hitsLimit {b : UInt8} (h : (s.push cfg b).HitsLimit) :
    (s.push cfg b).session.finished = true := by
  obtain ⟨hf, he⟩ | ⟨-, t, -, he⟩ | ⟨-, t, token, ht, he⟩ := push_cases cfg s b
  · rw [he]
    exact hf
  · rw [he] at h
    obtain ⟨n, h⟩ | ⟨n, h⟩ := h <;> cases h
  · rw [he] at h ⊢
    obtain ⟨hn, he⟩ | ⟨n, -, he⟩ := settle_cases cfg
      ({ s with tokenizer := t, offset := s.offset + 1 }.perform cfg token)
    · rw [he] at h ⊢
      obtain ⟨n, h⟩ | ⟨n, h⟩ := h
      · exact absurd h (hn n)
      · refine (perform_quiet _ fun m hm ↦ ?_).resolve_left fun hq ↦ hq n h
        subst hm
        obtain ⟨_, hf⟩ | ⟨_, hf⟩ | ⟨_, hf⟩ := Tokenizer.next_fault ht <;> cases hf
    · rw [he]

theorem feedFrom_hitsLimit {bs : List UInt8} {log : List Note}
    (hlog : ∀ n, Note.tolerated (.lineLimit n) ∉ log) (h : (s.feedFrom cfg bs log).HitsLimit) :
    (s.feedFrom cfg bs log).session.finished = true := by
  -- the log holds the notes of earlier bytes, none of which met the limit
  induction bs generalizing s log with
  | nil =>
    obtain ⟨n, h⟩ | ⟨n, h⟩ := h
    · cases h
    · exact absurd (List.mem_reverse.mp h) (hlog n)
  | cons b bs ih =>
    have hmem : ∀ {n}, Note.tolerated (.lineLimit n) ∈ (s.push cfg b).notes.reverseAux log →
        (s.push cfg b).session.finished = true := by
      intro n hn
      rw [List.reverseAux_eq, List.mem_append, List.mem_reverse] at hn
      exact push_hitsLimit (.inr ⟨n, hn.resolve_right (hlog n)⟩)
    unfold feedFrom at h ⊢
    dsimp only at h ⊢
    split at h
    · rename_i hstop
      rw [if_pos hstop]
      obtain ⟨n, h⟩ | ⟨n, h⟩ := h
      · exact push_hitsLimit (.inl ⟨n, h⟩)
      · exact hmem (List.mem_reverse.mp h)
    · rename_i hgo
      rw [if_neg hgo]
      refine ih (fun n hn ↦ ?_) h
      simp [hmem hn] at hgo

/-- Closing that meets the limit ends a session, unless a strict one has no room for what is cut short. -/
theorem close_hitsLimit (h : (s.close cfg).HitsLimit)
    (hc : ¬(cfg.strict = true ∧ s.finished = false ∧ ∃ n, (s.flushed cfg).fault = some (.lineLimit n))) :
    (s.close cfg).session.finished = true := by
  obtain hf | ⟨hf, f, ho, hs⟩ | ⟨hf, hs⟩ := close_cases cfg s
  · rw [close_finished hf]
    exact hf
  · obtain hq | hfinished := close_quiet cfg s
    · obtain ⟨n, hn⟩ | ⟨n, hn⟩ := h
      · rw [close_stopped hf ho hs] at hn
        cases hn
        exact absurd ⟨hs.resolve_right fun h ↦ h n rfl, hf, n, ho⟩ hc
      · exact absurd hn (hq n)
    · exact hfinished
  · rw [close_done hf hs]

/-- The call at which a session meets the line limit ends it for good, and the only one that does not is
a strict session's closing, where a character that is cut short does not fit. -/
theorem over_of_hitsLimit_iff (cfg : Config) (cs : List Call) (c : Call) :
    let s := calls cfg cs (start cfg)
    ((s.call cfg c).HitsLimit → (s.call cfg c).session.Over cfg) ↔
      ¬(c = .close ∧ cfg.strict = true ∧ s.finished = false ∧
        ∃ n, (s.flushed cfg).fault = some (.lineLimit n)) := by
  intro s
  refine ⟨?_, fun hc h ↦ over_of_finished ?_⟩
  · rintro h ⟨rfl, hs, hf, n, ho⟩
    have hclose : s.call cfg .close = _ := close_stopped hf ho (.inl hs)
    rw [hclose] at h
    have hover := h (.inl ⟨n, rfl⟩)
    exact absurd (hf.symm.trans hover.finished) (by decide)
  · cases c with
    | push b => exact push_hitsLimit h
    | feed bs => exact feedFrom_hitsLimit (by simp) h
    | close => exact close_hitsLimit h fun ho ↦ hc ⟨rfl, ho⟩

/-- On one line of one column, closing in the middle of a character raises the limit. The session goes on, and
erasing a line then looks for one that is not there. -/
theorem strict_close_goes_on :
    let cfg : Config := { width := 1, strict := true, maxLines := some 1 }
    let r := (calls cfg [.push 0xc3] (start cfg)).call cfg .close
    r.HitsLimit ∧ ¬r.session.Over cfg ∧
      ((calls cfg [.feed [0x1b, 0x5b]] r.session).call cfg (.push 0x4b)).fault = some .noSuchLine := by
  intro cfg r
  refine ⟨.inl ⟨1, by decide +kernel⟩, fun h ↦ ?_, by decide +kernel⟩
  have hf : r.session.finished = false := by decide +kernel
  rw [h.finished] at hf
  cases hf

end Session

end TermCapture
