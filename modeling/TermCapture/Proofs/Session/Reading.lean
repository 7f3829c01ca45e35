import TermCapture.Proofs.Session.Breaks

namespace TermCapture.Session

variable {cfg : Config} {s : Session}

/-- A feed that no fault stops leaves what its bytes leave one by one. Those behind the end of the session
leave it as it is. -/
theorem feedFrom_session {bs : List UInt8} {log : List Note} (h : (s.feedFrom cfg bs log).fault = none) :
    (s.feedFrom cfg bs log).session = pushAll cfg bs s := by
  induction bs generalizing s log with
  | nil => rfl
  | cons b bs ih =>
    rw [pushAll_cons]
    unfold feedFrom at h ⊢
    dsimp only at h ⊢
    split at h
    · rename_i hstop
      rw [if_pos hstop]
      dsimp only at h
      rw [h] at hstop
      exact (pushAll_finished (by simpa using hstop) bs).symm
    · rename_i hgo
      rw [if_neg hgo]
      exact ih h

/-- Wherever a feed stops, it leaves what the bytes up to there leave one by one. -/
theorem feedFrom_prefix (cfg : Config) (bs : List UInt8) (s : Session) (log : List Note) :
    ∃ as, as <+: bs ∧ (s.feedFrom cfg bs log).session = pushAll cfg as s := by
  induction bs generalizing s log with
  | nil => exact ⟨[], List.prefix_rfl, rfl⟩
  | cons b bs ih =>
    unfold feedFrom
    dsimp only
    split
    · exact ⟨[b], by simp, rfl⟩
    · obtain ⟨as, hp, h⟩ := ih (s.push cfg b).session ((s.push cfg b).notes.reverseAux log)
      exact ⟨b :: as, List.cons_prefix_cons.mpr ⟨rfl, hp⟩, h⟩

/-- A text leaves what the bytes up to some point leave one by one, possibly closed. -/
theorem decode_cases (cfg : Config) (bs : List UInt8) :
    ∃ as, as <+: bs ∧ ((cfg.decode bs).session = pushAll cfg as (start cfg) ∨
      (cfg.decode bs).session = ((pushAll cfg as (start cfg)).close cfg).session) := by
  obtain ⟨as, hp, h⟩ := feedFrom_prefix cfg bs (start cfg) []
  refine ⟨as, hp, ?_⟩
  rw [← h, Config.decode, read]
  dsimp only
  split
  · exact .inl rfl
  · exact .inr rfl

theorem decode_leads (cfg : Config) (bs : List UInt8) :
    (start cfg).screen.Leads (cfg.decode bs).session.screen := by
  obtain ⟨as, -, he⟩ := decode_cases cfg bs
  have h : (start cfg).screen.Leads (pushAll cfg as (start cfg)).screen := pushAll_leads cfg _ as
  obtain he | he := he
  · rw [he]
    exact h
  · rw [he]
    exact h.trans (close_leads cfg _)

/-- What a text leaves keeps the limits, also where a fault stops it. -/
theorem decode_kept (cfg : Config) (bs : List UInt8) : cfg.Kept (cfg.decode bs).session.screen :=
  (decode_leads cfg bs).kept (start_kept cfg)

theorem feedFrom_bounded (hs : s.Bounded cfg) (bs : List UInt8) (log : List Note) :
    (s.feedFrom cfg bs log).fault ≠ some .noSuchLine ∧
      ((s.feedFrom cfg bs log).fault = none → (s.feedFrom cfg bs log).session.Bounded cfg) := by
  induction bs generalizing s log with
  | nil => exact ⟨nofun, fun _ ↦ hs⟩
  | cons b bs ih =>
    obtain ⟨hline, -, hbounded⟩ := push_safe hs b
    have hnext : (s.push cfg b).fault = none → (s.push cfg b).session.Bounded cfg := by
      intro hf
      exact hbounded fun f hf' ↦ by cases hf.symm.trans hf'
    unfold feedFrom
    dsimp only
    split
    · exact ⟨hline, hnext⟩
    · rename_i hgo
      exact ih (hnext (by simp_all)) _

/-- No text sends a session to a line that is not there. -/
theorem decode_noSuchLine (cfg : Config) (bs : List UInt8) : (cfg.decode bs).fault ≠ some .noSuchLine := by
  obtain ⟨hline, hbounded⟩ := feedFrom_bounded (start_bounded cfg) bs []
  rw [Config.decode, read]
  dsimp only
  split
  · rename_i f hf
    exact fun h ↦ hline (hf.trans h)
  · rename_i hf
    exact (close_safe (hbounded hf)).noSuchLine

/-- What a screen raises is no fault of the input, except that it is full. -/
theorem full_of_ofScreen {f : Fault} (h : f.OfScreen) : f.isOfInput = false ∨ ∃ n, f = .lineLimit n := by
  cases h with
  | lineLimit n => exact .inr ⟨n, rfl⟩
  | wordless | overflow | noSuchLine => exact .inl rfl

section

variable (hc : cfg.strict = false)

include hc

theorem close_tolerant {f : Fault} (h : (s.close cfg).fault = some f) : f.isOfInput = false := by
  obtain hf | ⟨hf, f', ho, hs⟩ | ⟨hf, hs⟩ := close_cases cfg s
  · rw [close_finished hf] at h
    cases h
  · rw [close_stopped hf ho hs] at h
    cases h
    have hn := hs.resolve_left (by simp [hc])
    obtain rfl | ⟨n, rfl⟩ := Screen.writeAll_fault ho
    · rfl
    · obtain he | ⟨-, he⟩ := (Fault.lineLimit n).raised_cases
      · exact absurd he (hn n)
      · rw [he]
        rfl
  · rw [close_done hf hs] at h
    cases h

theorem control_tolerant {b : UInt8} {f : Fault} (h : (s.control cfg b).fault = some f) :
    f.isOfInput = false ∨ ∃ n, f = .lineLimit n := by
  rw [control] at h
  split_ifs at h
  · exact full_of_ofScreen (Screen.ofScreen_of_moveTo h)
  · exact .inl (close_tolerant hc h)
  · cases hb : cfg.controlBytes with
    | ignore =>
      rw [hb] at h
      dsimp only at h
      rw [report_permissive s hc] at h
      cases h
    | blank =>
      rw [hb] at h
      dsimp only at h
      rw [onScreen_eq, ← Screen.writeAll_singleton] at h
      exact full_of_ofScreen (Screen.ofScreen_of_writeAll h)
    | glyph =>
      rw [hb] at h
      exact full_of_ofScreen (Screen.ofScreen_of_writeAll h)

theorem command_tolerant {c : Command} {ps : Params} {f : Fault} (h : (s.command cfg c ps).fault = some f) :
    f.isOfInput = false ∨ ∃ n, f = .lineLimit n := by
  obtain ha | ⟨g, hg, hr, hc' | ⟨-, rfl⟩⟩ := command_cases cfg s c ps
  · rw [command_accepted ha] at h
    obtain ⟨hscreen, -⟩ | ⟨-, -, -, g, -, rfl⟩ := Screen.perform_unrefused h (ha f h)
    · exact full_of_ofScreen hscreen
    · exact .inl rfl
  · rw [command_refused hg hr hc', report_permissive s hc] at h
    cases h
  · rw [command_row hg hr hc] at h
    obtain _ | ⟨v, _ | ⟨w, vs⟩⟩ := ps
    · cases h
    · exact full_of_ofScreen (Screen.ofScreen_of_moveTo h)
    · cases h

theorem dispatch_tolerant {q : Sequence} {f : Fault} (h : (s.dispatch cfg q).fault = some f) :
    f.isOfInput = false ∨ ∃ n, f = .lineLimit n := by
  obtain ⟨-, he⟩ | ⟨-, -, he⟩ | ⟨-, -, -, he⟩ | ⟨-, c, -, he⟩ := dispatch_cases cfg s q
  · rw [he] at h
    cases h
  · rw [he] at h
    cases h
  · rw [he, report_permissive s hc] at h
    cases h
  · rw [he] at h
    exact command_tolerant hc h

/-- What a tolerant session cannot get over is no fault of the input, except that its screen is full. -/
theorem perform_tolerant {t : Token} {f : Fault} (h : (s.perform cfg t).fault = some f) :
    f.isOfInput = false ∨ ∃ n, f = .lineLimit n := by
  cases t with
  | byte b =>
    rw [perform] at h
    split_ifs at h
    · exact full_of_ofScreen (Screen.ofScreen_of_writeAll h)
    · exact control_tolerant hc h
  | sequence q => exact dispatch_tolerant hc (s := s) (q := q) h
  | fault g =>
    rw [perform, report_permissive s hc] at h
    cases h

theorem push_tolerant {b : UInt8} {f : Fault} (h : (s.push cfg b).fault = some f) : f.isOfInput = false := by
  obtain ⟨-, he⟩ | ⟨-, t, -, he⟩ | ⟨-, t, token, -, he⟩ := push_cases cfg s b
  · rw [he] at h
    cases h
  · rw [he] at h
    cases h
  · rw [he] at h
    obtain ⟨hn, he⟩ | ⟨n, -, he⟩ := settle_cases cfg
      ({ s with tokenizer := t, offset := s.offset + 1 }.perform cfg token)
    · rw [he] at h
      refine (perform_tolerant hc h).resolve_right ?_
      rintro ⟨n, rfl⟩
      exact hn n h
    · rw [he, hc] at h
      cases h

/-- Exactly the bytes that break a tolerant session raise a fault. -/
theorem push_tolerant_iff (hs : s.Bounded cfg) (b : UInt8) : (s.push cfg b).fault = none ↔ ¬s.Breaks cfg b := by
  rw [← push_breaks_iff hs b]
  cases hf : (s.push cfg b).fault with
  | none => simp
  | some f => simp [push_tolerant hc hf]

theorem close_tolerant_iff (hs : s.Bounded cfg) : (s.close cfg).fault = none ↔ ¬s.BreaksAtEnd cfg := by
  rw [← close_breaks_iff hs]
  cases hf : (s.close cfg).fault with
  | none => simp
  | some f => simp [close_tolerant hc hf]

theorem feedFrom_tolerant_iff (hs : s.Bounded cfg) (bs : List UInt8) (log : List Note) :
    (s.feedFrom cfg bs log).fault = none ↔ ∀ as b, as ++ [b] <+: bs → ¬(pushAll cfg as s).Breaks cfg b := by
  induction bs generalizing s log with
  | nil => simp [feedFrom]
  | cons b bs ih =>
    have hhead : (∀ as c, as ++ [c] <+: b :: bs → ¬(pushAll cfg as s).Breaks cfg c) ↔
        ¬s.Breaks cfg b ∧ ∀ as c, as ++ [c] <+: bs → ¬(pushAll cfg as (s.push cfg b).session).Breaks cfg c := by
      constructor
      · intro h
        exact ⟨h [] b (by simp), fun as c hp ↦ h (b :: as) c (List.cons_prefix_cons.mpr ⟨rfl, hp⟩)⟩
      · rintro ⟨hb, h⟩ (_ | ⟨a, as⟩) c hp
        · obtain ⟨rfl, -⟩ := List.cons_prefix_cons.mp hp
          exact hb
        · obtain ⟨rfl, hrest⟩ := List.cons_prefix_cons.mp hp
          exact h as c hrest
    rw [hhead, ← push_tolerant_iff hc hs b]
    unfold feedFrom
    dsimp only
    cases hf : (s.push cfg b).fault with
    | some f => simp
    | none =>
      have hbounded := (push_safe hs b).2.2 fun f hf' ↦ by cases hf.symm.trans hf'
      rw [← ih hbounded ((s.push cfg b).notes.reverseAux log)]
      cases hend : (s.push cfg b).session.finished with
      | false => simp
      | true =>
        rw [feedFrom_finished hend]
        simp

/-- A tolerant session reads a text to its end exactly where neither a byte nor the end breaks it. -/
theorem decode_tolerant_iff (bs : List UInt8) :
    (cfg.decode bs).fault = none ↔
      (∀ as b, as ++ [b] <+: bs → ¬(pushAll cfg as (start cfg)).Breaks cfg b) ∧
        ¬(pushAll cfg bs (start cfg)).BreaksAtEnd cfg := by
  rw [← feedFrom_tolerant_iff hc (start_bounded cfg) bs [], Config.decode, read, feed]
  dsimp only
  cases hf : ((start cfg).feedFrom cfg bs []).fault with
  | some f => simp
  | none =>
    have hbounded := (feedFrom_bounded (start_bounded cfg) bs []).2 hf
    rw [← feedFrom_session hf, ← close_tolerant_iff hc hbounded]
    simp

theorem feedFrom_tolerant {bs : List UInt8} {log : List Note} {f : Fault}
    (h : (s.feedFrom cfg bs log).fault = some f) : f.isOfInput = false := by
  induction bs generalizing s log with
  | nil => cases h
  | cons b bs ih =>
    unfold feedFrom at h
    dsimp only at h
    split at h
    · exact push_tolerant hc h
    · exact ih h

theorem decode_tolerant {bs : List UInt8} {f : Fault} (h : (cfg.decode bs).fault = some f) :
    f.isOfInput = false := by
  rw [Config.decode, read] at h
  dsimp only at h
  split at h
  · rename_i f' hf'
    cases h
    exact feedFrom_tolerant hc hf'
  · exact close_tolerant hc h

end

theorem session_of_decode {bs : List UInt8} (h : (cfg.decode bs).fault = none) :
    (cfg.decode bs).session = ((pushAll cfg bs (start cfg)).close cfg).session := by
  rw [Config.decode, read] at h ⊢
  dsimp only at h ⊢
  split at h
  · cases h
  · rename_i hf
    exact congrArg (fun s ↦ (close cfg s).session) (feedFrom_session hf)

end TermCapture.Session
