import TermCapture.Proofs.Screen.Limits
import TermCapture.Proofs.Session.Closing

namespace TermCapture

namespace Screen

variable {s : Screen}

/-- The cursor has left the place where a screen begins. Nothing that is written leads back there. -/
def Begun (s : Screen) : Prop := 0 < s.cursor.column ∨ 0 < s.cursor.row

theorem write_begun (h : s.Begun ∨ (s.cursor.column = 0 ∧ ∀ n ∈ s.maxLines, (s.cursor.row : Int) < n)) (c : Char)
    (a : Style) : (s.write c a).state.Begun := by
  have hstays : ∀ t : Screen, t.cursor = s.cursor → s.Begun → t.Begun := by
    intro t ht hs
    rwa [Begun, ht]
  rw [write]
  obtain ⟨-, he⟩ | ⟨n, hn, hle, he⟩ := s.reach_cases s.cursor.row
  · rw [he]
    dsimp only [Outcome.andThen]
    split_ifs with hfar
    · -- at the left edge there are no blanks to ask for
      refine hstays _ (cursor_extend _ _) (h.resolve_right fun hedge ↦ ?_)
      rw [TooFar, cursor_extend, hedge.1, Nat.zero_sub] at hfar
      exact absurd hfar (Nat.not_lt_zero _)
    · refine .inr ?_
      rw [newline, cursor_moveTo]
      exact Nat.succ_pos _
    · exact .inl (Nat.succ_pos _)
  · rw [he]
    exact h.resolve_right fun hroom ↦ absurd (hroom.2 n hn) (Int.not_lt.mpr hle)

theorem writeAll_begun (h : s.Begun) (a : Style) (cs : List Char) : (writeAll a cs s).state.Begun := by
  induction cs generalizing s with
  | nil => exact h
  | cons c cs ih => exact Outcome.andThen_state (write_begun (.inl h) c a) fun _ ↦ ih

end Screen

/-- Reads a text with a charset that holds what an earlier text has left in it. -/
def Config.decodeBehind (cfg : Config) (pending : Option Utf8.Pending) (bs : List UInt8) : Step :=
  { Session.start cfg with pending := pending }.read cfg bs

/-- A full screen stops the text at a byte that leaves a character incomplete. -/
def Config.CutsCharacter (cfg : Config) (bs : List UInt8) : Prop :=
  ∃ before b, before ++ [b] <+: bs ∧
    let r := (Session.start cfg).feed cfg before
    r.fault = none ∧ r.session.finished = false ∧
      (r.session.push cfg b).HitsLimit ∧ (r.session.push cfg b).session.pending ≠ none

namespace Session

variable {cfg : Config} {s : Session} {bs : List UInt8}

theorem close_pending_of_open (h : s.finished = false) : (s.close cfg).session.pending = none := by
  obtain hf | ⟨hf, f, ho, hc⟩ | ⟨hf, hc⟩ := close_cases cfg s
  · rw [h] at hf
    cases hf
  · rw [close_stopped hf ho hc]
    rfl
  · rw [close_done hf hc]
    rfl

/-- Only the end marker finishes a session without a fault. -/
theorem perform_finished (cfg : Config) (s : Session) (token : Token) :
    (s.perform cfg token).session.finished = s.finished ∨
      (s.perform cfg token).session = (s.close cfg).session := by
  cases token with
  | byte b =>
    simp only [perform, control]
    split_ifs
    · exact .inl rfl
    · exact .inl rfl
    · exact .inl rfl
    · exact .inr rfl
    · cases cfg.controlBytes with
      | ignore => exact .inl (by rw [report_session])
      | blank | glyph => exact .inl rfl
  | sequence q => exact .inl (dispatch_inner cfg s q).finished_eq
  | fault f => exact .inl (by rw [perform, report_session])

/-- A byte that finishes a session meets the line limit or leaves nothing of a character. -/
theorem push_finishes {b : UInt8} (hf : s.finished = false) (h : (s.push cfg b).session.finished = true) :
    (s.push cfg b).HitsLimit ∨ (s.push cfg b).session.pending = none := by
  obtain ⟨hf', -⟩ | ⟨-, t, -, he⟩ | ⟨-, t, token, -, he⟩ := push_cases cfg s b
  · rw [hf] at hf'
    cases hf'
  · rw [he] at h
    cases hf.symm.trans h
  · rw [he] at h ⊢
    obtain ⟨-, he⟩ | ⟨n, -, he⟩ := settle_cases cfg
      ({ s with tokenizer := t, offset := s.offset + 1 }.perform cfg token)
    · rw [he] at h ⊢
      obtain hp | hp := perform_finished cfg { s with tokenizer := t, offset := s.offset + 1 } token
      · cases hf.symm.trans (hp.symm.trans h)
      · rw [hp]
        exact .inr (close_pending_of_open hf)
    · rw [he]
      refine .inl ?_
      cases hc : cfg.strict with
      | true => exact .inl ⟨n, rfl⟩
      | false => exact .inr ⟨n, by simp⟩

/-- A session is finished by one of the bytes, and the ones behind it are not read. -/
theorem feed_finishes (hf : s.finished = false) (hn : (s.feed cfg bs).fault = none)
    (h : (s.feed cfg bs).session.finished = true) :
    ∃ before b, before ++ [b] <+: bs ∧ (s.feed cfg before).fault = none ∧
      (s.feed cfg before).session.finished = false ∧
      (s.feed cfg bs).session = ((s.feed cfg before).session.push cfg b).session := by
  induction bs generalizing s with
  | nil => cases hf.symm.trans h
  | cons b bs ih =>
    rw [feed_cons] at hn h ⊢
    have hpush : (s.push cfg b).fault = none := Step.fault_of_andThen hn
    cases hb : (s.push cfg b).session.finished with
    | true =>
      rw [Step.andThen_of_finished hb]
      exact ⟨[], b, by simp, rfl, hf, rfl⟩
    | false =>
      rw [Step.andThen_of_open hpush hb] at hn h ⊢
      obtain ⟨before, c, hp, hfault, hopen, he⟩ := ih hb hn h
      have hfeed : s.feed cfg (b :: before) = _ := feed_cons cfg s b before
      rw [Step.andThen_of_open hpush hb] at hfeed
      refine ⟨b :: before, c, List.cons_prefix_cons.mpr ⟨rfl, hp⟩, ?_, ?_, ?_⟩
      · rw [hfeed]
        exact hfault
      · rw [hfeed]
        exact hopen
      · rw [hfeed]
        exact he

theorem feed_stopped {before : List UInt8} {b : UInt8} (hp : before ++ [b] <+: bs)
    (hn : (s.feed cfg before).fault = none) (ho : (s.feed cfg before).session.finished = false)
    (h : ((s.feed cfg before).session.push cfg b).session.finished = true) :
    (s.feed cfg bs).session = ((s.feed cfg before).session.push cfg b).session := by
  obtain ⟨rest, rfl⟩ := hp
  have hfeed : (s.feed cfg (before ++ [b])).session = ((s.feed cfg before).session.push cfg b).session := by
    rw [feed_append, Step.andThen_of_open hn ho, feed_singleton]
  rw [feed_append, Step.andThen_of_finished (by rw [hfeed, h]), hfeed]

theorem decode_session (h : (cfg.decode bs).fault = none) :
    ((start cfg).feed cfg bs).fault = none ∧
      (cfg.decode bs).session = (((start cfg).feed cfg bs).session.close cfg).session := by
  unfold Config.decode read at h ⊢
  dsimp only at h ⊢
  split at h
  · cases h
  · rename_i hn
    rw [hn]
    exact ⟨rfl, rfl⟩

theorem pending_decode_iff (h : (cfg.decode bs).fault = none) :
    (cfg.decode bs).session.pending = none ↔ ¬cfg.CutsCharacter bs := by
  obtain ⟨hn, he⟩ := decode_session h
  rw [he]
  constructor
  · rintro hp ⟨before, b, hb, hfault, hopen, hlimit, hpending⟩
    have hfinished := push_hitsLimit hlimit
    have hfeed := feed_stopped hb hfault hopen hfinished
    rw [hfeed, close_finished hfinished] at hp
    exact hpending hp
  · intro hcut
    cases hf : ((start cfg).feed cfg bs).session.finished with
    | false => exact close_pending_of_open hf
    | true =>
      obtain ⟨before, b, hb, hfault, hopen, hfeed⟩ := feed_finishes rfl hn hf
      rw [close_finished hf, hfeed]
      obtain hlimit | hp := push_finishes hopen (hfeed ▸ hf)
      · cases hp : (((start cfg).feed cfg before).session.push cfg b).session.pending with
        | none => rfl
        | some q => exact absurd ⟨before, b, hb, hfault, hopen, hlimit, by simp [hp]⟩ hcut
      · exact hp

theorem charset_of_pending (h : (cfg.decode bs).fault = none) {q : Utf8.Pending}
    (hq : (cfg.decode bs).session.pending = some q) : cfg.charset = .utf8 := by
  obtain ⟨hn, he⟩ := decode_session h
  have hpushed : ((start cfg).feed cfg bs).session = pushAll cfg bs (start cfg) := feedFrom_session hn
  rw [he] at hq
  obtain hp | hp := close_pending cfg ((start cfg).feed cfg bs).session
  · rw [hpushed] at hp
    obtain ⟨hc, -⟩ := pushAll_pending cfg bs (hp.symm.trans (hpushed ▸ hq))
    exact hc
  · cases hp.symm.trans hq

/-- In an empty text, what is left of a character is replaced. -/
theorem decodeBehind_nil (hc : cfg.charset = .utf8) (pending : Option Utf8.Pending) :
    (cfg.decodeBehind pending []).session.screen =
      (Screen.writeAll {} (Utf8.flush pending) (start cfg).screen).state := by
  have hclose := @close_outcome cfg { start cfg with pending := pending } rfl
  have hscreen := congrArg (fun o ↦ o.2.1) hclose
  dsimp only [Step.outcome, flushed] at hscreen
  rw [hc] at hscreen
  exact hscreen

theorem decodeBehind_ne (hc : cfg.charset = .utf8) (q : Utf8.Pending) :
    (cfg.decodeBehind (some q) []).session.screen ≠ (cfg.decode []).session.screen := by
  have hfresh : (cfg.decode []).session.screen = (start cfg).screen := decodeBehind_nil hc none
  have hfirst : ∀ c, ((start cfg).screen.write c {}).state.Begun := by
    intro c
    refine Screen.write_begun (.inr ⟨rfl, fun n hn ↦ ?_⟩) c {}
    obtain ⟨k, hk, rfl⟩ := Option.map_eq_some_iff.mp hn
    exact Int.natCast_pos.mpr (cfg.maxLines_pos k hk)
  have hbegun : (cfg.decodeBehind (some q) []).session.screen.Begun := by
    rw [decodeBehind_nil hc (some q)]
    cases q with
    | lacking | surrogateLead | surrogate =>
      exact Outcome.andThen_state (hfirst _) fun _ h ↦ Screen.writeAll_begun h _ _
  rw [hfresh]
  intro he
  rw [he] at hbegun
  obtain h | h := hbegun <;> cases h

/-- A text leaves nothing in the charset, and a later one is read as with a charset of its own, unless a full
screen cuts a character. -/
theorem decodeBehind_eq_iff (h : (cfg.decode bs).fault = none) :
    ((cfg.decode bs).session.pending = none ↔ ¬cfg.CutsCharacter bs) ∧
    ((∀ cs, cfg.decodeBehind (cfg.decode bs).session.pending cs = cfg.decode cs) ↔
      ¬cfg.CutsCharacter bs) := by
  refine ⟨pending_decode_iff h, ?_⟩
  rw [← pending_decode_iff h]
  constructor
  · intro hsame
    cases hp : (cfg.decode bs).session.pending with
    | none => rfl
    | some q =>
      have hscreen := congrArg (fun r ↦ r.session.screen) (hsame [])
      rw [hp] at hscreen
      exact absurd hscreen (decodeBehind_ne (charset_of_pending h hp) q)
  · intro hp cs
    rw [hp]
    rfl

/-- The end marker stands inside a character, which is written behind a full line. -/
theorem decodeBehind_eq_of_endMarker :
    let cfg : Config := { width := 2, maxLines := some 2 }
    let bs : List UInt8 := [0x41, 0x42, 0xc3, 0x1a, 0xa9]
    (cfg.decode bs).fault = none ∧ ¬cfg.CutsCharacter bs ∧
      ∀ cs, cfg.decodeBehind (cfg.decode bs).session.pending cs = cfg.decode cs := by
  intro cfg bs
  have hfault : (cfg.decode bs).fault = none := by decide +kernel
  have hpending : (cfg.decode bs).session.pending = none := by decide +kernel
  obtain ⟨hleft, hsame⟩ := decodeBehind_eq_iff hfault
  have hcut := hleft.mp hpending
  exact ⟨hfault, hcut, hsame.mpr hcut⟩

/-- On a screen of one line, a newline ends a text in the middle of a character. The next text completes it. -/
theorem decodeBehind_completes_character :
    let cfg : Config := { maxLines := some 1 }
    let r := cfg.decode [0xc3, 0x0a]
    r.fault = none ∧ r.session.pending ≠ none ∧
      (cfg.decodeBehind r.session.pending [0xa9]).session.screen.text = "é" ∧
      (cfg.decode [0xa9]).session.screen.text = "\ufffd" := by
  decide +kernel

end Session

end TermCapture
