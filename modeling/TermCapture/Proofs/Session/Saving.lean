import TermCapture.Proofs.Screen.Saving
import TermCapture.Proofs.Session.Actions
import TermCapture.Proofs.Session.Feeding
import TermCapture.Proofs.Session.Skipping

namespace TermCapture

theorem Command.eq_of_ofByte?_save {b : UInt8} (h : ofByte? b = some .save) : b = 0x73 := by
  have hchar : Char.ofNat b.toNat = 's' := by
    unfold ofByte? at h
    split at h <;> cases h
    assumption
  have hbytes : ∀ n < 256, Char.ofNat n = 's' → n = 0x73 := by decide +kernel
  exact UInt8.toNat_inj.mp (hbytes b.toNat b.toNat_lt hchar)

/-- The sequences that save the cursor and put it back. -/
def Sequence.save : Sequence := ⟨[], 0x73, false⟩

def Sequence.restore : Sequence := ⟨[], 0x75, false⟩

namespace Session

variable (cfg : Config) (s : Session)

/-- What a byte completes. -/
def completed (b : UInt8) : Option Token :=
  if s.finished then none else (s.tokenizer.next cfg.strict (cfg.maxSequenceLength.map Int.ofNat) b).2

/-- No byte of a text saves the cursor. -/
def Unsaving : List UInt8 → Session → Prop
  | [], _ => True
  | b :: bs, s => s.completed cfg b ≠ some (.sequence .save) ∧ Unsaving bs (s.push cfg b).session

instance decidableUnsaving : ∀ (bs : List UInt8) (s : Session), Decidable (Unsaving cfg bs s)
  | [], _ => inferInstanceAs (Decidable True)
  | b :: bs, s =>
    have := decidableUnsaving bs (s.push cfg b).session
    inferInstanceAs (Decidable (s.completed cfg b ≠ some (.sequence .save) ∧ _))

def saved : Nat × Nat := s.screen.cursor.saved

theorem saved_report (f : Fault) : (s.report cfg f).session.saved = s.saved := by
  rw [report_session]

theorem saved_put (b : UInt8) : (s.put cfg b).session.saved = s.saved := by
  rw [put_eq]
  exact Screen.saved_writeAll _ _

theorem saved_close : (s.close cfg).session.saved = s.saved := by
  have hflushed : (s.flushed cfg).state.cursor.saved = s.saved := Screen.saved_writeAll _ _
  obtain hf | ⟨hf, f, ho, hc⟩ | ⟨hf, hc⟩ := close_cases cfg s
  · rw [close_finished hf]
    rfl
  · rw [close_stopped hf ho hc]
    exact hflushed
  · rw [close_done hf hc]
    exact hflushed

theorem saved_control (b : UInt8) : (s.control cfg b).session.saved = s.saved := by
  unfold control
  split_ifs
  · rfl
  · exact Screen.saved_act (a := .newline) nofun
  · exact saved_close cfg s
  · cases cfg.controlBytes with
    | ignore => exact saved_report cfg s _
    | blank => exact Screen.saved_act (a := .write ' ' s.style) nofun
    | glyph => exact saved_put cfg s b

theorem saved_command {c : Command} {ps : Params} (h : c ≠ .save ∨ ps ≠ []) :
    (s.command cfg c ps).session.saved = s.saved := by
  obtain hf | ⟨f, hf, hr, hc | ⟨hc, rfl⟩⟩ := command_cases cfg s c ps
  · rw [command_accepted hf]
    refine Screen.saved_act (a := .command c ps) ?_
    rintro ⟨⟩
    simp at h
  · rw [command_refused hf hr hc]
    exact saved_report cfg s f
  · rw [command_row hf hr hc]
    exact Screen.saved_act (a := .row ps) nofun

theorem saved_dispatch {q : Sequence} (h : q ≠ .save) : (s.dispatch cfg q).session.saved = s.saved := by
  obtain ⟨-, he⟩ | ⟨-, -, he⟩ | ⟨-, -, -, he⟩ | ⟨hp, c, hc, he⟩ := dispatch_cases cfg s q
  · rw [he]
  · rw [he]
    rfl
  · rw [he]
    exact saved_report cfg s _
  · rw [he]
    refine saved_command cfg s ?_
    by_cases hsave : c = .save
    · refine .inr fun hps ↦ h ?_
      rw [hsave] at hc
      obtain ⟨ps, final, isPrivate⟩ := q
      obtain rfl : ps = [] := hps
      obtain rfl : isPrivate = false := hp
      obtain rfl : final = 0x73 := Command.eq_of_ofByte?_save hc
      rfl
    · exact .inl hsave

theorem saved_perform {token : Token} (h : token ≠ .sequence .save) :
    (s.perform cfg token).session.saved = s.saved := by
  cases token with
  | byte b =>
    rw [perform]
    split_ifs
    · exact saved_put cfg s b
    · exact saved_control cfg s b
  | sequence q =>
    refine saved_dispatch cfg s ?_
    rintro rfl
    exact h rfl
  | fault f => exact saved_report cfg s f

/-- The saved place is that of the cursor behind an accepted save. No other byte changes it. -/
theorem saved_push (b : UInt8) :
    (s.push cfg b).session.saved =
      if s.completed cfg b = some (.sequence .save) then s.screen.cursor.place else s.saved := by
  obtain ⟨hf, he⟩ | ⟨hf, t, ht, he⟩ | ⟨hf, t, token, ht, he⟩ := push_cases cfg s b
  · have hcompleted : s.completed cfg b = none := if_pos hf
    rw [he, hcompleted, if_neg nofun]
  · have hcompleted : s.completed cfg b = none := by
      rw [completed, hf, ht]
      rfl
    rw [he, hcompleted, if_neg nofun]
    rfl
  · have hcompleted : s.completed cfg b = some token := by
      rw [completed, hf, ht]
      rfl
    have hsettled : (settle cfg (({ s with tokenizer := t, offset := s.offset + 1 } : Session).perform cfg
        token)).session.saved =
        (({ s with tokenizer := t, offset := s.offset + 1 } : Session).perform cfg token).session.saved := by
      rw [settle_session]
      rfl
    rw [he, hsettled, hcompleted]
    split_ifs with h
    · cases h
      rfl
    · exact saved_perform cfg _ fun htoken ↦ h (congrArg some htoken)

theorem saved_pushAll {bs : List UInt8} (h : Unsaving cfg bs s) : (pushAll cfg bs s).saved = s.saved := by
  induction bs generalizing s with
  | nil => rfl
  | cons b bs ih =>
    obtain ⟨hb, hbs⟩ := h
    rw [pushAll_cons, ih _ hbs, saved_push, if_neg hb]

section

variable {cfg s} (hf : s.finished = false) (ht : s.tokenizer = .ground)

include hf ht

/-- A sequence without a body is always accepted by the parser. -/
theorem feed_bare {final : UInt8} (hfinal : Sequence.continues final = false) :
    s.feed cfg [0x1b, 0x5b, final] =
      settle cfg ((s.moved .ground (s.offset + 3)).perform cfg (.sequence ⟨[], final, false⟩)) := by
  have hescape : s.push cfg 0x1b = _ := push_escape hf ht
  have hintro : (s.moved .escape (s.offset + 1)).push cfg 0x5b = _ := push_introducer hf _
  have hfinish : (s.moved (.body {}) (s.offset + 1 + 1)).push cfg final = _ :=
    push_completes hf {} _ (fun k hk ↦ cfg.maxSequenceLength_pos k hk) hfinal fun _ ↦ .inr rfl
  rw [feed_of_push hescape hf, feed_of_push hintro hf, feed_singleton, hfinish]
  rfl

theorem feed_save : s.feed cfg [0x1b, 0x5b, 0x73] =
    ⟨{ s with tokenizer := .ground, offset := s.offset + 3, screen := s.screen.saveCursor }, none,
      [.parsed .save]⟩ := by
  rw [feed_bare hf ht (by decide), settle_of_none rfl]
  rfl

theorem feed_restore (h : ∀ n, s.screen.restoreCursor.fault ≠ some (.lineLimit n)) :
    s.feed cfg [0x1b, 0x5b, 0x75] =
      ⟨{ s with tokenizer := .ground, offset := s.offset + 3, screen := s.screen.restoreCursor.state },
        s.screen.restoreCursor.fault, [.parsed .restore]⟩ := by
  let m := s.moved .ground (s.offset + 3)
  have haccepted : ∀ f, (m.screen.perform .restore []).fault = some f → f.isRefusal = false :=
    fun f hf' ↦ (Screen.ofScreen_of_moveTo hf').not_refusal
  have hdispatch : m.dispatch cfg ⟨[], 0x75, false⟩ =
      ⟨{ m with screen := s.screen.restoreCursor.state }, s.screen.restoreCursor.fault, []⟩ := by
    rw [dispatch_command (c := .restore) cfg m rfl rfl, command_accepted haccepted, onScreen_eq]
    rfl
  have htoken : m.perform cfg (.sequence ⟨[], 0x75, false⟩) =
      ⟨{ m with screen := s.screen.restoreCursor.state }, s.screen.restoreCursor.fault, [.parsed .restore]⟩ := by
    rw [perform, hdispatch]
    rfl
  rw [feed_bare hf ht (by decide), htoken, settle_of_ne h]
  rfl

end

/-- The cursor is put back to where it was saved, whatever the bytes in between do to the screen, and its line exists
then. Nothing but an accepted save changes the saved place. The states are those that bytes lead to: a session is over
once it has been closed, also where the fault that closing raised has left it unfinished. In such a state the cursor is on
a line, unless a line limit has been exceeded that has too many digits to be named. -/
theorem save_restore (cfg : Config) :
    (cfg.NamesLimit → ∀ bs, let s := pushAll cfg bs (start cfg)
      s.finished = false → s.screen.cursor.row < s.screen.lines.size) ∧
    (∀ (s : Session) b, (s.push cfg b).session.saved =
      if s.completed cfg b = some (.sequence .save) then s.screen.cursor.place else s.saved) ∧
    (∀ s : Session, (s.close cfg).session.saved = s.saved) ∧
    ∀ bs between,
      let s := pushAll cfg bs (start cfg)
      let t := pushAll cfg [0x1b, 0x5b, 0x73] s
      let u := pushAll cfg between t
      let r := u.feed cfg [0x1b, 0x5b, 0x75]
      s.finished = false → s.tokenizer = .ground → (∀ n ∈ cfg.maxColumns, s.screen.cursor.column < n) →
      Unsaving cfg between t → u.finished = false → u.tokenizer = .ground →
      t.saved = s.screen.cursor.place ∧ r.session.screen.cursor.place = s.screen.cursor.place ∧
        (∀ n, r.fault ≠ some (.lineLimit n)) ∧ r.notes = [.parsed .restore] ∧ r.session.finished = false ∧
        (s.screen.cursor.row < s.screen.lines.size →
          r.fault = none ∧ r.session.screen.cursor.row < r.session.screen.lines.size) := by
  refine ⟨row_lt_of_namesLimit, saved_push cfg, saved_close cfg, ?_⟩
  intro bs between s t u r hsf hst hcolumn hbetween huf hut
  have hs : cfg.Kept s.screen := pushAll_kept cfg bs
  have hu : cfg.Kept u.screen :=
    ((pushAll_leads cfg s _).trans (pushAll_leads cfg t between)).kept hs
  have hsave : s.feed cfg [0x1b, 0x5b, 0x73] = _ := feed_save hsf hst
  have hfault : (s.feed cfg [0x1b, 0x5b, 0x73]).fault = none := by rw [hsave]
  have ht : t = (s.feed cfg [0x1b, 0x5b, 0x73]).session := (feedFrom_session hfault).symm
  have htsaved : t.saved = s.screen.cursor.place := by
    rw [ht, hsave]
    rfl
  have husaved : u.saved = s.screen.cursor.place := (saved_pushAll cfg t hbetween).trans htsaved
  have hsavedColumn : u.screen.cursor.savedColumn = s.screen.cursor.column := congrArg Prod.fst husaved
  have hsavedRow : u.screen.cursor.savedRow = s.screen.cursor.row := congrArg Prod.snd husaved
  have hwithin : s.screen.cursor.row < s.screen.lines.size →
      ¬∃ n ∈ u.screen.maxLines, n ≤ (u.screen.cursor.savedRow : Int) := by
    rintro hrow ⟨n, hn, hle⟩
    have hlines := hs.lines_le n (hu.maxLines_eq ▸ hn)
    omega
  have hcolumn' : ∀ n ∈ u.screen.maxColumns, (u.screen.cursor.savedColumn : Int) < n := by
    rw [hu.maxColumns_eq, hsavedColumn]
    intro n hn
    obtain ⟨k, hk, rfl⟩ := Option.map_eq_some_iff.mp hn
    exact Int.ofNat_lt.mpr (hcolumn k hk)
  obtain ⟨hplace, hlands⟩ := Screen.restoreCursor_lands hcolumn'
  have hlimit : ∀ n, u.screen.restoreCursor.fault ≠ some (.lineLimit n) := by
    intro n hf
    obtain ⟨hnone, -⟩ | ⟨k, hk, hle, hraised⟩ := hlands
    · cases hnone.symm.trans hf
    -- the limit that is named can be named, and is not exceeded then
    · obtain ⟨-, hw⟩ := Fault.raised_eq_lineLimit_iff.mp (Option.some.inj (hraised.symm.trans hf))
      have hnames : cfg.NamesLimit := Config.namesLimit_of_writable (hu.maxLines_eq ▸ hk) hw
      exact hwithin (row_lt_of_namesLimit hnames bs hsf) ⟨k, hk, hle⟩
  have hr : r = _ := feed_restore huf hut hlimit
  rw [hr]
  refine ⟨htsaved, hplace.trans husaved, hlimit, rfl, huf, fun hrow ↦ ?_⟩
  obtain hline | ⟨n, hn, hle, -⟩ := hlands
  · exact hline
  · exact absurd ⟨n, hn, hle⟩ (hwithin hrow)

/-- A save with a parameter is refused and a private one set aside, then the line of the cursor is deleted and the
display erased. -/
theorem save_restore_of_deleted_line :
    let cfg : Config := { width := 8, strict := false, maxLines := some 2, maxColumns := some 3 }
    let bs : List UInt8 := [0x61, 0x0a, 0x62, 0x63]
    let between : List UInt8 := [0x1b, 0x5b, 0x31, 0x73, 0x1b, 0x5b, 0x3f, 0x73, 0x1b, 0x5b, 0x41, 0x1b, 0x5b, 0x4a,
      0x1b, 0x5b, 0x32, 0x4a, 0x64]
    ∃ t u r, t = pushAll cfg [0x1b, 0x5b, 0x73] (pushAll cfg bs (start cfg)) ∧ u = pushAll cfg between t ∧
      r = u.feed cfg [0x1b, 0x5b, 0x75] ∧ Unsaving cfg between t ∧
      u.screen.cursor.place = (1, 0) ∧ u.screen.lines.size = 1 ∧ r.fault = none ∧
      r.session.screen.cursor.place = (2, 1) ∧ r.session.screen.cursor.row < r.session.screen.lines.size := by
  intro cfg bs between
  have hplace : (pushAll cfg bs (start cfg)).screen.cursor.place = (2, 1) := by decide +kernel
  have hbetween : Unsaving cfg between (pushAll cfg [0x1b, 0x5b, 0x73] (pushAll cfg bs (start cfg))) := by
    decide +kernel
  obtain ⟨honline, -, -, hrestore⟩ := save_restore cfg
  have hnames : cfg.NamesLimit := by
    intro n hn
    obtain rfl : 2 = n := Option.some.inj hn
    decide +kernel
  obtain ⟨-, hback, -, -, -, hline⟩ := hrestore bs between (by decide +kernel) (by decide +kernel) (by decide +kernel)
    hbetween (by decide +kernel) (by decide +kernel)
  obtain ⟨hfault, hrow⟩ := hline (honline hnames bs (by decide +kernel))
  exact ⟨_, _, _, rfl, rfl, rfl, hbetween, by decide +kernel, by decide +kernel, hfault, hback.trans hplace, hrow⟩

end Session

end TermCapture
