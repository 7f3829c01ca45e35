import TermCapture.Proofs.Screen.Keeping
import TermCapture.Proofs.Session.Bounds
import TermCapture.Convert

namespace TermCapture

/-- Some actions, one after the other, lead from a screen to another. -/
def Screen.Leads (s t : Screen) : Prop := ∃ as, s.actAll as = t

namespace Screen.Leads

variable {s t u : Screen}

theorem refl (s : Screen) : s.Leads s := ⟨[], rfl⟩

theorem trans (h : s.Leads t) (h' : t.Leads u) : s.Leads u := by
  obtain ⟨as, rfl⟩ := h
  obtain ⟨bs, rfl⟩ := h'
  exact ⟨as ++ bs, List.foldl_append⟩

theorem act (s : Screen) (a : Action) : s.Leads (s.act a).state := ⟨[a], rfl⟩

theorem writeAll (a : Style) (cs : List Char) (s : Screen) : s.Leads (Screen.writeAll a cs s).state := by
  induction cs generalizing s with
  | nil => exact refl s
  | cons c cs ih =>
    have hwrite : s.Leads (s.write c a).state := act s (.write c a)
    exact Outcome.andThen_state hwrite fun t h ↦ h.trans (ih t)

theorem kept {w : Nat} {L C : Option Int} (h : s.Leads t) (hs : Kept w L C s) : Kept w L C t := by
  obtain ⟨as, rfl⟩ := h
  induction as generalizing s with
  | nil => exact hs
  | cons a as ih => exact ih (hs.act a)

end Screen.Leads

abbrev Config.Kept (cfg : Config) : Screen → Prop :=
  Screen.Kept cfg.width (cfg.maxLines.map Int.ofNat) (cfg.maxColumns.map Int.ofNat)

namespace Session

variable (cfg : Config) (s : Session)

theorem close_leads : s.screen.Leads (s.close cfg).session.screen := by
  have hflushed : s.screen.Leads (s.flushed cfg).state := .writeAll _ _ _
  obtain hf | ⟨hf, f, ho, hc⟩ | ⟨hf, hc⟩ := close_cases cfg s
  · rw [close_finished hf]
    exact .refl _
  · rw [close_stopped hf ho hc]
    exact hflushed
  · rw [close_done hf hc]
    exact hflushed

theorem command_leads (c : Command) (ps : Params) : s.screen.Leads (s.command cfg c ps).session.screen := by
  obtain hf | ⟨f, hf, hr, hc | ⟨hc, rfl⟩⟩ := command_cases cfg s c ps
  · rw [command_accepted hf]
    exact .act s.screen (.command c ps)
  · rw [command_refused hf hr hc, report_session]
    exact .refl _
  · rw [command_row hf hr hc]
    exact .act s.screen (.row ps)

theorem dispatch_leads (q : Sequence) : s.screen.Leads (s.dispatch cfg q).session.screen := by
  obtain ⟨-, he⟩ | ⟨-, -, he⟩ | ⟨-, -, -, he⟩ | ⟨-, c, -, he⟩ := dispatch_cases cfg s q
  · rw [he]
    exact .refl _
  · rw [he]
    exact .refl _
  · rw [he, report_session]
    exact .refl _
  · rw [he]
    exact command_leads cfg s c _

theorem perform_leads (t : Token) : s.screen.Leads (s.perform cfg t).session.screen := by
  cases t with
  | byte b =>
    simp only [perform, control]
    split_ifs
    · exact .writeAll _ _ _
    · exact .refl _
    · exact .act s.screen .newline
    · exact close_leads cfg s
    · cases cfg.controlBytes with
      | ignore =>
        dsimp only
        rw [report_session]
        exact .refl _
      | blank => exact .act s.screen (.write ' ' s.style)
      | glyph => exact .writeAll _ _ _
  | sequence q => exact dispatch_leads cfg s q
  | fault f =>
    rw [perform, report_session]
    exact .refl _

theorem push_leads (b : UInt8) : s.screen.Leads (s.push cfg b).session.screen := by
  obtain ⟨-, he⟩ | ⟨-, t, -, he⟩ | ⟨-, t, token, -, he⟩ := push_cases cfg s b
  · rw [he]
    exact .refl _
  · rw [he]
    exact .refl _
  · rw [he, settle_session]
    exact perform_leads cfg { s with tokenizer := t, offset := s.offset + 1 } token

/-- Bytes do nothing to a screen but actions. -/
theorem pushAll_leads (bs : List UInt8) : s.screen.Leads (pushAll cfg bs s).screen := by
  induction bs generalizing s with
  | nil => exact .refl _
  | cons b bs ih => exact (push_leads cfg s b).trans (ih _)

theorem start_kept : cfg.Kept (start cfg).screen := ((start_bounded cfg).ready rfl).kept

theorem pushAll_kept (bs : List UInt8) : cfg.Kept (pushAll cfg bs (start cfg)).screen :=
  (pushAll_leads cfg _ bs).kept (start_kept cfg)

end Session

end TermCapture
