import TermCapture.Proofs.Session.Steps

namespace TermCapture

namespace Tokenizer

/-- A byte that completes anything ends the sequence it belongs to, but for the rest of one that is too long. -/
theorem next_completes {strict : Bool} {maxLength : Option Int} {t t' : Tokenizer} {b : UInt8} {token : Token}
    (h : t.next strict maxLength b = (t', some token)) :
    (t' = .ground ∧ ∀ f, token ≠ .fault f) ∨ ∃ f, token = .fault f ∧ t' = behindRefusal f b := by
  cases t with
  | ground =>
    rw [next_ground] at h
    split at h
    · simp at h
    · simp only [Prod.mk.injEq, Option.some.injEq] at h
      obtain ⟨rfl, rfl⟩ := h
      exact .inl ⟨rfl, by simp⟩
  | escape =>
    rw [next_escape] at h
    split at h
    · simp at h
    · simp only [Prod.mk.injEq, Option.some.injEq] at h
      obtain ⟨rfl, rfl⟩ := h
      exact .inr ⟨_, rfl, rfl⟩
  | body p =>
    rw [next_body] at h
    split at h
    · simp at h
    · simp only [Prod.mk.injEq, Option.some.injEq] at h
      obtain ⟨rfl, rfl⟩ := h
      exact .inl ⟨rfl, by simp⟩
    · simp only [Prod.mk.injEq, Option.some.injEq] at h
      obtain ⟨rfl, rfl⟩ := h
      exact .inr ⟨_, rfl, rfl⟩
  | discard =>
    simp [next_discard] at h

end Tokenizer

/-- The faults that a byte or a sequence meets by what it asks for. -/
inductive Fault.OfRequest : Fault → Prop
  | control (b : UInt8) : OfRequest (.unknownControl b)
  | command (b : UInt8) : OfRequest (.unknownCommand b)
  | params {f : Fault} (h : f.isRefusal = true) : OfRequest f
  | digits {f : Fault} (h : f.isRefusal = true) : OfRequest (.wordless f)

theorem Fault.OfRequest.ne_sequenceTooLong {f : Fault} (h : f.OfRequest) (n : Int) : f ≠ .sequenceTooLong n := by
  rintro rfl
  cases h with
  | params h => simp [isRefusal] at h

/-- A step that raises a fault of the screen, or a refused request that has changed nothing. -/
def Step.Rejects (r : Step) (s : Session) : Prop :=
  ∀ f, r.fault = some f → f.OfScreen ∨ (f.OfRequest ∧ r.session = s)

namespace Session

variable {cfg : Config} {s : Session}

theorem onScreen_rejects {o : Screen → Outcome Screen} (h : ∀ f, (o s.screen).fault = some f → f.OfScreen)
    (s' : Session) : (s.onScreen o).Rejects s' := by
  intro f hf
  exact .inl (h f hf)

theorem report_rejects (s : Session) {f : Fault} (h : f.OfRequest) : (s.report cfg f).Rejects s := by
  intro f' hf
  have hsession := report_session cfg s f
  unfold report at hf
  split at hf
  · simp only [Option.some.injEq] at hf
    exact .inr ⟨hf ▸ h, hsession⟩
  · simp at hf

theorem put_rejects (s : Session) (b : UInt8) : (s.put cfg b).Rejects s := by
  rw [put_eq]
  exact onScreen_rejects (fun f ↦ Screen.ofScreen_of_writeAll) s

theorem close_rejects (s s' : Session) : (s.close cfg).Rejects s' := by
  intro f hf
  rcases close_cases cfg s with hend | ⟨hopen, f', hover, hcase⟩ | ⟨hopen, hdone⟩
  · simp [close_finished hend] at hf
  · simp only [close_stopped hopen hover hcase, Option.some.injEq] at hf
    exact .inl (hf ▸ Screen.ofScreen_of_writeAll hover)
  · simp [close_done hopen hdone] at hf

theorem control_rejects (s : Session) (b : UInt8) : (s.control cfg b).Rejects s := by
  unfold control
  split_ifs
  · simp [Step.Rejects]
  · exact onScreen_rejects (fun f ↦ Screen.ofScreen_of_moveTo) s
  · exact fun f hf ↦ close_rejects s s f hf
  · cases cfg.controlBytes with
    | ignore => exact report_rejects s (.control b)
    | glyph => exact put_rejects s b
    | blank =>
      apply onScreen_rejects
      intro f hf
      rw [← Screen.writeAll_singleton] at hf
      exact Screen.ofScreen_of_writeAll hf

theorem command_rejects (s : Session) (c : Command) (ps : Params) : (s.command cfg c ps).Rejects s := by
  rcases command_cases cfg s c ps with hf | ⟨f, hf, hr, hc | ⟨hc, rfl⟩⟩
  · rw [command_accepted hf]
    intro f hfault
    rcases Screen.perform_unrefused hfault (hf f hfault) with ⟨hscreen, -⟩ | ⟨-, -, hstay, g, hrefusal, rfl⟩
    · exact .inl hscreen
    · refine .inr ⟨.digits hrefusal, ?_⟩
      rw [onScreen_eq, hstay]
  · rw [command_refused hf hr hc]
    exact report_rejects s (.params hr)
  · rw [command_row hf hr hc]
    intro f' hf'
    dsimp only at hf'
    unfold Screen.moveToRow at hf'
    split at hf'
    · exact .inl (Screen.ofScreen_of_moveTo hf')
    · simp at hf'

theorem dispatch_rejects (s : Session) (q : Sequence) : (s.dispatch cfg q).Rejects s := by
  rcases dispatch_cases cfg s q with ⟨-, he⟩ | ⟨-, -, he⟩ | ⟨-, -, -, he⟩ | ⟨-, c, -, he⟩
  · simp [he, Step.Rejects]
  · simp [he, Step.Rejects]
  · rw [he]
    exact report_rejects s (.command _)
  · rw [he]
    exact command_rejects s c q.params

/-- Only a fault of the text itself is raised as it is, and that changes nothing either. -/
theorem perform_rejects (s : Session) {token : Token} {f : Fault} (hf : (s.perform cfg token).fault = some f)
    (hscreen : ¬f.OfScreen) :
    (s.perform cfg token).session = s ∧ (token = .fault f ∨ (∀ f', token ≠ .fault f') ∧ f.OfRequest) := by
  cases token with
  | byte b =>
    have hrejects : (s.perform cfg (.byte b)).Rejects s := by
      unfold perform
      dsimp only
      split
      · exact put_rejects s b
      · exact control_rejects s b
    obtain ⟨hrequest, hsession⟩ := (hrejects f hf).resolve_left hscreen
    exact ⟨hsession, .inr ⟨by simp, hrequest⟩⟩
  | sequence q =>
    obtain ⟨hrequest, hsession⟩ := (dispatch_rejects s q f hf).resolve_left hscreen
    exact ⟨hsession, .inr ⟨by simp, hrequest⟩⟩
  | fault f' =>
    have hreport : s.perform cfg (.fault f') = s.report cfg f' := rfl
    refine ⟨report_session cfg s f', .inl ?_⟩
    simp only [hreport, report] at hf
    split at hf
    · simpa using hf
    · simp at hf

theorem push_rejects (cfg : Config) (s : Session) (b : UInt8) {f : Fault}
    (hf : (s.push cfg b).fault = some f) (hscreen : ¬f.OfScreen) :
    (s.push cfg b).session = { s with tokenizer := Tokenizer.behindRefusal f b, offset := s.offset + 1 } := by
  rcases push_cases cfg s b with ⟨-, he⟩ | ⟨-, t, -, he⟩ | ⟨-, t, token, hnext, he⟩
  · simp [he] at hf
  · simp [he] at hf
  · rw [he] at hf ⊢
    rcases settle_cases cfg ({ s with tokenizer := t, offset := s.offset + 1 }.perform cfg token) with
      ⟨-, hsettle⟩ | ⟨n, -, hsettle⟩
    · rw [hsettle] at hf ⊢
      obtain ⟨hsession, htoken⟩ := perform_rejects _ hf hscreen
      have htokenizer : t = Tokenizer.behindRefusal f b := by
        rcases Tokenizer.next_completes hnext with ⟨rfl, hplain⟩ | ⟨f', rfl, rfl⟩
        · rcases htoken with rfl | ⟨-, hrequest⟩
          · exact absurd rfl (hplain f)
          · rcases Tokenizer.behindRefusal_cases f b with ⟨⟨n, hn⟩, -, -⟩ | ⟨-, hground⟩
            · exact absurd hn (hrequest.ne_sequenceTooLong n)
            · exact hground.symm
        · rcases htoken with htoken | ⟨hplain, -⟩
          · simp only [Token.fault.injEq] at htoken
            rw [htoken]
          · exact absurd rfl (hplain f')
      rw [hsession, htokenizer]
    · -- the limit is a fault of the screen
      rw [hsettle] at hf
      dsimp only at hf
      split at hf
      · simp only [Option.some.injEq] at hf
        exact absurd (hf ▸ .lineLimit n) hscreen
      · simp at hf

/-- A byte that is refused changes nothing. The parser is ready for another sequence, and the next byte is read
outside of sequences unless it may go on with one that is too long. -/
theorem refused_push (cfg : Config) (s : Session) (b : UInt8) {f : Fault}
    (hf : (s.push cfg b).fault = some f) (hinput : f.isOfInput = true) (hlimit : ∀ n, f ≠ .lineLimit n) :
    let t := (s.push cfg b).session
    t = { s with tokenizer := t.tokenizer, offset := s.offset + 1 } ∧ t.tokenizer.parser = {} ∧
      (t.tokenizer.state = .ground ∨ t.tokenizer.state = .discard) ∧
      (t.tokenizer.state = .discard ↔ (∃ n, f = .sequenceTooLong n) ∧ Sequence.continues b = true) := by
  intro t
  have hscreen : ¬f.OfScreen := by
    rintro (n | _ | _ | _)
    · exact hlimit n rfl
    all_goals cases hinput
  have ht : t = { s with tokenizer := Tokenizer.behindRefusal f b, offset := s.offset + 1 } :=
    push_rejects cfg s b hf hscreen
  simp only [ht]
  refine ⟨trivial, rfl, ?_, ?_⟩
  · rcases Tokenizer.behindRefusal_cases f b with ⟨-, -, he⟩ | ⟨-, he⟩
    · exact .inr (by rw [he])
    · exact .inl (by rw [he])
  · rcases Tokenizer.behindRefusal_cases f b with ⟨hlong, hb, he⟩ | ⟨hnot, he⟩
    · simp only [he, true_iff]
      exact ⟨hlong, hb⟩
    · simp [he, hnot]

/-- Parameters that are refused behind a saved cursor and in the middle of a character, and the byte for which a
sequence has no room. -/
theorem refused_push_inside_character :
    let cfg : Config := { strict := true, maxSequenceLength := some 2 }
    let s := pushAll cfg [0x61, 0x1b, 0x5b, 0x73, 0xc3, 0x1b, 0x5b, 0x31] (start cfg)
    s.pending ≠ none ∧
      (s.push cfg 0x73).session = { s with tokenizer := .ground, offset := s.offset + 1 } ∧
      ((s.push cfg 0x31).session.push cfg 0x32).session.tokenizer.state = .discard := by
  intro cfg s
  have hcount : (s.push cfg 0x73).fault = some (.parameterCount .save [some 1]) := by decide +kernel
  have hlong : ((s.push cfg 0x31).session.push cfg 0x32).fault = some (.sequenceTooLong 2) := by decide +kernel
  obtain ⟨hsame, -, hplace, hdiscard⟩ := refused_push cfg s 0x73 hcount rfl (by simp)
  obtain ⟨-, -, -, hrest⟩ := refused_push cfg (s.push cfg 0x31).session 0x32 hlong rfl (by simp)
  have hground : (s.push cfg 0x73).session.tokenizer = .ground := by
    apply Tokenizer.state_eq_ground_iff.mp
    apply hplace.resolve_right
    simp [hdiscard]
  refine ⟨by decide +kernel, ?_, hrest.mpr ⟨⟨2, rfl⟩, by decide⟩⟩
  rw [hground] at hsame
  exact hsame

end Session

end TermCapture
