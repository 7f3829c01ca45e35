import Mathlib.Logic.Relation
import TermCapture.Proofs.Screen.Bare
import TermCapture.Proofs.Session.Skipping

namespace TermCapture

def Config.withPalette (cfg : Config) (p : Palette) : Config := { cfg with palette := p }

/-- The characters of a screen, line by line. -/
def Screen.chars (s : Screen) : List (List Char) := s.lines.toList.map fun l ↦ l.toList.map Cell.char

theorem Screen.chars_bare (s : Screen) : s.bare.chars = s.chars := by
  simp [chars, bare, Line.bare, Cell.bare, Function.comp_def]

/-- A session without its styles, and without the count of its bytes. -/
def Session.bare (s : Session) : Session := { s with screen := s.screen.bare, style := {}, offset := 0 }

/-- Steps that differ in styles, in counts of bytes and in what they note. -/
structure Step.Alike (r r' : Step) : Prop where
  session : r.session.bare = r'.session.bare
  fault : r.fault = r'.fault

theorem Step.Alike.of_result {q q' r r' : Step} (h : Alike q q') (hq : q.result = r.result)
    (hq' : q'.result = r'.result) : Alike r r' := by
  obtain ⟨hs, hf⟩ := Outcome.mk.inj hq
  obtain ⟨hs', hf'⟩ := Outcome.mk.inj hq'
  exact ⟨hs ▸ hs' ▸ h.session, hf ▸ hf' ▸ h.fault⟩

theorem Step.Alike.trans {q r t : Step} (h : Alike q r) (h' : Alike r t) : Alike q t :=
  ⟨h.session.trans h'.session, h.fault.trans h'.fault⟩

namespace Session

variable {cfg : Config} {p : Palette} {s t : Session}

theorem bare_fields (h : s.bare = t.bare) : s.screen.bare = t.screen.bare ∧ s.finished = t.finished ∧
    s.tokenizer = t.tokenizer ∧ s.pending = t.pending := by
  have h' := Session.mk.inj h
  exact ⟨h'.1, h'.2.2.1, h'.2.2.2.1, h'.2.2.2.2.1⟩

section

variable (h : s.bare = t.bare)

include h

theorem skip_alike (notes notes' : List Note) : Step.Alike ⟨s, none, notes⟩ ⟨t, none, notes'⟩ := ⟨h, rfl⟩

theorem report_alike (f : Fault) : Step.Alike (s.report cfg f) (t.report (cfg.withPalette p) f) := by
  unfold report
  change Step.Alike (if cfg.strict then _ else _) (if cfg.strict then _ else _)
  split <;> exact ⟨h, rfl⟩

/-- What an operation does to a screen without styles is what it does to the screen. -/
theorem onScreen_alike {f g k : Screen → Outcome Screen} (hf : ∀ x, (f x).map Screen.bare = k x.bare)
    (hg : ∀ x, (g x).map Screen.bare = k x.bare) : Step.Alike (s.onScreen f) (t.onScreen g) := by
  obtain ⟨hscreen, hfinished, htokenizer, hpending⟩ := bare_fields h
  have ho : (f s.screen).map Screen.bare = (g t.screen).map Screen.bare := by rw [hf, hg, hscreen]
  obtain ⟨hstate, hfault⟩ := Outcome.mk.inj ho
  refine ⟨?_, hfault⟩
  simp only [onScreen_eq, bare, hstate, hfinished, htokenizer, hpending]

theorem put_alike (b : UInt8) : Step.Alike (s.put cfg b) (t.put (cfg.withPalette p) b) := by
  obtain ⟨hscreen, hfinished, htokenizer, hpending⟩ := bare_fields h
  rw [put_eq, put_eq, hpending]
  refine onScreen_alike ?_ (Screen.bare_writeAll _ _) (Screen.bare_writeAll _ _)
  simp only [bare, hscreen, hfinished, htokenizer]
  rfl

theorem flushed_bare : (s.flushed cfg).map Screen.bare = (t.flushed (cfg.withPalette p)).map Screen.bare := by
  obtain ⟨hscreen, -, -, hpending⟩ := bare_fields h
  unfold flushed
  rw [Screen.bare_writeAll, Screen.bare_writeAll, hscreen, hpending]
  rfl

theorem close_alike : Step.Alike (s.close cfg) (t.close (cfg.withPalette p)) := by
  obtain ⟨hscreen, hfinished, -, hpending⟩ := bare_fields h
  have hflushed : (s.flushed cfg).map Screen.bare = (t.flushed (cfg.withPalette p)).map Screen.bare :=
    flushed_bare h
  obtain ⟨hstate, hfault⟩ := Outcome.mk.inj hflushed
  obtain hf | ⟨hf, f, ho, hs⟩ | ⟨hf, hs⟩ := close_cases cfg s
  · rw [close_finished hf, close_finished (hfinished.symm.trans hf)]
    exact ⟨by simp only [bare, hscreen, hfinished, hpending], rfl⟩
  · rw [close_stopped hf ho hs,
      @close_stopped (cfg.withPalette p) t (hfinished.symm.trans hf) f (hfault.symm.trans ho) hs]
    exact ⟨by simp only [bare, dropped, hstate, hfinished], rfl⟩
  · rw [close_done hf hs, @close_done (cfg.withPalette p) t (hfinished.symm.trans hf) (hfault ▸ hs)]
    exact ⟨by simp only [bare, dropped, hstate], rfl⟩

theorem control_alike (b : UInt8) : Step.Alike (s.control cfg b) (t.control (cfg.withPalette p) b) := by
  unfold control
  split_ifs
  · exact skip_alike h _ _
  · exact onScreen_alike h Screen.bare_newline Screen.bare_newline
  · exact ⟨(close_alike h).session, (close_alike h).fault⟩
  · have hblank : Step.Alike (s.onScreen (·.write ' ' s.style)) (t.onScreen (·.write ' ' t.style)) :=
      onScreen_alike (k := (·.write ' ' {})) h (Screen.bare_write · ' ' _) (Screen.bare_write · ' ' _)
    rw [show (cfg.withPalette p).controlBytes = cfg.controlBytes from rfl]
    cases cfg.controlBytes with
    | ignore => exact report_alike h _
    | blank => exact hblank
    | glyph => exact put_alike h b

theorem command_alike (c : Command) (ps : Params) :
    Step.Alike (s.command cfg c ps) (t.command (cfg.withPalette p) c ps) := by
  have hscreen := (bare_fields h).1
  have hfault : (s.screen.perform c ps).fault = (t.screen.perform c ps).fault := by
    have ho : (s.screen.perform c ps).map Screen.bare = (t.screen.perform c ps).map Screen.bare := by
      rw [Screen.bare_perform, Screen.bare_perform, hscreen]
    exact (Outcome.mk.inj ho).2
  obtain hf | ⟨f, hf, hr, hc | ⟨hc, rfl⟩⟩ := command_cases cfg s c ps
  · rw [command_accepted hf, command_accepted (fun f h ↦ hf f (hfault.trans h))]
    exact onScreen_alike (k := (·.perform c ps)) h (Screen.bare_perform · c ps) (Screen.bare_perform · c ps)
  · rw [command_refused hf hr hc, @command_refused (cfg.withPalette p) t c ps f (hfault.symm.trans hf) hr hc]
    exact report_alike h f
  · rw [command_row hf hr hc, @command_row (cfg.withPalette p) t ps f (hfault.symm.trans hf) hr hc]
    have hrow : Step.Alike (s.onScreen (·.moveToRow ps)) (t.onScreen (·.moveToRow ps)) :=
      onScreen_alike (k := (·.moveToRow ps)) h (Screen.bare_moveToRow · ps) (Screen.bare_moveToRow · ps)
    exact ⟨hrow.session, hrow.fault⟩

/-- The palette decides about styles alone. -/
theorem dispatch_alike (q : Sequence) :
    Step.Alike (s.dispatch cfg q) (t.dispatch (cfg.withPalette p) q) := by
  unfold dispatch
  split_ifs
  · exact skip_alike h _ _
  · exact ⟨h, rfl⟩
  · split
    · exact report_alike h _
    · exact command_alike h _ _

theorem perform_alike (token : Token) :
    Step.Alike (s.perform cfg token) (t.perform (cfg.withPalette p) token) := by
  cases token with
  | byte b =>
    simp only [perform]
    split
    · exact put_alike h b
    · exact control_alike h b
  | sequence q => exact ⟨(dispatch_alike h q).session, (dispatch_alike h q).fault⟩
  | fault f => exact report_alike h f

end

theorem settle_alike {r r' : Step} (h : Step.Alike r r') :
    Step.Alike (settle cfg r) (settle (cfg.withPalette p) r') := by
  obtain ⟨hn, he⟩ | ⟨n, hn, he⟩ := settle_cases cfg r
  · obtain ⟨-, he'⟩ | ⟨n, hn', -⟩ := settle_cases (cfg.withPalette p) r'
    · rw [he, he']
      exact h
    · exact absurd (h.fault.trans hn') (hn n)
  · obtain ⟨hn', -⟩ | ⟨n', hn', he'⟩ := settle_cases (cfg.withPalette p) r'
    · exact absurd (h.fault.symm.trans hn) (hn' n)
    · rw [he, he']
      obtain ⟨hscreen, -, htokenizer, hpending⟩ := bare_fields h.session
      cases hn.symm.trans (h.fault.trans hn')
      refine ⟨?_, rfl⟩
      simp only [bare, hscreen, htokenizer, hpending]

theorem push_alike (h : s.bare = t.bare) (b : UInt8) :
    Step.Alike (s.push cfg b) (t.push (cfg.withPalette p) b) := by
  obtain ⟨hscreen, hfinished, htokenizer, hpending⟩ := bare_fields h
  have hmoved : ∀ tokenizer, ({ s with tokenizer := tokenizer, offset := s.offset + 1 } : Session).bare =
      ({ t with tokenizer := tokenizer, offset := t.offset + 1 } : Session).bare := by
    intro tokenizer
    simp only [bare, hscreen, hfinished, hpending]
  obtain ⟨hf, he⟩ | ⟨hf, k, hk, he⟩ | ⟨hf, k, token, hk, he⟩ := push_cases cfg s b
  · rw [he, push_finished (hfinished.symm.trans hf)]
    exact skip_alike h _ _
  · rw [htokenizer] at hk
    rw [he, @push_none (cfg.withPalette p) t (hfinished.symm.trans hf) k b hk]
    exact skip_alike (hmoved k) _ _
  · rw [htokenizer] at hk
    rw [he, @push_token (cfg.withPalette p) t (hfinished.symm.trans hf) k b token hk]
    exact settle_alike (perform_alike (hmoved k) token)

theorem read_alike (h : s.bare = t.bare) (bs : List UInt8) :
    Step.Alike (s.read cfg bs) (t.read (cfg.withPalette p) bs) := by
  induction bs generalizing s t with
  | nil => exact (close_alike h).of_result (result_read_nil cfg s).symm (result_read_nil (cfg.withPalette p) t).symm
  | cons b bs ih =>
    have hpush : Step.Alike (s.push cfg b) (t.push (cfg.withPalette p) b) := push_alike h b
    have hs := result_read_cons cfg s b bs
    have ht := result_read_cons (cfg.withPalette p) t b bs
    generalize s.push cfg b = r at hpush hs
    generalize t.push (cfg.withPalette p) b = r' at hpush ht
    obtain ⟨s', _ | f, notes⟩ := r <;> obtain ⟨t', _ | f', notes'⟩ := r'
    · exact (ih hpush.session).of_result hs.symm ht.symm
    · cases hpush.fault
    · cases hpush.fault
    · exact hpush.of_result hs.symm ht.symm

/-- A complete sequence that sets the style, whatever its body says and however long it is. -/
def IsRendition (seq : List UInt8) : Prop :=
  ∃ body, (∀ b ∈ body, Sequence.continues b = true) ∧ seq = 0x1b :: 0x5b :: (body ++ [0x6d])

theorem dispatch_rendition (cfg : Config) (s : Session) {q : Sequence} (hq : q.final = 0x6d) :
    Step.Alike (s.dispatch cfg q) ⟨s, none, []⟩ := by
  obtain ⟨-, he⟩ | ⟨-, -, he⟩ | ⟨-, hn, -⟩ | ⟨-, c, hc, -⟩ := dispatch_cases cfg s q
  · rw [he]
    exact ⟨rfl, rfl⟩
  · rw [he]
    exact ⟨rfl, rfl⟩
  · exact absurd hq hn
  · rw [hq] at hc
    cases hc

section

variable (hc : cfg.strict = false)

include hc

/-- Outside of other sequences, one that sets the style changes nothing but styles. -/
theorem glides_rendition (ht : s.tokenizer = .ground) {seq : List UInt8} (h : seq = [] ∨ IsRendition seq) :
    ∃ t, Glides cfg seq s t ∧ t.bare = s.bare := by
  obtain rfl | ⟨body, hbody, rfl⟩ := h
  · exact ⟨s, .nil s, rfl⟩
  have hmoved : ∀ n, (s.moved .ground n).bare = s.bare := by
    intro n
    rw [moved_ground ht]
    rfl
  by_cases hf : s.finished = true
  · exact ⟨s, .of_finished hf _, rfl⟩
  · rw [Bool.not_eq_true] at hf
    by_cases hroom : ∀ k ∈ cfg.maxSequenceLength, body.length < k
    · have hd := dispatch_rendition cfg (s.moved .ground (s.offset + body.length + 3))
        (q := .ofBody body 0x6d) rfl
      have hfinal := @push_spelled cfg _ hf _ 0x6d hroom hbody (by decide) (not_strict hc) (s.offset + body.length + 2)
      rw [settle_of_none] at hfinal
      refine ⟨_, (glides_sequence hf ht (fun k hk ↦ (hroom k hk).le) hbody (not_strict hc)).append
        (.one ?_), hd.session.trans (hmoved _)⟩
      · rw [hfinal, Step.result]
        exact congrArg (Outcome.mk _) hd.fault
      · exact hd.fault
    · obtain ⟨k, hk, hlong⟩ : ∃ k ∈ cfg.maxSequenceLength, k ≤ body.length := by simpa using hroom
      exact ⟨_, glides_sequence_overlong hc hf ht hk hlong hbody (by decide), hmoved _⟩

end

/-- A text in which, where a session reads outside of sequences, one sequence that sets the style is put in,
taken out or replaced by another. -/
def Restyled (cfg : Config) (bs cs : List UInt8) : Prop :=
  ∃ before after seq seq', (pushAll cfg before (start cfg)).tokenizer = .ground ∧
    (seq = [] ∨ IsRendition seq) ∧ (seq' = [] ∨ IsRendition seq') ∧
    bs = before ++ seq ++ after ∧ cs = before ++ seq' ++ after

theorem decode_restyled (hc : cfg.strict = false) {bs cs : List UInt8} (h : Restyled cfg bs cs) :
    Step.Alike (cfg.decode bs) (cfg.decode cs) := by
  obtain ⟨before, after, seq, seq', ht, hseq, hseq', rfl, rfl⟩ := h
  rw [List.append_assoc, List.append_assoc]
  obtain ⟨s, hbefore⟩ | ⟨o, hstops⟩ := Glides.or_stops cfg before (start cfg)
  · rw [hbefore.pushAll_eq] at ht
    obtain ⟨t, hglides, hbare⟩ := glides_rendition hc ht hseq
    obtain ⟨t', hglides', hbare'⟩ := glides_rendition hc ht hseq'
    have hread : Step.Alike (t.read cfg after) (t'.read cfg after) :=
      read_alike (p := cfg.palette) (hbare.trans hbare'.symm) after
    exact hread.of_result ((hbefore.append hglides).read_eq after ▸ by rw [List.append_assoc]; rfl)
      ((hbefore.append hglides').read_eq after ▸ by rw [List.append_assoc]; rfl)
  · have hread : (cfg.decode (before ++ (seq ++ after))).result = (cfg.decode (before ++ (seq' ++ after))).result :=
      (hstops _).trans (hstops _).symm
    exact Step.Alike.of_result ⟨rfl, rfl⟩ rfl hread

/-- Two texts that differ in any number of sequences that set the style are laid out alike, also with different
palettes: the same characters on the same lines, and the cursor and its saved place where they were. A fault that
stops one of them stops the other at the same place, and it is no fault of the input. -/
theorem layout_of_restyled (cfg : Config) (hc : cfg.strict = false) (p : Palette) {bs cs : List UInt8}
    (h : Relation.ReflTransGen (Restyled cfg) bs cs) :
    let r := cfg.decode bs
    let r' := (cfg.withPalette p).decode cs
    r.fault = r'.fault ∧ (∀ f, r.fault = some f → f.isOfInput = false) ∧
      r.session.screen.chars = r'.session.screen.chars ∧
      r.session.screen.cursor = r'.session.screen.cursor ∧
      r.session.finished = r'.session.finished := by
  intro r r'
  have hrestyled : Step.Alike r (cfg.decode cs) := by
    induction h with
    | refl => exact ⟨rfl, rfl⟩
    | tail _ h ih => exact ih.trans (decode_restyled hc h)
  have halike : Step.Alike r r' := hrestyled.trans (read_alike (p := p) rfl cs)
  obtain ⟨hscreen, hfinished, -, -⟩ := bare_fields halike.session
  have hchars := congrArg Screen.chars hscreen
  rw [Screen.chars_bare, Screen.chars_bare] at hchars
  have hcursor := congrArg Screen.cursor hscreen
  exact ⟨halike.fault, fun f hf ↦ decode_tolerant hc hf, hchars, hcursor, hfinished⟩

/-- A sequence behind a character is taken out, and one that is too long is put between the two bytes of it. -/
theorem layout_of_restyled_inside_character :
    let cfg : Config := { maxSequenceLength := some 4 }
    let bs : List UInt8 := [0xc3, 0xa9, 0x1b, 0x5b, 0x31, 0x6d, 0x42]
    let cs : List UInt8 := [0xc3, 0x1b, 0x5b, 0x33, 0x38, 0x3b, 0x35, 0x3b, 0x31, 0x6d, 0xa9, 0x42]
    let r := cfg.decode bs
    let r' := (cfg.withPalette .xterm).decode cs
    cfg.strict = false ∧ Relation.ReflTransGen (Restyled cfg) bs cs ∧
      r.fault = none ∧ r'.fault = none ∧
      r.session.screen.chars = r'.session.screen.chars ∧
      r.session.screen.cursor = r'.session.screen.cursor ∧
      r.session.finished = r'.session.finished := by
  intro cfg bs cs
  have hout : Restyled cfg bs [0xc3, 0xa9, 0x42] := by
    refine ⟨[0xc3, 0xa9], [0x42], [0x1b, 0x5b, 0x31, 0x6d], [], ?_,
      .inr ⟨[0x31], List.all_eq_true.mp rfl, rfl⟩, .inl rfl, rfl, rfl⟩
    decide +kernel
  have hin : Restyled cfg [0xc3, 0xa9, 0x42] cs := by
    refine ⟨[0xc3], [0xa9, 0x42], [], [0x1b, 0x5b, 0x33, 0x38, 0x3b, 0x35, 0x3b, 0x31, 0x6d], ?_,
      .inl rfl, .inr ⟨[0x33, 0x38, 0x3b, 0x35, 0x3b, 0x31], List.all_eq_true.mp rfl, rfl⟩, rfl, rfl⟩
    decide +kernel
  have h : Relation.ReflTransGen (Restyled cfg) bs cs := .tail (.single hout) hin
  have hread : (cfg.decode bs).fault = none := by decide +kernel
  obtain ⟨hfault, -, hlayout⟩ := layout_of_restyled cfg rfl .xterm h
  exact ⟨rfl, h, hread, hfault.symm.trans hread, hlayout⟩

end Session

end TermCapture
