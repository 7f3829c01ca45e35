import TermCapture.Proofs.Screen.Bare
import TermCapture.Proofs.Sequence.Lexeme
import TermCapture.Proofs.Session.Gliding
import TermCapture.Proofs.Session.Reading

namespace TermCapture

/-- Writes what the charset makes of a byte. -/
def Lexeme.write (cfg : Config) (b : UInt8) (s : Session) : Outcome Session :=
  let (cs, pending) := cfg.charset.decode s.pending b
  let o := Screen.writeAll s.style cs s.screen
  ⟨{ s with screen := o.state, pending := pending }, o.fault⟩

/-- What a word does to a session that tolerates faults. The end marker is not a word to perform. -/
def Lexeme.perform (cfg : Config) : Lexeme → Session → Outcome Session
  | .byte b, s =>
    if 0x20 ≤ b then write cfg b s
    else if b = 0x00 ∨ b = 0x0d then ⟨s, none⟩
    else if b = 0x0a then
      let o := s.screen.newline
      ⟨{ s with screen := o.state }, o.fault⟩
    else match cfg.controlBytes with
      | .ignore => ⟨s, none⟩
      | .blank =>
        let o := s.screen.write ' ' s.style
        ⟨{ s with screen := o.state }, o.fault⟩
      | .glyph => write cfg b s
  | .sequence body final, s => (s.dispatch cfg (.ofBody body final)).result
  | .escape _, s | .cut, s => ⟨s, none⟩

namespace Session

/-- Ends a session behind its last word, where an unfinished character is written as far as the screen has room. -/
def conclude (cfg : Config) (s : Session) : Outcome Session :=
  let o := Screen.writeAll s.style (cfg.charset.flush s.pending) s.screen
  let s := { s with screen := o.state, pending := none }
  match o.fault with
  | none | some (.lineLimit _) => ⟨{ s with finished := true }, none⟩
  | some f => ⟨s, some f⟩

/-- Performs words in order up to the first end marker, until the screen is full, or to a word that fails. -/
def interpret (cfg : Config) : List Lexeme → Session → Outcome Session
  | [], s => s.conclude cfg
  | l :: ls, s =>
    if l = .byte 0x1a then s.conclude cfg
    else
      let o := l.perform cfg s
      match o.fault with
      | none => interpret cfg ls o.state
      | some (.lineLimit _) => ⟨{ o.state with finished := true }, none⟩
      | some f => ⟨o.state, some f⟩

/-- An operation that neither looks at nor changes where a text stands, and goes on with the session. -/
structure Inner (op : Session → Outcome Session) (s : Session) : Prop where
  core_eq : (op s).state.core = (op s.core).state.core
  fault_eq : (op s).fault = (op s.core).fault
  tokenizer_eq : (op s).state.tokenizer = s.tokenizer
  finished_eq : (op s).state.finished = s.finished

theorem Inner.congr {op op' : Session → Outcome Session} {s : Session} (h : Inner op s) (hs : op' s = op s)
    (hc : op' s.core = op s.core) : Inner op' s := by
  refine ⟨?_, ?_, ?_, ?_⟩
  · rw [hs, hc, h.core_eq]
  · rw [hs, hc, h.fault_eq]
  · rw [hs, h.tokenizer_eq]
  · rw [hs, h.finished_eq]

variable (cfg : Config) (s : Session)

theorem skip_inner : Inner (⟨·, none⟩) s := ⟨rfl, rfl, rfl, rfl⟩

theorem draw_inner (f : Style → Screen → Outcome Screen) :
    Inner (fun s ↦ ⟨{ s with screen := (f s.style s.screen).state }, (f s.style s.screen).fault⟩) s :=
  ⟨rfl, rfl, rfl, rfl⟩

theorem report_inner (f : Fault) : Inner (fun s ↦ (s.report cfg f).result) s := by
  cases hc : cfg.strict with
  | true =>
    have h : Inner (⟨·, some f⟩) s := ⟨rfl, rfl, rfl, rfl⟩
    exact h.congr (congrArg Step.result (report_strict s hc f)) (congrArg Step.result (report_strict s.core hc f))
  | false =>
    exact (skip_inner s).congr (congrArg Step.result (report_permissive s hc f))
      (congrArg Step.result (report_permissive s.core hc f))

theorem command_inner (c : Command) (ps : Params) : Inner (fun s ↦ (s.command cfg c ps).result) s := by
  obtain hf | ⟨f, hf, hr, hc | ⟨hc, rfl⟩⟩ := command_cases cfg s c ps
  · exact (draw_inner s fun _ t ↦ t.perform c ps).congr (congrArg Step.result (command_accepted hf))
      (congrArg Step.result (command_accepted (s := s.core) hf))
  · exact (report_inner cfg s f).congr (congrArg Step.result (command_refused hf hr hc))
      (congrArg Step.result (command_refused (s := s.core) hf hr hc))
  · exact (draw_inner s fun _ t ↦ t.moveToRow ps).congr (congrArg Step.result (command_row hf hr hc))
      (congrArg Step.result (command_row (s := s.core) hf hr hc))

theorem dispatch_inner (q : Sequence) : Inner (fun s ↦ (s.dispatch cfg q).result) s := by
  unfold dispatch
  split_ifs
  · exact skip_inner s
  · exact ⟨rfl, rfl, rfl, rfl⟩
  · split
    · exact report_inner cfg s _
    · exact command_inner cfg s _ _

theorem perform_inner (l : Lexeme) : Inner (l.perform cfg) s := by
  have hwrite : ∀ b, Inner (Lexeme.write cfg b) s := fun b ↦ ⟨rfl, rfl, rfl, rfl⟩
  cases l with
  | byte b =>
    unfold Lexeme.perform
    dsimp only
    split_ifs
    · exact hwrite b
    · exact skip_inner s
    · exact draw_inner s fun _ t ↦ t.newline
    · split
      · exact skip_inner s
      · exact draw_inner s fun a t ↦ t.write ' ' a
      · exact hwrite b
  | sequence body final => exact dispatch_inner cfg s _
  | escape | cut => exact skip_inner s

variable {cfg s}

theorem core_perform {t : Session} (h : s.core = t.core) (l : Lexeme) :
    (l.perform cfg s).map core = (l.perform cfg t).map core := by
  have hs := perform_inner cfg s l
  have ht := perform_inner cfg t l
  rw [Outcome.map, Outcome.map, hs.core_eq, hs.fault_eq, h, ← ht.core_eq, ← ht.fault_eq]

theorem core_conclude (cfg : Config) (s : Session) : (s.conclude cfg).map core = (s.core.conclude cfg).map core := by
  unfold conclude core
  dsimp only
  split <;> simp only [Outcome.map, *]

theorem conclude_eq (cfg : Config) (s : Session) :
    s.conclude cfg =
      match (s.flushed cfg).fault with
      | none | some (.lineLimit _) =>
        ⟨{ s with screen := (s.flushed cfg).state, pending := none, finished := true }, none⟩
      | some f => ⟨{ s with screen := (s.flushed cfg).state, pending := none }, some f⟩ := rfl

/-- The end of a session comes to what follows its last word. -/
theorem core_close (hc : cfg.strict = false) (hf : s.finished = false) {t : Session} (h : s.core = t.core) :
    (s.close cfg).result.map core = (t.conclude cfg).map core := by
  rw [core_conclude cfg t, ← h, ← core_conclude, conclude_eq]
  obtain hf' | ⟨-, f, ho, hs⟩ | ⟨-, hs⟩ := close_cases cfg s
  · rw [hf] at hf'
    cases hf'
  · have hn : ∀ n, f ≠ .lineLimit n := hs.resolve_left (by simp [hc])
    rw [close_stopped hf ho hs, ho]
    cases f with
    | lineLimit n => exact absurd rfl (hn n)
    | _ => rfl
  · rw [close_done hf hs]
    obtain ho | ⟨-, n, ho⟩ := hs
    · rw [ho]
      rfl
    · rw [ho]
      rfl

/-- The end marker ends a session like the end of its text. -/
theorem settle_endMarker (s : Session) (hc : cfg.strict = false) :
    (settle cfg (s.perform cfg (.byte 0x1a))).result = (s.close cfg).result := by
  have hperform : s.perform cfg (.byte 0x1a) =
      { s.close cfg with notes := .endMarker s.offset :: (s.close cfg).notes } := rfl
  have hlimit : ∀ n, (s.close cfg).fault ≠ some (.lineLimit n) := by
    intro n hn
    obtain ⟨f, hf, hs⟩ | ⟨hf, -⟩ := close_ends_or_raises cfg s
    · cases hf.symm.trans hn
      exact hs.resolve_left (by simp [hc]) n rfl
    · cases hf.symm.trans hn
  obtain ⟨-, he⟩ | ⟨n, hn, -⟩ := settle_cases cfg (s.perform cfg (.byte 0x1a))
  · rw [he, hperform]
    rfl
  · exact absurd hn (hlimit n)

theorem perform_byte (s : Session) (hc : cfg.strict = false) {b : UInt8} (hb : b ≠ 0x1a) :
    (s.perform cfg (.byte b)).result = Lexeme.perform cfg (.byte b) s := by
  simp only [perform, control, Lexeme.perform]
  split_ifs
  · rfl
  · rfl
  · rfl
  · cases cfg.controlBytes with
    | ignore =>
      dsimp only
      rw [report_permissive _ hc]
      rfl
    | blank | glyph => rfl

/-- Bytes that are read behind a word come to what the words behind it come to, unless it has filled the screen or
has failed. -/
theorem read_settle {l : Lexeme} {bs : List UInt8} {ls : List Lexeme} (hc : cfg.strict = false)
    (hl : l ≠ .byte 0x1a)
    (ih : ∀ {s t : Session}, s.tokenizer = .ground → s.finished = false → s.core = t.core →
      (s.read cfg bs).result.map core = (interpret cfg ls t).map core)
    {s t : Session} (ht : s.tokenizer = .ground) (hf : s.finished = false) (hst : s.core = t.core) {r : Step}
    (hr : r.result = l.perform cfg s) :
    ((settle cfg r).result.andThen fun u ↦ (u.read cfg bs).result).map core =
      (interpret cfg (l :: ls) t).map core := by
  have hinner := perform_inner cfg s l
  have hcore : r.result.map core = (l.perform cfg t).map core := by
    rw [hr]
    exact core_perform hst l
  have htokenizer : r.session.tokenizer = .ground :=
    (congrArg (·.state.tokenizer) hr).trans (hinner.tokenizer_eq.trans ht)
  have hfinished : r.session.finished = false :=
    (congrArg (·.state.finished) hr).trans (hinner.finished_eq.trans hf)
  have hfault : r.fault = (l.perform cfg t).fault := congrArg Outcome.fault hcore
  have hstate : r.session.core = (l.perform cfg t).state.core := congrArg Outcome.state hcore
  rw [interpret, if_neg hl]
  dsimp only
  rw [← hfault]
  obtain ⟨hn, he⟩ | ⟨n, hn, he⟩ := settle_cases cfg r
  · rw [he]
    cases hr' : r.fault with
    | none =>
      rw [Outcome.andThen_of_none (o := r.result) hr']
      exact ih htokenizer hfinished hstate
    | some f =>
      rw [Outcome.andThen_of_some (o := r.result) hr']
      split
      · rename_i hnone
        cases hnone
      · rename_i n hlimit
        exact absurd (hr'.trans hlimit) (hn n)
      · rename_i f' _ hf'
        cases hf'
        exact congrArg (Outcome.mk · (some f)) hstate
  · rw [he, hn, hc]
    have hread : (read cfg { r.session with finished := true } bs).result = _ := result_read_finished rfl bs
    refine (congrArg (Outcome.map core) hread).trans ?_
    exact congrArg (fun u : Session ↦ (⟨{ u with finished := true }, none⟩ : Outcome Session)) hstate

/-- Outside of words, bytes that are read one by one come to what their words come to. -/
theorem read_eq_interpret (hc : cfg.strict = false) (hm : cfg.maxSequenceLength = none) {bs : List UInt8}
    {ls : List Lexeme} (h : Lexeme.Cutting bs ls) {s t : Session} (ht : s.tokenizer = .ground)
    (hf : s.finished = false) (hst : s.core = t.core) :
    (s.read cfg bs).result.map core = (interpret cfg ls t).map core := by
  have hroom : ∀ {n : Nat} {P : Nat → Prop}, n ∈ cfg.maxSequenceLength → P n := by
    intro n P hn
    rw [hm] at hn
    cases hn
  have hcut : ∀ t, interpret cfg [.cut] t = t.conclude cfg := by
    intro t
    rw [interpret, if_neg (by simp)]
    rfl
  -- one case for each form of a word; behind it the text stands outside of words again
  induction h generalizing s t with
  | nil =>
    rw [result_read_nil]
    exact core_close hc hf hst
  | @byte b bs ls hb h ih =>
    have hf' : (s.moved .ground (s.offset + 1)).finished = false := hf
    have hst' : (s.moved .ground (s.offset + 1)).core = t.core := hst
    rw [result_read_cons, push_ground hf ht hb]
    by_cases hsub : b = 0x1a
    · subst b
      rw [settle_endMarker _ hc, interpret, if_pos rfl, ← core_close hc hf' hst']
      obtain ⟨f, hfault, -⟩ | ⟨hfault, hend⟩ := close_ends_or_raises cfg (s.moved .ground (s.offset + 1))
      · rw [Outcome.andThen_of_some (o := Step.result _) hfault]
        exact congrArg (fun e ↦ Outcome.map core ⟨_, e⟩) hfault.symm
      · rw [Outcome.andThen_of_none (o := Step.result _) hfault]
        refine (congrArg (Outcome.map core) (result_read_finished hend bs)).trans ?_
        exact congrArg (Outcome.mk _) hfault.symm
    · exact read_settle hc (by simpa using hsub) ih rfl hf' hst' (perform_byte _ hc hsub)
  | @escape b bs ls hb h ih =>
    have hread := (glides_unknownEscape hf ht hc hb).read_eq bs
    rw [interpret, if_neg (by simp)]
    exact (congrArg (Outcome.map core) hread).trans (ih rfl hf hst)
  | @sequence body final bs ls hbody hfinal h ih =>
    have hglides := glides_sequence hf ht (fun k hk ↦ hroom hk) hbody (not_strict hc)
    have hread := hglides.read_eq (final :: bs)
    rw [List.cons_append, List.cons_append] at hread
    rw [hread, result_read_cons, push_spelled hf (fun k hk ↦ hroom hk) hbody hfinal (not_strict hc)]
    exact read_settle (s := s.moved .ground _) hc (by simp) ih rfl hf hst rfl
  | cutEscape =>
    have hread := (Glides.one (congrArg Step.result (@push_escape cfg _ hf ht))).read_eq []
    rw [List.append_nil, result_read_nil] at hread
    rw [hread, hcut]
    exact core_close (s := s.moved .escape _) hc hf hst
  | @cutSequence body hbody =>
    have hread := (glides_sequence hf ht (fun k hk ↦ hroom hk) hbody (not_strict hc)).read_eq []
    rw [List.append_nil, result_read_nil] at hread
    rw [hread, hcut]
    exact core_close (s := s.moved (.body _) _) hc hf hst

/-- Reading a text byte by byte and interpreting its words come to the same, also where a word fails. -/
theorem decode_eq_interpret (cfg : Config) (hc : cfg.strict = false) (hm : cfg.maxSequenceLength = none)
    (bs : List UInt8) :
    let r := cfg.decode bs
    let o := interpret cfg (Lexeme.lex bs) (start cfg)
    r.fault = o.fault ∧ r.session.screen = o.state.screen ∧ r.session.style = o.state.style ∧
      r.session.pending = o.state.pending ∧ r.session.finished = o.state.finished ∧
      (r.fault = none → r.session = ((pushAll cfg bs (start cfg)).close cfg).session) := by
  intro r o
  have h : r.result.map core = o.map core := read_eq_interpret hc hm (Lexeme.cutting_lex bs) rfl rfl rfl
  have hfault : r.fault = o.fault := congrArg Outcome.fault h
  obtain ⟨hscreen, hstyle, hfinished, -, hpending, -⟩ := Session.mk.inj (congrArg Outcome.state h)
  exact ⟨hfault, hscreen, hstyle, hpending, hfinished, session_of_decode⟩

/-- An escape that is dropped, an end marker as a final byte, a position, and a sequence cut short. -/
theorem decode_eq_interpret_of_mixed_text :
    let cfg : Config := {}
    let bs : List UInt8 := [0x41, 0x1b, 0x37, 0x1b, 0x5b, 0x3f, 0x1a, 0x1b, 0x5b, 0x32, 0x3b, 0x20, 0x35, 0x48,
      0xc3, 0x1b, 0x5b, 0x31]
    let ls : List Lexeme := [.byte 0x41, .escape 0x37, .sequence [0x3f] 0x1a,
      .sequence [0x32, 0x3b, 0x20, 0x35] 0x48, .byte 0xc3, .cut]
    cfg.strict = false ∧ cfg.maxSequenceLength = none ∧ (cfg.decode bs).fault = none ∧
      (cfg.decode bs).session.screen = (interpret cfg ls (start cfg)).state.screen ∧
      (cfg.decode bs).session.style = (interpret cfg ls (start cfg)).state.style ∧
      (cfg.decode bs).session.finished = (interpret cfg ls (start cfg)).state.finished ∧
      (cfg.decode bs).session.screen.text = "A\n    \ufffd" := by
  intro cfg bs ls
  have hposition : ∀ b ∈ [0x32, 0x3b, 0x20, 0x35], Sequence.continues b = true := by simp [Sequence.continues]
  have hprivate : ∀ b ∈ [0x3f], Sequence.continues b = true := by simp [Sequence.continues]
  have hcut : ∀ b ∈ [0x31], Sequence.continues b = true := by simp [Sequence.continues]
  have hlex : ls = Lexeme.lex bs := Lexeme.Cutting.eq_lex <|
    .byte (by decide) <| .escape (by decide) <| .sequence hprivate (by decide) <|
    .sequence hposition (by decide) <| .byte (by decide) <| .cutSequence hcut
  obtain ⟨-, hscreen, hstyle, -, hfinished, -⟩ := decode_eq_interpret cfg rfl rfl bs
  rw [← hlex] at hscreen hstyle hfinished
  exact ⟨rfl, rfl, by decide +kernel, hscreen, hstyle, hfinished, by decide +kernel⟩

end Session

end TermCapture
