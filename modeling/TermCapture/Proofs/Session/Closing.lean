import TermCapture.Proofs.Charset.Decoding
import TermCapture.Proofs.Session.Feeding
import TermCapture.Proofs.Session.Skipping
import TermCapture.Proofs.Session.Strictness

namespace TermCapture

/-- What is left of a session to be seen, or why it was stopped. -/
def Step.outcome (r : Step) : Option Fault × Screen × Style := (r.fault, r.session.screen, r.session.style)

/-- What is raised at the end of a text: a full screen is tolerated. -/
def Config.atEnd (cfg : Config) : Option Fault → Option Fault
  | some (.lineLimit n) => if cfg.strict then some (.lineLimit n) else none
  | fault => fault

theorem Config.atEnd_of_stops (cfg : Config) {f : Fault} (h : cfg.strict = true ∨ ∀ n, f ≠ .lineLimit n) :
    cfg.atEnd (some f) = some f := by
  unfold atEnd
  split
  · rename_i n hn
    cases hn
    rw [if_pos (h.resolve_right fun h ↦ h n rfl)]
  · rfl

/-- A sequence without its final byte. -/
inductive Sequence.Cut : List UInt8 → Prop
  | escape : Cut [0x1b]
  | body {body : List UInt8} (h : ∀ b ∈ body, continues b = true) : Cut (0x1b :: 0x5b :: body)

/-- The text stands behind the introducer of a sequence. -/
def Tokenizer.Inside (t : Tokenizer) : Prop := t.state = .body ∨ t.state = .discard

theorem Tokenizer.next_inside_tolerant {maxLength : Option Int} {t : Tokenizer} (ht : t.Inside) {b : UInt8}
    (hb : Sequence.continues b = true) : ∃ t' : Tokenizer, t'.Inside ∧
      (t.next false maxLength b = (t', none) ∨ ∃ f, t.next false maxLength b = (t', some (.fault f))) := by
  cases t with
  | ground | escape => obtain h | h := ht <;> cases h
  | discard => exact ⟨.discard, .inr rfl, .inl (by rw [next_discard, if_pos hb])⟩
  | body p =>
    rw [next_body]
    by_cases hroom : ∀ n ∈ maxLength, (p.length : Int) < n
    · refine ⟨.body (p.extend b), .inl rfl, .inl ?_⟩
      rw [p.push_continues hroom hb]
    · obtain ⟨n, hn, hlong⟩ : ∃ n ∈ maxLength, n ≤ (p.length : Int) := by simpa using hroom
      refine ⟨.discard, .inr rfl, .inr ⟨.sequenceTooLong n, ?_⟩⟩
      rw [p.push_tooLong false hn hlong]
      dsimp only
      rw [behindRefusal_tooLong, if_pos hb]

/-- A byte that goes on with a sequence leaves the text in it, unless strict reading refuses the byte. -/
theorem Tokenizer.next_inside (strict : Bool) {maxLength : Option Int} {t : Tokenizer} (ht : t.Inside) {b : UInt8}
    (hb : Sequence.continues b = true) : ∃ t' : Tokenizer,
      (t'.Inside ∧ t.next strict maxLength b = (t', none)) ∨
      ((t'.Inside ∨ strict = true) ∧ ∃ f, t.next strict maxLength b = (t', some (.fault f))) := by
  obtain ⟨t', ht', h⟩ := @next_inside_tolerant maxLength t ht b hb
  cases strict with
  | false =>
    obtain h | h := h
    · exact ⟨t', .inl ⟨ht', h⟩⟩
    · exact ⟨t', .inr ⟨.inl ht', h⟩⟩
  | true =>
    obtain ⟨-, he⟩ | ⟨-, n, he⟩ := t.next_strict maxLength b
    · rw [he]
      obtain h | h := h
      · exact ⟨t', .inl ⟨ht', h⟩⟩
      · exact ⟨t', .inr ⟨.inr rfl, h⟩⟩
    · exact ⟨.ground, .inr ⟨.inr rfl, _, he⟩⟩

namespace Session

variable {cfg : Config} {s : Session}

theorem settle_outcome {r : Step} (h : cfg.strict = true ∨ ∀ n, r.fault ≠ some (.lineLimit n)) :
    (settle cfg r).outcome = r.outcome := by
  obtain ⟨-, he⟩ | ⟨n, hn, he⟩ := settle_cases cfg r
  · rw [he]
  · rw [he, h.resolve_right fun h ↦ h n hn, if_pos rfl, ← hn]
    rfl

theorem push_inside (hf : s.finished = false) (ht : s.tokenizer.Inside) {b : UInt8}
    (hb : Sequence.continues b = true) (hn : (s.push cfg b).fault = none) :
    ∃ t n, t.Inside ∧ (s.push cfg b).session = s.moved t n := by
  obtain ⟨t, ⟨ht', h⟩ | ⟨ht', f, h⟩⟩ :=
    @Tokenizer.next_inside cfg.strict (cfg.maxSequenceLength.map Int.ofNat) _ ht b hb
  · rw [push_none hf h]
    exact ⟨t, _, ht', rfl⟩
  · rw [push_token hf h, perform] at hn ⊢
    cases hc : cfg.strict with
    | true =>
      rw [report_strict _ hc] at hn
      cases hn.symm.trans (congrArg Prod.fst (settle_outcome (.inl hc)))
    | false =>
      have hinside : t.Inside := ht'.resolve_right (by simp [hc])
      rw [report_permissive _ hc]
      exact ⟨t, _, hinside, rfl⟩

theorem feed_inside {body : List UInt8} (hf : s.finished = false) (ht : s.tokenizer.Inside)
    (hbody : ∀ b ∈ body, Sequence.continues b = true) (hn : (s.feed cfg body).fault = none) :
    ∃ t n, (s.feed cfg body).session = s.moved t n := by
  -- each byte moves the session on in its text and changes nothing else
  induction body generalizing s with
  | nil => exact ⟨s.tokenizer, s.offset, rfl⟩
  | cons b body ih =>
    rw [feed_cons] at hn ⊢
    have hpush : (s.push cfg b).fault = none := Step.fault_of_andThen hn
    obtain ⟨t, n, ht', he⟩ := push_inside hf ht (hbody b List.mem_cons_self) hpush
    have hopen : (s.push cfg b).session.finished = false := by rw [he]; exact hf
    rw [Step.andThen_of_open hpush hopen] at hn ⊢
    rw [he] at hn ⊢
    exact ih (s := s.moved t n) hf ht' (fun c hc ↦ hbody c (List.mem_cons_of_mem b hc)) hn

theorem feed_cut {p : List UInt8} (hf : s.finished = false) (ht : s.tokenizer = .ground) (hp : Sequence.Cut p)
    (hn : (s.feed cfg p).fault = none) : ∃ t n, (s.feed cfg p).session = s.moved t n := by
  have hescape : s.push cfg 0x1b = _ := push_escape hf ht
  cases hp with
  | escape =>
    rw [feed_singleton, hescape]
    exact ⟨_, _, rfl⟩
  | @body body hbody =>
    have hintro : (s.moved .escape (s.offset + 1)).push cfg 0x5b = _ := push_introducer hf _
    have hfeed : s.feed cfg (0x1b :: 0x5b :: body) =
        (s.moved (.body {}) (s.offset + 1 + 1)).feed cfg body := by
      rw [feed_of_push hescape hf, feed_of_push hintro hf]
    rw [hfeed] at hn ⊢
    exact feed_inside (s := s.moved (.body {}) (s.offset + 1 + 1)) hf (.inl rfl) hbody hn

theorem close_outcome (hf : s.finished = false) :
    (s.close cfg).outcome = (cfg.atEnd (s.flushed cfg).fault, (s.flushed cfg).state, s.style) := by
  obtain hf' | ⟨-, f, ho, hc⟩ | ⟨-, ho | ⟨hc, n, ho⟩⟩ := close_cases cfg s
  · rw [hf] at hf'
    cases hf'
  · rw [close_stopped hf ho hc, ho, cfg.atEnd_of_stops hc]
    rfl
  · rw [close_done hf (.inl ho), ho]
    rfl
  · rw [close_done hf (.inr ⟨hc, n, ho⟩), ho, Config.atEnd, hc]
    rfl

/-- The end marker closes a session, and nothing behind it is read. -/
theorem feed_endMarker (hf : s.finished = false) (ht : s.tokenizer = .ground) (bs : List UInt8) :
    (s.feed cfg (0x1a :: bs)).outcome = (s.close cfg).outcome ∧
      ((s.feed cfg (0x1a :: bs)).fault = none → (s.feed cfg (0x1a :: bs)).session.finished = true) := by
  let m := s.moved .ground (s.offset + 1)
  let r : Step := { m.close cfg with notes := .endMarker (s.offset + 1) :: (m.close cfg).notes }
  have hpush : s.push cfg 0x1a = settle cfg r := push_ground hf ht (by decide)
  have hout : r.outcome = (s.close cfg).outcome := by
    rw [close_outcome hf]
    exact close_outcome (s := m) hf
  rw [← hout, feed_cons, hpush]
  obtain ⟨f, hfault, hc⟩ | ⟨hfault, hfinished⟩ := close_ends_or_raises cfg m
  · have hsettle : (settle cfg r).outcome = r.outcome :=
      settle_outcome (hc.imp_right fun hn n hr ↦ hn n (Option.some.inj (hfault.symm.trans hr)))
    have hraised : (settle cfg r).fault = some f := (congrArg Prod.fst hsettle).trans hfault
    rw [Step.andThen_of_fault hraised, hraised]
    exact ⟨hsettle, nofun⟩
  · rw [settle_of_none (r := r) hfault, Step.andThen_of_finished (r := r) hfinished]
    exact ⟨rfl, fun _ ↦ hfinished⟩

theorem dispatch_pending (cfg : Config) (s : Session) (q : Sequence) :
    (s.dispatch cfg q).session.pending = s.pending := by
  obtain ⟨-, he⟩ | ⟨-, -, he⟩ | ⟨-, -, -, he⟩ | ⟨-, c, -, he⟩ := dispatch_cases cfg s q
  · rw [he]
  · rw [he]
  · rw [he, report_session]
  · rw [he]
    obtain hf | ⟨f, hf, hr, hc | ⟨hc, rfl⟩⟩ := command_cases cfg s c q.params
    · rw [command_accepted hf]
      rfl
    · rw [command_refused hf hr hc, report_session]
    · rw [command_row hf hr hc]

theorem close_pending (cfg : Config) (s : Session) :
    (s.close cfg).session.pending = s.pending ∨ (s.close cfg).session.pending = none := by
  obtain hf | ⟨hf, f, ho, hc⟩ | ⟨hf, hc⟩ := close_cases cfg s
  · rw [close_finished hf]
    exact .inl rfl
  · rw [close_stopped hf ho hc]
    exact .inr rfl
  · rw [close_done hf hc]
    exact .inr rfl

theorem perform_pending (cfg : Config) (s : Session) (token : Token) :
    (s.perform cfg token).session.pending = s.pending ∨ (s.perform cfg token).session.pending = none ∨
      ∃ b, token = .byte b ∧ (s.perform cfg token).session.pending = (cfg.charset.decode s.pending b).2 := by
  cases token with
  | byte b =>
    simp only [perform, control]
    split_ifs
    · exact .inr (.inr ⟨b, rfl, rfl⟩)
    · exact .inl rfl
    · exact .inl rfl
    · exact (close_pending cfg s).imp_right .inl
    · cases cfg.controlBytes with
      | ignore => exact .inl (by rw [report_session])
      | blank => exact .inl rfl
      | glyph => exact .inr (.inr ⟨b, rfl, rfl⟩)
  | sequence q => exact .inl (dispatch_pending cfg s q)
  | fault f => exact .inl (by rw [perform, report_session])

/-- A byte goes to the character that is being read, ends it, or leaves it as it is. -/
theorem push_pending (cfg : Config) (s : Session) (b : UInt8) :
    (s.push cfg b).session.pending = s.pending ∨ (s.push cfg b).session.pending = none ∨
      (s.push cfg b).session.pending = (cfg.charset.decode s.pending b).2 := by
  obtain ⟨-, he⟩ | ⟨-, t, -, he⟩ | ⟨-, t, token, ht, he⟩ := push_cases cfg s b
  · rw [he]
    exact .inl rfl
  · rw [he]
    exact .inl rfl
  · rw [he, settle_session]
    obtain h | h | ⟨b', rfl, h⟩ := perform_pending cfg { s with tokenizer := t, offset := s.offset + 1 } token
    · exact .inl h
    · exact .inr (.inl h)
    · obtain ⟨-, -, rfl, -⟩ := Tokenizer.next_byte ht
      exact .inr (.inr h)

/-- What is pending was opened by some bytes of the text. -/
theorem pushAll_pending (cfg : Config) (bs : List UInt8) {q : Utf8.Pending}
    (h : (pushAll cfg bs (start cfg)).pending = some q) :
    cfg.charset = .utf8 ∧ ∃ p, p.Sublist bs ∧ Utf8.Opens p q := by
  induction bs using List.reverseRecOn generalizing q with
  | nil => cases h
  | append_singleton bs b ih =>
    rw [pushAll_append, pushAll_cons, pushAll] at h
    dsimp only [List.foldl_nil] at h
    obtain he | he | he := push_pending cfg (pushAll cfg bs (start cfg)) b
    · obtain ⟨hc, p, hp, hopens⟩ := ih (he.symm.trans h)
      exact ⟨hc, p, hp.trans (List.sublist_append_left bs [b]), hopens⟩
    · cases he.symm.trans h
    · have hdecode := he.symm.trans h
      cases hc : cfg.charset with
      | page p =>
        rw [hc] at hdecode
        cases hdecode
      | utf8 =>
        rw [hc] at hdecode
        refine ⟨rfl, ?_⟩
        obtain hfirst | ⟨q', hq', hnext⟩ := Utf8.next_opens hdecode
        · exact ⟨[b], List.sublist_append_right bs [b], hfirst⟩
        · obtain ⟨-, p, hp, hopens⟩ := ih hq'
          exact ⟨p ++ [b], hp.append_right [b], hnext p hopens⟩

variable {bs : List UInt8}

theorem decode_of_open (h : ((start cfg).feed cfg bs).fault = none) :
    (cfg.decode bs).outcome = (((start cfg).feed cfg bs).session.close cfg).outcome := by
  rw [Config.decode, read]
  dsimp only
  rw [h]
  rfl

theorem decode_of_fault {f : Fault} (h : ((start cfg).feed cfg bs).fault = some f) :
    (cfg.decode bs).outcome = ((start cfg).feed cfg bs).outcome := by
  rw [Config.decode, read]
  dsimp only
  rw [h, Step.outcome, Step.outcome, h]

theorem decode_of_finished (h : ((start cfg).feed cfg bs).fault = none)
    (hf : ((start cfg).feed cfg bs).session.finished = true) :
    (cfg.decode bs).outcome = ((start cfg).feed cfg bs).outcome := by
  rw [decode_of_open h, close_finished hf, Step.outcome, Step.outcome, h]

theorem feed_outcome (h : cfg.LeavesOpen bs) (rest : List UInt8) :
    let r := ((start cfg).feed cfg bs).session.feed cfg rest
    ((start cfg).feed cfg (bs ++ rest)).session = r.session ∧
      ((start cfg).feed cfg (bs ++ rest)).fault = r.fault := by
  intro r
  rw [feed_append, Step.andThen_of_open h.fault h.finished]
  exact ⟨rfl, rfl⟩

theorem decode_endMarker (h : cfg.LeavesOpen bs) (rest : List UInt8) :
    (cfg.decode (bs ++ 0x1a :: rest)).outcome = (cfg.decode bs).outcome := by
  obtain ⟨hsession, hfault⟩ := feed_outcome h (0x1a :: rest)
  obtain ⟨hout, hfinished⟩ := @feed_endMarker cfg _ h.finished h.ground rest
  have hread : (cfg.decode (bs ++ 0x1a :: rest)).outcome =
      ((start cfg).feed cfg (bs ++ 0x1a :: rest)).outcome := by
    cases hf : ((start cfg).feed cfg (bs ++ 0x1a :: rest)).fault with
    | none =>
      refine decode_of_finished hf ?_
      rw [hsession]
      exact hfinished (hfault.symm.trans hf)
    | some f => exact decode_of_fault hf
  rw [hread, decode_of_open h.fault, ← hout, Step.outcome, Step.outcome, hsession, hfault]

theorem decode_cut (h : cfg.LeavesOpen bs) {p : List UInt8} (hp : Sequence.Cut p)
    (hn : ((start cfg).feed cfg (bs ++ p)).fault = none) :
    (cfg.decode (bs ++ p)).outcome = (cfg.decode bs).outcome := by
  obtain ⟨hsession, hfault⟩ := feed_outcome h p
  obtain ⟨t, n, he⟩ := @feed_cut cfg _ _ h.finished h.ground hp (hfault.symm.trans hn)
  rw [decode_of_open hn, decode_of_open h.fault, hsession, he, close_outcome h.finished]
  exact close_outcome (s := ((start cfg).feed cfg bs).session.moved t n) h.finished

/-- A text that stands outside of sequences ends in the same way at its end, at an end marker, whatever is behind
it, and in a sequence that is cut off: what its last character is missing is written once. -/
theorem endings_agree (h : cfg.LeavesOpen bs) :
    let s := ((start cfg).feed cfg bs).session
    let ending := fun cs ↦
      let o := Screen.writeAll s.style cs s.screen
      (cfg.atEnd o.fault, o.state, s.style)
    (∀ rest, (cfg.decode (bs ++ 0x1a :: rest)).outcome = (cfg.decode bs).outcome) ∧
    (∀ p, Sequence.Cut p → ((start cfg).feed cfg (bs ++ p)).fault = none →
      (cfg.decode (bs ++ p)).outcome = (cfg.decode bs).outcome) ∧
    (s.pending = none → (cfg.decode bs).outcome = ending []) ∧
    ∀ q, s.pending = some q → cfg.charset = .utf8 ∧ ∃ p, p.Sublist bs ∧ Utf8.Opens p q ∧
      (Utf8.Begins p → (cfg.decode bs).outcome = ending [CodePage.replacement]) := by
  intro s ending
  have hending : (cfg.decode bs).outcome = ending (cfg.charset.flush s.pending) := by
    rw [decode_of_open h.fault, close_outcome h.finished]
    rfl
  refine ⟨decode_endMarker h, fun p hp hn ↦ decode_cut h hp hn, fun hq ↦ ?_, fun q hq ↦ ?_⟩
  · rw [hending, hq]
    cases cfg.charset <;> rfl
  · have hpush : s = pushAll cfg bs (start cfg) := feedFrom_session h.fault
    obtain ⟨hc, p, hp, hopens⟩ := pushAll_pending cfg bs (hpush ▸ hq)
    refine ⟨hc, p, hp, hopens, fun hbegins ↦ ?_⟩
    rw [hending, hq, hc]
    exact congrArg ending (hopens.flush_of_begins hbegins)

/-- Behind the first byte of a character stand an end marker and some text, or a sequence that is too long. -/
theorem endings_agree_inside_character :
    let cfg : Config := { maxSequenceLength := some 2 }
    let bs : List UInt8 := [0x41, 0xc3]
    let cut : List UInt8 := [0x1b, 0x5b, 0x31, 0x3b, 0x32, 0x3b]
    cfg.LeavesOpen bs ∧ Sequence.Cut cut ∧ ((start cfg).feed cfg (bs ++ cut)).fault = none ∧
      (cfg.decode (bs ++ [0x1a, 0x42])).outcome = (cfg.decode bs).outcome ∧
      (cfg.decode (bs ++ cut)).outcome = (cfg.decode bs).outcome ∧
      (cfg.decode bs).outcome.2.1.text = "A\ufffd" := by
  intro cfg bs cut
  have hopen : cfg.LeavesOpen bs := by decide +kernel
  have hbody : (cut.drop 2).all Sequence.continues = true := by decide
  have hcut : Sequence.Cut cut := .body (List.all_eq_true.mp hbody)
  have hfault : ((start cfg).feed cfg (bs ++ cut)).fault = none := by decide +kernel
  obtain ⟨hmarker, hsequence, -, hpending⟩ := endings_agree hopen
  obtain ⟨-, p, -, hopens, hlast⟩ := hpending (.lacking 3 0 0x80 0xbf) (by decide +kernel)
  refine ⟨hopen, hcut, hfault, hmarker [0x42], hsequence cut hcut hfault, ?_⟩
  have hbegins : Utf8.Begins p := hopens.begins ⟨by decide, by decide, by decide⟩
  rw [hlast hbegins]
  decide +kernel

end Session

end TermCapture
