import TermCapture.Proofs.Session.Reading

namespace TermCapture

def Config.withStrict (cfg : Config) (strict : Bool) : Config := { cfg with strict := strict }

theorem Config.controlBytes_withStrict (cfg : Config) (strict : Bool) :
    (cfg.withStrict strict).controlBytes = cfg.controlBytes := rfl

namespace Sequence.Partial

/-- The parameters behind a byte. -/
def Progress.params : Progress → Params
  | .more p => p.params.toList
  | .done q _ => q.params
  | .refused _ _ => []

/-- Whether a byte adds an omitted parameter, where that is tolerated. -/
def omits (maxLength : Option Int) (p : Partial) (b : UInt8) : Bool :=
  (p.push false maxLength b).params = p.params.toList ++ [none]

theorem commit_strict (p : Partial) :
    (∃ n, p.commit true = .ok { p with params := p.params.push (some n), value := none } ∧
      p.commit false = p.commit true) ∨
    ((∃ n, p.commit true = .error (.missingParameter n, {})) ∧
      p.commit false = .ok { p with params := p.params.push none }) := by
  obtain ⟨params, _ | n, isPrivate, length⟩ := p
  · exact .inr ⟨⟨_, rfl⟩, rfl⟩
  · exact .inl ⟨n, rfl, rfl⟩

/-- Strict reading differs from tolerant reading at an omitted parameter, which it refuses. -/
theorem push_strict (maxLength : Option Int) (p : Partial) (b : UInt8) :
    (p.omits maxLength b = false ∧ p.push true maxLength b = p.push false maxLength b) ∨
      (p.omits maxLength b = true ∧ ∃ n, p.push true maxLength b = .refused (.missingParameter n) {}) := by
  simp only [omits, decide_eq_true_eq, decide_eq_false_iff_not]
  rw [push, push]
  dsimp only
  split
  · exact .inl ⟨by simp [Progress.params], rfl⟩
  · split_ifs
    · exact .inl ⟨by simp [Progress.params], rfl⟩
    · obtain ⟨n, ht, hf⟩ | ⟨⟨n, ht⟩, hf⟩ := commit_strict { p with length := p.length + 1 }
      · rw [hf, ht]
        exact .inl ⟨by simp [Progress.params], rfl⟩
      · rw [hf, ht]
        exact .inr ⟨by simp [Progress.params], n, rfl⟩
    · exact .inl ⟨by simp [Progress.params], rfl⟩
    · exact .inl ⟨by simp [Progress.params], rfl⟩
    · unfold finish
      split_ifs
      · exact .inl ⟨by simp [Progress.params], rfl⟩
      · obtain ⟨n, ht, hf⟩ | ⟨⟨n, ht⟩, hf⟩ := commit_strict { p with length := p.length + 1 }
        · rw [hf, ht]
          exact .inl ⟨by simp [Progress.params], rfl⟩
        · rw [hf, ht]
          exact .inr ⟨by simp [Progress.params], n, rfl⟩

end Sequence.Partial

def Tokenizer.omits (maxLength : Option Int) (t : Tokenizer) (b : UInt8) : Bool :=
  t.state = .body && t.parser.omits maxLength b

theorem Tokenizer.next_strict (maxLength : Option Int) (t : Tokenizer) (b : UInt8) :
    (t.omits maxLength b = false ∧ t.next true maxLength b = t.next false maxLength b) ∨
      (t.omits maxLength b = true ∧
        ∃ n, t.next true maxLength b = (.ground, some (.fault (.missingParameter n)))) := by
  cases t with
  | ground | escape | discard => exact .inl ⟨rfl, rfl⟩
  | body p =>
    have homits : (body p).omits maxLength b = p.omits maxLength b := rfl
    rw [homits, next_body, next_body]
    obtain ⟨ho, he⟩ | ⟨ho, n, he⟩ := p.push_strict maxLength b
    · rw [he]
      exact .inl ⟨ho, rfl⟩
    · rw [he]
      exact .inr ⟨ho, n, rfl⟩

def Note.isTolerated : Note → Bool
  | .tolerated _ => true
  | _ => false

/-- Whether a step reports a fault and goes on. -/
def Step.reports (r : Step) : Bool := r.notes.any Note.isTolerated

/-- A strict step and a tolerant one from the same state: the same step without a report, or a fault in the
place of a report. -/
inductive Step.Agrees : Step → Step → Prop
  | same {r : Step} (h : r.reports = false) : Agrees r r
  | raised {r r' : Step} (h : r.fault.isSome = true) (h' : r'.reports = true) : Agrees r r'

theorem Step.Agrees.cons {r r' : Step} (h : Agrees r r') {n : Note} (hn : n.isTolerated = false) :
    Agrees { r with notes := n :: r.notes } { r' with notes := n :: r'.notes } := by
  cases h with
  | same h => exact .same (by simpa [reports, hn] using h)
  | raised h h' => exact .raised h (by simpa [reports, hn] using h')

/-- The two steps are one step, or tell themselves apart by what they do with a report. -/
theorem Step.Agrees.cases {r r' : Step} (h : Agrees r r') :
    (r' = r ∧ r'.reports = false) ∨ (r.fault.isSome = true ∧ r'.reports = true) := by
  cases h with
  | same h => exact .inl ⟨rfl, h⟩
  | raised h h' => exact .inr ⟨h, h'⟩

namespace Session

variable (cfg : Config) (s : Session)

theorem report_agrees (f : Fault) :
    Step.Agrees (s.report (cfg.withStrict true) f) (s.report (cfg.withStrict false) f) := .raised rfl rfl

theorem put_agrees (b : UInt8) :
    Step.Agrees (s.put (cfg.withStrict true) b) (s.put (cfg.withStrict false) b) := .same rfl

theorem cutNotes_tolerated : s.cutNotes.any Note.isTolerated = false := by
  rw [cutNotes]
  split <;> rfl

theorem close_agrees :
    Step.Agrees (s.close (cfg.withStrict true)) (s.close (cfg.withStrict false)) := by
  cases hf : s.finished with
  | true =>
    rw [close_finished hf, close_finished hf]
    exact .same s.cutNotes_tolerated
  | false =>
    have hflushed : s.flushed (cfg.withStrict true) = s.flushed (cfg.withStrict false) := rfl
    have hdropped : s.dropped (cfg.withStrict true) = s.dropped (cfg.withStrict false) := rfl
    cases ho : (s.flushed (cfg.withStrict false)).fault with
    | none =>
      rw [close_done hf (.inl (hflushed ▸ ho)), close_done hf (.inl ho), hflushed, hdropped, ho]
      exact .same (by simp [Step.reports, s.cutNotes_tolerated, Note.isTolerated])
    | some f =>
      rw [close_stopped hf (hflushed ▸ ho) (.inl rfl)]
      by_cases hn : ∃ n, f = .lineLimit n
      · obtain ⟨n, rfl⟩ := hn
        rw [close_done hf (.inr ⟨rfl, n, ho⟩)]
        exact .raised rfl (by simp [Step.reports, ho, Note.isTolerated])
      · rw [close_stopped hf ho (.inr fun n he ↦ hn ⟨n, he⟩)]
        exact .same s.cutNotes_tolerated

theorem control_agrees (b : UInt8) :
    Step.Agrees (s.control (cfg.withStrict true) b) (s.control (cfg.withStrict false) b) := by
  unfold control
  split_ifs
  · exact .same rfl
  · exact .same rfl
  · exact (close_agrees cfg s).cons rfl
  · rw [Config.controlBytes_withStrict, Config.controlBytes_withStrict]
    cases cfg.controlBytes with
    | ignore => exact report_agrees cfg s _
    | blank => exact .same rfl
    | glyph => exact put_agrees cfg s b

theorem command_agrees (c : Command) (ps : Params) :
    Step.Agrees (s.command (cfg.withStrict true) c ps) (s.command (cfg.withStrict false) c ps) := by
  by_cases ha : ∀ f, (s.screen.perform c ps).fault = some f → f.isRefusal = false
  · rw [command_accepted ha, command_accepted ha]
    exact .same rfl
  · obtain ⟨f, hf, hr⟩ : ∃ f, (s.screen.perform c ps).fault = some f ∧ f.isRefusal = true := by simpa using ha
    rw [command_refused hf hr (.inl rfl), report_strict s rfl]
    refine .raised rfl ?_
    by_cases hp : c = .position
    · subst hp
      rw [command_row hf hr rfl]
      rfl
    · rw [command_refused hf hr (.inr hp), report_permissive s rfl]
      rfl

theorem dispatch_agrees (q : Sequence) :
    Step.Agrees (s.dispatch (cfg.withStrict true) q) (s.dispatch (cfg.withStrict false) q) := by
  unfold dispatch
  split_ifs
  · exact .same rfl
  · exact .same (by simp [Step.reports, Note.isTolerated])
  · split
    · exact report_agrees cfg s _
    · exact command_agrees cfg s _ _

theorem perform_agrees (t : Token) :
    Step.Agrees (s.perform (cfg.withStrict true) t) (s.perform (cfg.withStrict false) t) := by
  cases t with
  | byte b =>
    simp only [perform]
    split
    · exact put_agrees cfg s b
    · exact control_agrees cfg s b
  | sequence q => exact (dispatch_agrees cfg s q).cons rfl
  | fault f => exact report_agrees cfg s f

theorem settle_agrees {r r' : Step} (h : Step.Agrees r r') :
    Step.Agrees (settle (cfg.withStrict true) r) (settle (cfg.withStrict false) r') := by
  cases h with
  | same h =>
    obtain ⟨hn, he⟩ | ⟨n, hn, he⟩ := settle_cases (cfg.withStrict true) r
    · obtain ⟨-, he'⟩ | ⟨n, hn', -⟩ := settle_cases (cfg.withStrict false) r
      · rw [he, he']
        exact .same h
      · exact absurd hn' (hn n)
    · obtain ⟨hn', -⟩ | ⟨n', -, he'⟩ := settle_cases (cfg.withStrict false) r
      · exact absurd hn (hn' n)
      · rw [he, he']
        exact .raised rfl (by simp [Step.reports, Note.isTolerated, Config.withStrict])
  | raised h h' =>
    refine .raised ?_ ?_
    · obtain ⟨-, he⟩ | ⟨n, -, he⟩ := settle_cases (cfg.withStrict true) r
      · rw [he, h]
      · rw [he]
        rfl
    · obtain ⟨-, he⟩ | ⟨n, -, he⟩ := settle_cases (cfg.withStrict false) r'
      · rw [he, h']
      · rw [he]
        rw [Step.reports] at h' ⊢
        rw [List.any_append, h', Bool.true_or]

theorem push_strict (b : UInt8) :
    ((s.finished = true ∨ s.tokenizer.omits (cfg.maxSequenceLength.map Int.ofNat) b = false) ∧
      Step.Agrees (s.push (cfg.withStrict true) b) (s.push (cfg.withStrict false) b)) ∨
    (s.finished = false ∧ s.tokenizer.omits (cfg.maxSequenceLength.map Int.ofNat) b = true ∧
      (s.push (cfg.withStrict true) b).fault.isSome = true) := by
  by_cases hf : s.finished = true
  · rw [push_finished hf, push_finished hf]
    exact .inl ⟨.inl hf, .same rfl⟩
  · rw [Bool.not_eq_true] at hf
    obtain ⟨ho, he⟩ | ⟨ho, n, he⟩ := s.tokenizer.next_strict (cfg.maxSequenceLength.map Int.ofNat) b
    · refine .inl ⟨.inr ho, ?_⟩
      obtain ⟨t, _ | token, ht⟩ : ∃ t token,
        s.tokenizer.next false (cfg.maxSequenceLength.map Int.ofNat) b = (t, token) := ⟨_, _, rfl⟩
      · rw [@push_none (cfg.withStrict true) s hf t b (he.trans ht), @push_none (cfg.withStrict false) s hf t b ht]
        exact .same rfl
      · rw [@push_token (cfg.withStrict true) s hf t b token (he.trans ht),
          @push_token (cfg.withStrict false) s hf t b token ht]
        exact settle_agrees cfg (perform_agrees cfg _ token)
    · rw [@push_token (cfg.withStrict true) s hf _ b _ he]
      exact .inr ⟨hf, ho, rfl⟩

end Session

/-- What a session does at a byte of its text, or at the end of it. -/
structure Moment where
  before : Session
  byte : Option UInt8
  step : Step

namespace Moment

def raises (m : Moment) : Bool := m.step.fault.isSome

/-- Whether the byte adds an omitted parameter to the sequence that is being read. -/
def omits (cfg : Config) (m : Moment) : Bool :=
  match m.byte with
  | some b => !m.before.finished && m.before.tokenizer.omits (cfg.maxSequenceLength.map Int.ofNat) b
  | none => false

/-- Where a tolerant session meets what a strict one would not accept. -/
def isAnomaly (cfg : Config) (m : Moment) : Bool := m.step.reports || m.omits cfg

/-- Where a tolerant session is held up, or would be if it were strict. -/
def stops (cfg : Config) (m : Moment) : Bool := m.isAnomaly cfg || m.raises

/-- What happens raises what is no fault of the input. -/
def Breaks (cfg : Config) (m : Moment) : Prop :=
  match m.byte with
  | some b => m.before.Breaks cfg b
  | none => m.before.BreaksAtEnd cfg

/-- A strict and a tolerant run of moments that are the same up to one that holds both up. There they start from the
same session, and only an anomaly tells them apart. -/
inductive Agree (cfg : Config) : List Moment → List Moment → Prop
  | nil : Agree cfg [] []
  | cons {m ms ms'} (hr : m.raises = false) (ha : m.isAnomaly cfg = false) (h : Agree cfg ms ms') :
      Agree cfg (m :: ms) (m :: ms')
  | held {m m' ms ms'} (hb : m'.before = m.before) (hm : m' = m ∨ m'.isAnomaly cfg = true) (hr : m.raises = true)
      (hs : m'.stops cfg = true) : Agree cfg (m :: ms) (m' :: ms')

variable {cfg : Config} {m : Moment} {ms ms' : List Moment}

theorem Agree.same (ha : m.isAnomaly cfg = false) (h : Agree cfg ms ms') : Agree cfg (m :: ms) (m :: ms') := by
  cases hr : m.raises with
  | false => exact .cons hr ha h
  | true => exact .held rfl (.inl rfl) hr (by simp [stops, hr])

theorem Agree.first (h : Agree cfg ms ms') :
    ms.findIdx raises = ms'.findIdx (stops cfg) ∧
      (∀ i ≤ ms.findIdx raises, (ms.map before)[i]? = (ms'.map before)[i]?) ∧
      ∀ n, ms'[ms.findIdx raises]? = some n → n.isAnomaly cfg = false → ms[ms.findIdx raises]? = some n := by
  -- a moment that is the same for both is skipped, and the first other one is at the head
  induction h with
  | nil => exact ⟨rfl, fun _ _ ↦ rfl, fun _ h ↦ by cases h⟩
  | @cons m ms ms' hr ha h ih =>
    obtain ⟨hfirst, hbefore, hsame⟩ := ih
    have hstop : m.stops cfg = false := by simp [stops, hr, ha]
    rw [List.findIdx_cons, List.findIdx_cons, hr, hstop]
    refine ⟨congrArg (· + 1) hfirst, ?_, hsame⟩
    rintro (_ | i) hi
    · rfl
    · exact hbefore i (Nat.le_of_succ_le_succ hi)
  | @held m m' ms ms' hb hm hr hs =>
    rw [List.findIdx_cons, List.findIdx_cons, hr, hs]
    refine ⟨rfl, fun i hi ↦ ?_, fun n hn ha ↦ ?_⟩
    · obtain rfl : i = 0 := Nat.le_zero.mp hi
      exact congrArg some hb.symm
    · obtain rfl : m' = n := Option.some.inj hn
      obtain rfl | ha' := hm
      · rfl
      · rw [ha] at ha'
        cases ha'

end Moment

namespace Session

/-- The moments of a session that reads a text and is closed behind it. -/
def moments (cfg : Config) : List UInt8 → Session → List Moment
  | [], s => [⟨s, none, s.close cfg⟩]
  | b :: bs, s => ⟨s, some b, s.push cfg b⟩ :: moments cfg bs (s.push cfg b).session

variable {cfg : Config} {s : Session}

theorem close_moment (cfg : Config) (s : Session) :
    let m : Moment := ⟨s, none, s.close (cfg.withStrict true)⟩
    let m' : Moment := ⟨s, none, s.close (cfg.withStrict false)⟩
    (m'.step = m.step ∧ m'.isAnomaly cfg = false) ∨ (m.raises = true ∧ m'.isAnomaly cfg = true) := by
  simpa only [Moment.raises, Moment.isAnomaly, Moment.omits, Bool.or_false] using (close_agrees cfg s).cases

theorem push_moment (cfg : Config) (s : Session) (b : UInt8) :
    let m : Moment := ⟨s, some b, s.push (cfg.withStrict true) b⟩
    let m' : Moment := ⟨s, some b, s.push (cfg.withStrict false) b⟩
    (m'.step = m.step ∧ m'.isAnomaly cfg = false) ∨ (m.raises = true ∧ m'.isAnomaly cfg = true) := by
  simp only [Moment.raises, Moment.isAnomaly, Moment.omits]
  obtain ⟨ho, ha⟩ | ⟨hf, ho, hr⟩ := push_strict cfg s b
  · have homits : (!s.finished && s.tokenizer.omits (cfg.maxSequenceLength.map Int.ofNat) b) = false := by
      obtain ho | ho := ho <;> simp [ho]
    rw [homits, Bool.or_false]
    exact ha.cases
  · exact .inr ⟨hr, by simp [hf, ho]⟩

theorem moments_agree (cfg : Config) (s : Session) (bs : List UInt8) :
    Moment.Agree cfg (moments (cfg.withStrict true) bs s) (moments (cfg.withStrict false) bs s) := by
  induction bs generalizing s with
  | nil =>
    obtain ⟨he, ha⟩ | ⟨hr, ha⟩ := close_moment cfg s
    · have hstep : s.close (cfg.withStrict false) = s.close (cfg.withStrict true) := he
      simp only [moments]
      rw [hstep] at ha ⊢
      exact .same ha .nil
    · exact .held rfl (.inr ha) hr (by simp [Moment.stops, ha])
  | cons b bs ih =>
    obtain ⟨he, ha⟩ | ⟨hr, ha⟩ := push_moment cfg s b
    · have hstep : s.push (cfg.withStrict false) b = s.push (cfg.withStrict true) b := he
      simp only [moments]
      rw [hstep] at ha ⊢
      exact .same ha (ih _)
    · exact .held rfl (.inr ha) hr (by simp [Moment.stops, ha])

/-- As long as nothing holds it up, a tolerant session raises exactly what breaks it. -/
theorem moments_break (hs : s.Bounded (cfg.withStrict false)) (bs : List UInt8) :
    let ms := moments (cfg.withStrict false) bs s
    ∀ i ≤ ms.findIdx (Moment.stops cfg), ∀ m, ms[i]? = some m →
      (m.raises = true ↔ m.Breaks (cfg.withStrict false)) := by
  induction bs generalizing s with
  | nil =>
    rintro ms (_ | i) - m hm
    · cases hm
      have hiff := @close_tolerant_iff (cfg.withStrict false) _ rfl hs
      simp only [Moment.raises, Moment.Breaks, Option.isSome_iff_ne_none, ne_eq, hiff, Classical.not_not]
    · cases hm
  | cons b bs ih =>
    rintro ms (_ | i) hi m hm
    · cases hm
      have hiff := @push_tolerant_iff (cfg.withStrict false) _ rfl hs b
      simp only [Moment.raises, Moment.Breaks, Option.isSome_iff_ne_none, ne_eq, hiff, Classical.not_not]
    · simp only [ms, moments, List.findIdx_cons] at hi
      cases hstop : (⟨s, some b, s.push (cfg.withStrict false) b⟩ : Moment).stops cfg with
      | true =>
        rw [hstop] at hi
        cases hi
      | false =>
        rw [hstop] at hi
        have hfault : (s.push (cfg.withStrict false) b).fault = none := by
          simpa [Moment.stops, Moment.raises] using (Bool.or_eq_false_iff.mp hstop).2
        have hbounded := (push_safe hs b).2.2 fun f hf ↦ by cases hfault.symm.trans hf
        exact ih hbounded i (Nat.le_of_succ_le_succ hi) m hm

theorem feedFrom_agrees {bs : List UInt8} {log : List Note}
    (h : (s.feedFrom (cfg.withStrict true) bs log).fault = none) :
    s.feedFrom (cfg.withStrict false) bs log = s.feedFrom (cfg.withStrict true) bs log := by
  induction bs generalizing s log with
  | nil => rfl
  | cons b bs ih =>
    unfold feedFrom at h ⊢
    dsimp only at h ⊢
    obtain ⟨he, -⟩ | ⟨hr, -⟩ := push_moment cfg s b
    · have hstep : s.push (cfg.withStrict false) b = s.push (cfg.withStrict true) b := he
      rw [hstep]
      split at h
      · rename_i hstop
        rw [if_pos hstop, if_pos hstop]
      · rename_i hgo
        rw [if_neg hgo, if_neg hgo]
        exact ih h
    · have hr' : (s.push (cfg.withStrict true) b).fault.isSome = true := hr
      rw [if_pos (by simp [hr'])] at h
      dsimp only at h
      rw [h] at hr'
      cases hr'

theorem read_agrees {bs : List UInt8} (h : (s.read (cfg.withStrict true) bs).fault = none) :
    s.read (cfg.withStrict false) bs = s.read (cfg.withStrict true) bs := by
  rw [read, feed] at h ⊢
  dsimp only at h
  cases hfeed : (s.feedFrom (cfg.withStrict true) bs []).fault with
  | some f =>
    rw [hfeed] at h
    cases h
  | none =>
    rw [hfeed] at h
    dsimp only at h
    obtain ⟨he, -⟩ | ⟨hr, -⟩ := close_moment cfg (s.feedFrom (cfg.withStrict true) bs []).session
    · rw [read, feed, feedFrom_agrees hfeed]
      dsimp only at he ⊢
      rw [hfeed, he]
    · rw [Moment.raises] at hr
      dsimp only at hr
      rw [h] at hr
      cases hr

/-- A strict and a tolerant session that read the same text are in the same state up to the first moment at which
the strict one raises a fault. That is the first moment at which the tolerant one meets an anomaly or is broken, and
where it is no anomaly both raise the same. A text that is read strictly is read to the same screen tolerantly. -/
theorem strict_until_anomaly (cfg : Config) (bs : List UInt8) :
    let strict := cfg.withStrict true
    let tolerant := cfg.withStrict false
    let ms := moments strict bs (start strict)
    let ms' := moments tolerant bs (start tolerant)
    let first := ms.findIdx Moment.raises
    first = ms'.findIdx (Moment.stops cfg) ∧
      (∀ i ≤ first, (ms.map Moment.before)[i]? = (ms'.map Moment.before)[i]?) ∧
      (∀ m, ms'[first]? = some m → m.isAnomaly cfg = false → ms[first]? = some m) ∧
      (∀ i ≤ first, ∀ m, ms'[i]? = some m → (m.raises = true ↔ m.Breaks tolerant)) ∧
      ∀ screen, strict.screen bs = .ok screen → tolerant.screen bs = .ok screen := by
  intro strict tolerant ms ms' first
  have hs : (start cfg).Bounded tolerant := start_bounded tolerant
  obtain ⟨hfirst, hbefore, hsame⟩ := (moments_agree cfg (start cfg) bs).first
  refine ⟨hfirst, hbefore, hsame, fun i hi ↦ ?_, fun screen h ↦ ?_⟩
  · exact moments_break hs bs i (hfirst ▸ hi)
  · unfold Config.screen at h ⊢
    have hfault : (strict.decode bs).fault = none := by
      dsimp only at h
      split at h
      · assumption
      · cases h
    have hread : tolerant.decode bs = strict.decode bs := read_agrees hfault
    rw [hread]
    exact h

/-- Behind a column that no line reaches, both sessions raise at a letter, which is no anomaly. -/
theorem strict_raises_without_anomaly :
    let cfg : Config := {}
    let bs := "\x1b[100000000000000000000Ca".toUTF8.toList
    let ms := moments (cfg.withStrict true) bs (start cfg)
    let ms' := moments (cfg.withStrict false) bs (start cfg)
    ms.findIdx Moment.raises = 24 ∧ ms'.all (fun m ↦ !m.isAnomaly cfg) = true ∧ bs.length = 25 := by
  decide +kernel

end Session

end TermCapture
