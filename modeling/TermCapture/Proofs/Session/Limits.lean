import Mathlib.Data.List.Infix
import TermCapture.Proofs.Screen.Limits
import TermCapture.Proofs.Session.Feeding

namespace TermCapture

/-- The settings without limits. -/
def Config.unlimited (cfg : Config) : Config :=
  { cfg with
    maxSequenceLength := none
    maxLines := none
    maxColumns := none
    maxSequenceLength_pos := PositiveLimit.noLimit.property
    maxLines_pos := PositiveLimit.noLimit.property
    maxColumns_pos := PositiveLimit.noLimit.property }

def Session.unlimited (s : Session) : Session := { s with screen := s.screen.unlimited }

def Step.unlimited (r : Step) : Step := { r with session := r.session.unlimited }

theorem Step.unlimited_andThen {r : Step} {f g : Session → Step}
    (h : r.fault = none → r.session.finished = false → (f r.session).unlimited = g r.session.unlimited) :
    (r.andThen f).unlimited = r.unlimited.andThen g := by
  obtain ⟨s, _ | e, notes⟩ := r
  · cases hf : s.finished with
    | true =>
      have hstop : (unlimited ⟨s, none, notes⟩).andThen g = _ := andThen_of_finished hf g
      rw [andThen_of_finished (r := ⟨s, none, notes⟩) hf, hstop]
    | false =>
      have hopen : (unlimited ⟨s, none, notes⟩).andThen g = _ := andThen_of_open rfl hf g
      rw [andThen_of_open (r := ⟨s, none, notes⟩) rfl hf, hopen,
        show (unlimited ⟨s, none, notes⟩).session = s.unlimited from rfl, ← h rfl hf]
      rfl
  · rfl

/-- A place that the limits of the settings allow. -/
structure Config.Admits (cfg : Config) (c : Cursor) : Prop where
  row_lt : ∀ n ∈ cfg.maxLines, c.row < n
  column_lt : ∀ n ∈ cfg.maxColumns, c.column < n

instance (cfg : Config) (c : Cursor) : Decidable (cfg.Admits c) :=
  decidable_of_iff ((∀ n ∈ cfg.maxLines, c.row < n) ∧ ∀ n ∈ cfg.maxColumns, c.column < n)
    ⟨fun h ↦ ⟨h.1, h.2⟩, fun h ↦ ⟨h.1, h.2⟩⟩

theorem Config.Admits.onScreen {cfg : Config} {c : Cursor} (h : cfg.Admits c) {s : Screen} (hs : cfg.Kept s) :
    s.Admits c where
  row_lt := by
    rw [hs.maxLines_eq]
    exact Session.room_of h.row_lt
  column_lt := by
    rw [hs.maxColumns_eq]
    exact Session.room_of h.column_lt

namespace Tokenizer

/-- A sequence that is being read has room for one more byte. -/
def HasRoom (maxLength : Option Nat) (t : Tokenizer) : Prop :=
  ∀ p, t = .body p → ∀ n ∈ maxLength, p.length < n

theorem next_unlimited {maxLength : Option Nat} {t : Tokenizer} (h : t.HasRoom maxLength) (strict : Bool)
    (b : UInt8) : t.next strict (maxLength.map Int.ofNat) b = t.next strict none b := by
  cases t with
  | ground | escape | discard => rfl
  | body p =>
    have hroom := p.filter_room (Session.room_of (h p rfl))
    have hpush : p.push strict (maxLength.map Int.ofNat) b = p.push strict none b := by
      unfold Sequence.Partial.push
      dsimp only
      rw [hroom]
      rfl
    rw [next_body, next_body, hpush]

end Tokenizer

namespace Session

variable (cfg : Config) {s : Session}

theorem onScreen_unlimited {f g : Screen → Outcome Screen} (s : Session)
    (h : (f s.screen).map Screen.unlimited = g s.screen.unlimited) :
    (s.onScreen f).unlimited = s.unlimited.onScreen g := by
  rw [onScreen_eq, onScreen_eq, show s.unlimited.screen = s.screen.unlimited from rfl, ← h]
  rfl

theorem report_unlimited (s : Session) (f : Fault) :
    (s.report cfg f).unlimited = s.unlimited.report cfg.unlimited f := by
  unfold report
  rw [show cfg.unlimited.strict = cfg.strict from rfl]
  split <;> rfl

theorem put_unlimited {b : UInt8}
    (h : s.screen.Admits (s.unlimited.put cfg.unlimited b).session.screen.cursor) :
    (s.put cfg b).unlimited = s.unlimited.put cfg.unlimited b := by
  rw [put_eq] at h
  rw [put_eq, put_eq]
  exact onScreen_unlimited _ (Screen.unlimited_writeAll h.row_lt)

theorem flushed_unlimited
    (h : s.screen.Admits (s.unlimited.flushed cfg.unlimited).state.cursor) :
    (s.flushed cfg).map Screen.unlimited = s.unlimited.flushed cfg.unlimited :=
  Screen.unlimited_writeAll h.row_lt

theorem close_unlimited
    (h : s.screen.Admits (s.unlimited.close cfg.unlimited).session.screen.cursor) :
    (s.close cfg).unlimited = s.unlimited.close cfg.unlimited := by
  obtain hf | ⟨hf, f, ho, hc⟩ | ⟨hf, hc⟩ := close_cases cfg.unlimited s.unlimited
  · rw [close_finished hf, @close_finished cfg s hf]
    rfl
  · rw [close_stopped hf ho hc] at h ⊢
    have hflushed := flushed_unlimited cfg h
    rw [dropped, ← hflushed]
    rw [← hflushed] at ho
    rw [@close_stopped cfg s hf f ho hc]
    rfl
  · rw [close_done hf hc] at h ⊢
    have hflushed := flushed_unlimited cfg h
    rw [dropped, ← hflushed]
    rw [← hflushed] at hc
    rw [@close_done cfg s hf hc]
    rfl

theorem control_unlimited {b : UInt8}
    (h : s.screen.Admits (s.unlimited.control cfg.unlimited b).session.screen.cursor) :
    (s.control cfg b).unlimited = s.unlimited.control cfg.unlimited b := by
  unfold control at h ⊢
  split_ifs at h ⊢
  · rfl
  · exact onScreen_unlimited s (Screen.unlimited_moveTo_of_admits h)
  · have hclose := close_unlimited cfg h
    dsimp only
    rw [← hclose]
    rfl
  · rw [show cfg.unlimited.controlBytes = cfg.controlBytes from rfl] at h ⊢
    cases hc : cfg.controlBytes with
    | ignore => exact report_unlimited cfg s _
    | blank =>
      rw [hc] at h
      exact onScreen_unlimited s (Screen.unlimited_write h.row_lt)
    | glyph =>
      rw [hc] at h
      exact put_unlimited cfg h

theorem command_unlimited (c : Command) (ps : Params) (hs : s.screen.Admits s.screen.cursor)
    (h : s.screen.Admits (s.unlimited.command cfg.unlimited c ps).session.screen.cursor) :
    (s.command cfg c ps).unlimited = s.unlimited.command cfg.unlimited c ps := by
  -- where the command is refused, its outcome alone does not say where the cursor goes
  have hperform : s.screen.Admits (s.screen.unlimited.perform c ps).state.cursor →
      (s.screen.perform c ps).map Screen.unlimited = s.screen.unlimited.perform c ps := Screen.unlimited_perform
  have hfault : s.screen.Admits (s.screen.unlimited.perform c ps).state.cursor →
      (s.screen.perform c ps).fault = (s.unlimited.screen.perform c ps).fault :=
    fun ha ↦ (congrArg Outcome.fault (hperform ha) :)
  obtain hf | ⟨f, hf, hr, hc⟩ := command_cases cfg.unlimited s.unlimited c ps
  · rw [command_accepted hf] at h ⊢
    rw [command_accepted (by rwa [hfault h])]
    exact onScreen_unlimited s (hperform h)
  · have hstays : (s.screen.unlimited.perform c ps).state = s.screen.unlimited :=
      Screen.perform_refused hf (not_ofScreen_of_isRefusal hr)
    have hf' : (s.screen.perform c ps).fault = some f := by
      rw [hfault (by rw [hstays]; exact hs), hf]
    obtain hc | ⟨hc, rfl⟩ := hc
    · rw [command_refused hf hr hc, @command_refused cfg s c ps f hf' hr hc]
      exact report_unlimited cfg s f
    · rw [command_row hf hr hc] at h ⊢
      have hrow := Screen.unlimited_moveToRow h
      rw [@command_row cfg s ps f hf' hr hc, show s.unlimited.screen = s.screen.unlimited from rfl, ← hrow]
      rfl

theorem dispatch_unlimited (q : Sequence) (hs : s.screen.Admits s.screen.cursor)
    (h : s.screen.Admits (s.unlimited.dispatch cfg.unlimited q).session.screen.cursor) :
    (s.dispatch cfg q).unlimited = s.unlimited.dispatch cfg.unlimited q := by
  unfold dispatch at h ⊢
  split_ifs at h ⊢
  · rfl
  · rfl
  · split at h
    · exact report_unlimited cfg s _
    · exact command_unlimited cfg _ _ hs h

theorem perform_unlimited (t : Token) (hs : s.screen.Admits s.screen.cursor)
    (h : s.screen.Admits (s.unlimited.perform cfg.unlimited t).session.screen.cursor) :
    (s.perform cfg t).unlimited = s.unlimited.perform cfg.unlimited t := by
  cases t with
  | byte b =>
    simp only [perform] at h ⊢
    split at h
    · rename_i hb
      rw [if_pos hb, if_pos hb]
      exact put_unlimited cfg h
    · rename_i hb
      rw [if_neg hb, if_neg hb]
      exact control_unlimited cfg h
  | sequence q =>
    have hdispatch := dispatch_unlimited cfg q hs h
    dsimp only [perform]
    rw [← hdispatch]
    rfl
  | fault f => exact report_unlimited cfg s f

theorem settle_unlimited (r : Step) : (settle cfg r).unlimited = settle cfg.unlimited r.unlimited := by
  obtain ⟨hn, he⟩ | ⟨n, hn, he⟩ := settle_cases cfg r
  · obtain ⟨-, he'⟩ | ⟨n, hn', -⟩ := settle_cases cfg.unlimited r.unlimited
    · rw [he, he']
    · exact absurd hn' (hn n)
  · obtain ⟨hn', -⟩ | ⟨m, hm, he'⟩ := settle_cases cfg.unlimited r.unlimited
    · exact absurd hn (hn' n)
    · cases hn.symm.trans hm
      rw [he, he']
      rfl

theorem push_unlimited {b : UInt8} (hs : s.screen.Admits s.screen.cursor)
    (hroom : s.finished = false → s.tokenizer.HasRoom cfg.maxSequenceLength)
    (h : s.screen.Admits (s.unlimited.push cfg.unlimited b).session.screen.cursor) :
    (s.push cfg b).unlimited = s.unlimited.push cfg.unlimited b := by
  have hnext := fun hf ↦ Tokenizer.next_unlimited (hroom hf) cfg.strict b
  obtain ⟨hf, he⟩ | ⟨hf, t, ht, he⟩ | ⟨hf, t, token, ht, he⟩ := push_cases cfg s b
  · rw [he]
    exact (@push_finished cfg.unlimited s.unlimited hf b).symm
  · rw [he]
    exact (@push_none cfg.unlimited s.unlimited hf t b ((hnext hf).symm.trans ht)).symm
  · have hpush := @push_token cfg.unlimited s.unlimited hf t b token ((hnext hf).symm.trans ht)
    rw [hpush, settle_session] at h
    rw [he, hpush, settle_unlimited]
    congr 1
    exact perform_unlimited cfg (s := { s with tokenizer := t, offset := s.offset + 1 }) token hs h

section

variable {cfg}

/-- What a session reads without limits stays within those of the settings. -/
structure Roomy (cfg : Config) (s : Session) (bs : List UInt8) : Prop where
  admits : ∀ as, as <+: bs → cfg.Admits (s.feed cfg.unlimited as).session.screen.cursor
  room : ∀ as b, as ++ [b] <+: bs → (s.feed cfg.unlimited as).fault = none →
    (s.feed cfg.unlimited as).session.finished = false →
    (s.feed cfg.unlimited as).session.tokenizer.HasRoom cfg.maxSequenceLength

theorem Roomy.tail {b : UInt8} {bs : List UInt8} (h : s.Roomy cfg (b :: bs))
    (hn : (s.push cfg.unlimited b).fault = none) (hf : (s.push cfg.unlimited b).session.finished = false) :
    (s.push cfg.unlimited b).session.Roomy cfg bs := by
  have hfeed : ∀ as, (s.feed cfg.unlimited (b :: as)).session =
      ((s.push cfg.unlimited b).session.feed cfg.unlimited as).session ∧
      (s.feed cfg.unlimited (b :: as)).fault =
        ((s.push cfg.unlimited b).session.feed cfg.unlimited as).fault := by
    intro as
    rw [feed_cons, Step.andThen_of_open hn hf]
    exact ⟨rfl, rfl⟩
  refine ⟨fun as hp ↦ ?_, fun as c hp ↦ ?_⟩
  · rw [← (hfeed as).1]
    exact h.admits (b :: as) (List.cons_prefix_cons.mpr ⟨rfl, hp⟩)
  · rw [← (hfeed as).1, ← (hfeed as).2]
    exact h.room (b :: as) c (List.cons_prefix_cons.mpr ⟨rfl, hp⟩)

theorem feed_unlimited (hs : cfg.Kept s.screen) {bs : List UInt8} (h : s.unlimited.Roomy cfg bs) :
    (s.feed cfg bs).unlimited = s.unlimited.feed cfg.unlimited bs := by
  induction bs generalizing s with
  | nil => rfl
  | cons b bs ih =>
    have hpush : (s.push cfg b).unlimited = s.unlimited.push cfg.unlimited b := by
      have hafter := h.admits [b] (by simp)
      rw [feed_singleton] at hafter
      exact push_unlimited cfg ((h.admits [] List.nil_prefix).onScreen hs) (h.room [] b (by simp) rfl)
        (hafter.onScreen hs)
    rw [feed_cons, feed_cons, ← hpush]
    refine Step.unlimited_andThen fun hn hf ↦ ih ((push_leads cfg s b).kept hs) ?_
    have htail : (s.unlimited.push cfg.unlimited b).session.Roomy cfg bs :=
      h.tail (by rw [← hpush]; exact hn) (by rw [← hpush]; exact hf)
    rw [← hpush] at htail
    exact htail

end

end Session

/-- Without limits, a text leads to no row and no column that the limits exclude, and each of its sequences,
complete or cut, is as short as they say. -/
structure Config.Contains (cfg : Config) (bs : List UInt8) : Prop where
  feed : ∀ as, as <+: bs →
    cfg.Admits ((Session.start cfg.unlimited).feed cfg.unlimited as).session.screen.cursor
  decode : cfg.Admits (cfg.unlimited.decode bs).session.screen.cursor
  sequence : ∀ before seq, before ++ 0x1b :: 0x5b :: seq <+: bs → cfg.unlimited.LeavesOpen before →
    (∀ b ∈ seq.dropLast, Sequence.continues b = true) → ∀ n ∈ cfg.maxSequenceLength, seq.length ≤ n

namespace Config

variable {cfg : Config} {bs : List UInt8}

/-- The text alone says where a sequence can be cut off, so that containment can be computed. -/
theorem contains_iff : cfg.Contains bs ↔
    (∀ as ∈ bs.inits, cfg.Admits ((Session.start cfg.unlimited).feed cfg.unlimited as).session.screen.cursor) ∧
    cfg.Admits (cfg.unlimited.decode bs).session.screen.cursor ∧
    ∀ as ∈ bs.inits, ∀ before ∈ as.inits, ∀ seq ∈ as.tails, as = before ++ 0x1b :: 0x5b :: seq →
      cfg.unlimited.LeavesOpen before → seq.dropLast.all Sequence.continues →
      ∀ n ∈ cfg.maxSequenceLength, seq.length ≤ n := by
  simp only [List.mem_inits, List.mem_tails, List.all_eq_true]
  constructor
  · rintro ⟨hfeed, hdecode, hseq⟩
    refine ⟨hfeed, hdecode, fun as hp before _ seq _ he ↦ ?_⟩
    subst he
    exact hseq before seq hp
  · rintro ⟨hfeed, hdecode, hseq⟩
    refine ⟨hfeed, hdecode, fun before seq hp ↦ hseq _ hp before (List.prefix_append _ _) seq ?_ rfl⟩
    exact ⟨before ++ [0x1b, 0x5b], by simp⟩

instance : Decidable (cfg.Contains bs) := decidable_of_iff _ contains_iff.symm

theorem Contains.roomy (h : cfg.Contains bs) : (Session.start cfg.unlimited).Roomy cfg bs where
  admits := h.feed
  room as b hp hn hf p ht n hn' := by
    obtain ⟨before, body, rfl, hopen, hbody, rfl⟩ := Session.feed_body hn hf ht
    have hshort := h.sequence before (body ++ [b]) (by simpa using hp) hopen (by simpa using hbody) n hn'
    have hlength : (body.foldl Sequence.Partial.extend {}).length = 0 + body.length :=
      Sequence.Partial.length_foldl_extend {} body
    rw [List.length_append, List.length_singleton] at hshort
    omega

theorem decode_unlimited (h : cfg.Contains bs) : (cfg.decode bs).unlimited = cfg.unlimited.decode bs := by
  have hfeed : ((Session.start cfg).feed cfg bs).unlimited =
      (Session.start cfg.unlimited).feed cfg.unlimited bs :=
    Session.feed_unlimited (Session.start_kept cfg) h.roomy
  have hkept : cfg.Kept ((Session.start cfg).feed cfg bs).session.screen := by
    obtain ⟨as, -, he⟩ := Session.feedFrom_prefix cfg bs (Session.start cfg) []
    rw [Session.feed, he]
    exact Session.pushAll_kept cfg as
  have hadmits := h.decode
  unfold decode Session.read at hadmits ⊢
  rw [← hfeed] at hadmits ⊢
  generalize (Session.start cfg).feed cfg bs = r at hadmits hkept ⊢
  obtain ⟨s, _ | f, notes⟩ := r
  · have hclose := Session.close_unlimited cfg (s := s) (hadmits.onScreen hkept)
    dsimp only [Step.unlimited] at hclose ⊢
    rw [← hclose]
  · rfl

end Config

end TermCapture
