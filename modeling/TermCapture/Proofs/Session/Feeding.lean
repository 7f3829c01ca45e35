import Mathlib.Data.List.Induction
import TermCapture.Proofs.Session.Endings
import TermCapture.Proofs.Session.Lexemes
import TermCapture.Proofs.Session.Refusals

namespace TermCapture

namespace Sequence.Partial

variable {strict : Bool} {maxLength : Option Int} {p q : Partial} {b : UInt8}

/-- What strict reading accepts is read like tolerantly. -/
theorem commit_permissive_of_ok (h : p.commit strict = .ok q) : p.commit false = .ok q := by
  unfold commit skip at h ⊢
  split at h
  · exact h
  · split at h
    · cases h
    · exact h

theorem finish_permissive_of_ok (h : p.finish strict = .ok q) : p.finish false = .ok q := by
  unfold finish at h ⊢
  split_ifs at h ⊢
  · exact h
  · exact commit_permissive_of_ok h

theorem more_of_push (h : p.push strict maxLength b = .more q) : continues b = true ∧ q = p.extend b := by
  unfold push at h
  dsimp only at h
  rw [continues_iff]
  split at h
  · cases h
  · split_ifs at h with hd hs hq hb
    · cases h
      exact ⟨.inl hd, (extend_digit p hd).symm⟩
    · split at h <;> cases h
      rename_i hcommit
      have hpermissive := commit_permissive_of_ok hcommit
      rw [commit_permissive] at hpermissive
      cases hpermissive
      subst b
      exact ⟨.inr (.inl rfl), p.extend_semicolon.symm⟩
    · cases h
      subst b
      exact ⟨.inr (.inr (.inl rfl)), rfl⟩
    · cases h
      subst b
      exact ⟨.inr (.inr (.inr rfl)), rfl⟩
    · split at h <;> cases h

theorem done_of_push {s : Sequence} (h : p.push strict maxLength b = .done s q) : s = p.complete b := by
  unfold push at h
  dsimp only at h
  split at h
  · cases h
  · split_ifs at h
    · split at h <;> cases h
    · split at h <;> cases h
      rename_i hfinish
      obtain ⟨r, hr, hprivate, hparams⟩ := finish_permissive { p with length := p.length + 1 }
      rw [finish_permissive_of_ok hfinish] at hr
      cases hr
      simp only [complete, hprivate, hparams]
      rfl

end Sequence.Partial

namespace Tokenizer

variable {strict : Bool} {maxLength : Option Int} {t : Tokenizer} {b : UInt8}

theorem ground_of_next (h : t.next strict maxLength b = (.escape, none)) : t = .ground ∧ b = 0x1b := by
  cases t with
  | ground =>
    rw [next_ground] at h
    split at h <;> cases h
    exact ⟨rfl, ‹_›⟩
  | escape =>
    rw [next_escape] at h
    split at h <;> cases h
  | body p =>
    rw [next_body] at h
    split at h
    · cases h
    · cases h
    · cases congrArg Prod.snd h
  | discard =>
    rw [next_discard] at h
    split at h <;> cases h

/-- A sequence is being read behind its introducer and behind a byte that it goes on with. -/
theorem body_of_next {p : Sequence.Partial} (h : t.next strict maxLength b = (.body p, none)) :
    (t = .escape ∧ b = 0x5b ∧ p = {}) ∨
      ∃ q, t = .body q ∧ Sequence.continues b = true ∧ p = q.extend b := by
  cases t with
  | ground =>
    rw [next_ground] at h
    split at h <;> cases h
  | escape =>
    rw [next_escape] at h
    split at h <;> cases h
    exact .inl ⟨rfl, ‹_›, rfl⟩
  | body q =>
    rw [next_body] at h
    split at h
    · cases h
      exact .inr ⟨q, rfl, Sequence.Partial.more_of_push ‹_›⟩
    · cases h
    · cases congrArg Prod.snd h
  | discard =>
    rw [next_discard] at h
    split at h <;> cases h

/-- A sequence is complete behind a body and its final byte. -/
theorem sequence_of_next {t' : Tokenizer} {q : Sequence} (h : t.next strict maxLength b = (t', some (.sequence q))) :
    ∃ p, t = .body p ∧ q = p.complete b := by
  cases t with
  | ground =>
    rw [next_ground] at h
    split at h <;> cases h
  | escape =>
    rw [next_escape] at h
    split at h <;> cases h
  | body p =>
    rw [next_body] at h
    split at h <;> cases h
    exact ⟨p, rfl, Sequence.Partial.done_of_push ‹_›⟩
  | discard =>
    rw [next_discard] at h
    cases h

/-- A token is complete outside of sequences, but for one that is too long. -/
theorem ends_of_next {t' : Tokenizer} {token : Token} (h : t.next strict maxLength b = (t', some token)) :
    t' = .ground ∨ t' = .discard := by
  obtain ⟨rfl, -⟩ | ⟨f, -, rfl⟩ := next_completes h
  · exact .inl rfl
  · obtain ⟨-, -, he⟩ | ⟨-, he⟩ := behindRefusal_cases f b
    · exact .inr he
    · exact .inl he

end Tokenizer

namespace Session

variable {cfg : Config} {s : Session}

theorem perform_tokenizer (cfg : Config) (s : Session) (token : Token) :
    (s.perform cfg token).session.tokenizer = s.tokenizer ∨ (s.perform cfg token).session.tokenizer = .ground := by
  have hclose : (s.close cfg).session.tokenizer = .ground := by
    obtain hf | ⟨hf, f, ho, hc⟩ | ⟨hf, hc⟩ := close_cases cfg s
    · rw [close_finished hf]
    · rw [close_stopped hf ho hc]
      rfl
    · rw [close_done hf hc]
      rfl
  cases token with
  | byte b =>
    simp only [perform, control]
    split_ifs
    · exact .inl rfl
    · exact .inl rfl
    · exact .inl rfl
    · exact .inr hclose
    · cases cfg.controlBytes with
      | ignore => exact .inl (by rw [report_session])
      | blank | glyph => exact .inl rfl
  | sequence q => exact .inl (dispatch_inner cfg s q).tokenizer_eq
  | fault f => exact .inl (by rw [perform, report_session])

/-- Where a text stands behind a byte, when the byte is part of something longer. -/
theorem push_tokenizer {t : Tokenizer} {b : UInt8} (hf : s.finished = false)
    (ht : (s.push cfg b).session.tokenizer = t) (hground : t ≠ .ground) (hdiscard : t ≠ .discard) :
    s.tokenizer.next cfg.strict (cfg.maxSequenceLength.map Int.ofNat) b = (t, none) := by
  obtain ⟨hf', -⟩ | ⟨-, t', hnext, he⟩ | ⟨-, t', token, hnext, he⟩ := push_cases cfg s b
  · rw [hf] at hf'
    cases hf'
  · rw [he] at ht
    rw [hnext, ← ht]
  · rw [he, settle_session] at ht
    obtain hp | hp := perform_tokenizer cfg { s with tokenizer := t', offset := s.offset + 1 } token
    · obtain rfl : t' = t := hp.symm.trans ht
      exact (Tokenizer.ends_of_next hnext).elim (absurd · hground) (absurd · hdiscard)
    · exact absurd (ht.symm.trans hp) hground

theorem feed_concat {bs : List UInt8} {b : UInt8} (h : (s.feed cfg (bs ++ [b])).fault = none)
    (hf : (s.feed cfg (bs ++ [b])).session.finished = false) :
    (s.feed cfg bs).fault = none ∧ (s.feed cfg bs).session.finished = false ∧
      (s.feed cfg (bs ++ [b])).session = ((s.feed cfg bs).session.push cfg b).session := by
  rw [feed_append] at h hf ⊢
  unfold Step.andThen at h hf ⊢
  split at h
  · rename_i hstop
    rw [if_pos hstop] at hf
    simp [h, hf] at hstop
  · rename_i hgo
    dsimp only
    rw [if_neg hgo, feed_singleton]
    simpa using hgo

end Session

/-- The bytes leave a session that no fault has stopped, that is not finished and that is outside of a sequence. -/
structure Config.LeavesOpen (cfg : Config) (bs : List UInt8) : Prop where
  fault : ((Session.start cfg).feed cfg bs).fault = none
  finished : ((Session.start cfg).feed cfg bs).session.finished = false
  ground : ((Session.start cfg).feed cfg bs).session.tokenizer = .ground

instance (cfg : Config) (bs : List UInt8) : Decidable (cfg.LeavesOpen bs) :=
  decidable_of_iff (((Session.start cfg).feed cfg bs).fault = none ∧
      ((Session.start cfg).feed cfg bs).session.finished = false ∧
      ((Session.start cfg).feed cfg bs).session.tokenizer = .ground)
    ⟨fun h ↦ ⟨h.1, h.2.1, h.2.2⟩, fun h ↦ ⟨h.fault, h.finished, h.ground⟩⟩

namespace Session

variable {cfg : Config} {bs : List UInt8}

section

variable (h : ((start cfg).feed cfg bs).fault = none) (hf : ((start cfg).feed cfg bs).session.finished = false)

include h hf

theorem feed_escape (ht : ((start cfg).feed cfg bs).session.tokenizer = .escape) :
    ∃ before, bs = before ++ [0x1b] ∧ cfg.LeavesOpen before := by
  obtain rfl | ⟨as, b, rfl⟩ := List.eq_nil_or_concat bs
  · cases ht
  · rw [List.concat_eq_append] at *
    obtain ⟨h', hf', he⟩ := feed_concat h hf
    rw [he] at ht
    obtain ⟨hground, rfl⟩ := Tokenizer.ground_of_next (push_tokenizer hf' ht (by simp) (by simp))
    exact ⟨as, rfl, h', hf', hground⟩

/-- A sequence that is being read goes back to an escape outside of sequences. -/
theorem feed_body {p : Sequence.Partial} (ht : ((start cfg).feed cfg bs).session.tokenizer = .body p) :
    ∃ before body, bs = before ++ 0x1b :: 0x5b :: body ∧ cfg.LeavesOpen before ∧
      (∀ b ∈ body, Sequence.continues b = true) ∧ p = body.foldl Sequence.Partial.extend {} := by
  induction bs using List.reverseRecOn generalizing p with
  | nil => cases ht
  | append_singleton as b ih =>
    obtain ⟨h', hf', he⟩ := feed_concat h hf
    rw [he] at ht
    obtain ⟨hescape, rfl, rfl⟩ | ⟨q, hq, hb, rfl⟩ :=
      Tokenizer.body_of_next (push_tokenizer hf' ht (by simp) (by simp))
    · obtain ⟨before, rfl, hopen⟩ := feed_escape h' hf' hescape
      exact ⟨before, [], by simp, hopen, by simp, rfl⟩
    · obtain ⟨before, body, rfl, hopen, hbody, rfl⟩ := ih h' hf' hq
      refine ⟨before, body ++ [b], by simp, hopen, ?_, by simp⟩
      intro c hc
      obtain hc | hc := List.mem_append.mp hc
      · exact hbody c hc
      · rwa [List.mem_singleton.mp hc]

end

end Session

end TermCapture
