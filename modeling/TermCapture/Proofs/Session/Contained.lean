import TermCapture.Proofs.Session.Limits

namespace TermCapture

namespace Session

variable {cfg : Config} {f : Fault}

/-- Where a feed is not stopped by a fault of the input, the byte that stops it breaks the session. -/
theorem feed_fault {s : Session} (h : s.Bounded cfg) {bs : List UInt8} (hf : (s.feed cfg bs).fault = some f) :
    f.isOfInput = true ∨ ∃ as b, as ++ [b] <+: bs ∧ (s.feed cfg as).fault = none ∧
      (s.feed cfg as).session.Breaks cfg b := by
  induction bs generalizing s with
  | nil => cases hf
  | cons b bs ih =>
    rw [feed_cons] at hf
    cases hpush : (s.push cfg b).fault with
    | some g =>
      rw [Step.andThen_of_fault hpush, hpush] at hf
      cases hf
      obtain hi | hb := push_fault h hpush
      · exact .inl hi
      · exact .inr ⟨[], b, by simp, rfl, hb⟩
    | none =>
      cases hend : (s.push cfg b).session.finished with
      | true =>
        rw [Step.andThen_of_finished hend, hpush] at hf
        cases hf
      | false =>
        rw [Step.andThen_of_open hpush hend] at hf
        have hbounded := (push_safe h b).2.2 fun g hg ↦ by cases hpush.symm.trans hg
        refine (ih hbounded hf).imp_right ?_
        rintro ⟨as, c, hp, hn, hb⟩
        refine ⟨b :: as, c, List.cons_prefix_cons.mpr ⟨rfl, hp⟩, ?_⟩
        rw [feed_cons, Step.andThen_of_open hpush hend]
        exact ⟨hn, hb⟩

theorem decode_fault {bs : List UInt8} (hf : (cfg.decode bs).fault = some f) :
    f.isOfInput = true ∨
      (∃ as b, as ++ [b] <+: bs ∧ ((start cfg).feed cfg as).fault = none ∧
        ((start cfg).feed cfg as).session.Breaks cfg b) ∨
      ((start cfg).feed cfg bs).fault = none ∧ ((start cfg).feed cfg bs).session.BreaksAtEnd cfg := by
  rw [Config.decode, read] at hf
  dsimp only at hf
  split at hf
  · rename_i g hg
    cases hf
    exact (feed_fault (start_bounded cfg) hg).imp_right .inl
  · rename_i hn
    cases hi : f.isOfInput with
    | true => exact .inl rfl
    | false =>
      have hbounded := (feedFrom_bounded (start_bounded cfg) bs []).2 hn
      exact .inr (.inr ⟨hn, (close_breaks_iff hbounded).mp ⟨f, hf, hi⟩⟩)

end Session

namespace Config.Contains

variable {cfg : Config} {bs : List UInt8} (h : cfg.Contains bs)

include h

theorem not_tooFar (hc : ∃ n ∈ cfg.maxColumns, n ≤ Screen.maxBlanks) {as : List UInt8} (hp : as <+: bs) :
    ¬((Session.start cfg.unlimited).feed cfg.unlimited as).session.screen.TooFar := by
  obtain ⟨n, hn, hle⟩ := hc
  have hcolumn := (h.feed as hp).column_lt n hn
  unfold Screen.TooFar
  omega

/-- A sequence that is no longer than the limit has no number with more digits than that. -/
theorem writable (hs : ∃ n ∈ cfg.maxSequenceLength, n ≤ Text.maxDigits) {as : List UInt8} {b : UInt8}
    (hp : as ++ [b] <+: bs) (hn : ((Session.start cfg.unlimited).feed cfg.unlimited as).fault = none)
    (hf : ((Session.start cfg.unlimited).feed cfg.unlimited as).session.finished = false)
    {p : Sequence.Partial} (ht : ((Session.start cfg.unlimited).feed cfg.unlimited as).session.tokenizer = .body p) :
    (p.complete b).params.Writable := by
  obtain ⟨n, hlimit, hle⟩ := hs
  obtain ⟨before, body, rfl, hopen, hbody, rfl⟩ := Session.feed_body hn hf ht
  have hshort := h.sequence before (body ++ [b]) (by simpa using hp) hopen (by simpa using hbody) n hlimit
  have hlength : (body.foldl Sequence.Partial.extend {}).length = 0 + body.length :=
    Sequence.Partial.length_foldl_extend {} body
  intro k hk
  have hlt := (Sequence.Partial.short_foldl Sequence.Partial.short_empty body).of_complete b k hk
  have hmono : ∀ {m n : Nat}, m ≤ n → Nat.pow 10 m ≤ Nat.pow 10 n := Nat.pow_le_pow_right (by decide)
  refine Nat.lt_of_lt_of_le hlt (hmono ?_)
  rw [List.length_append, List.length_singleton] at hshort
  omega

/-- Within limits that are small enough, a text raises faults of the input only. -/
theorem isOfInput (hs : ∃ n ∈ cfg.maxSequenceLength, n ≤ Text.maxDigits)
    (hc : ∃ n ∈ cfg.maxColumns, n ≤ Screen.maxBlanks) {f : Fault} (hf : (cfg.decode bs).fault = some f) :
    f.isOfInput = true := by
  have hnames : cfg.unlimited.NamesLimit := nofun
  have hbounded : ∀ {as}, ((Session.start cfg.unlimited).feed cfg.unlimited as).fault = none →
      ((Session.start cfg.unlimited).feed cfg.unlimited as).session.Bounded cfg.unlimited :=
    (Session.feedFrom_bounded (Session.start_bounded cfg.unlimited) _ []).2
  have hfault : (cfg.unlimited.decode bs).fault = some f := by
    rw [← decode_unlimited h]
    exact hf
  obtain hi | ⟨as, b, hp, hn, hb⟩ | ⟨hn, hb⟩ := Session.decode_fault hfault
  · exact hi
  · exfalso
    cases hb with
    | overflow _ _ _ hfar => exact h.not_tooFar hc ((List.prefix_append as [b]).trans hp) hfar
    | digits hopen hq _ _ _ hw =>
      obtain ⟨p, ht, rfl⟩ := Tokenizer.sequence_of_next (Prod.ext rfl hq)
      exact hw (h.writable hs hp hn hopen ht)
    | limit hf hu => exact (Session.push_safe (hbounded hn) b).2.1 _ hf hu hnames
  · exfalso
    cases hb with
    | overflow _ _ hfar => exact h.not_tooFar hc List.prefix_rfl hfar
    | limit hf hu => exact (Session.close_safe (hbounded hn)).unnamed _ hf hu hnames

end Config.Contains

end TermCapture
