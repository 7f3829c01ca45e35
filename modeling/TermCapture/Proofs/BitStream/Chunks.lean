import TermCapture.Source

namespace TermCapture

namespace BitStream

variable {σ : Type}

/-- What is relied on of a stream, `left` being the bytes from its position on. Where there are `k` of them, at least
one, reading `k` bytes gives the first `k` and moves behind them. -/
structure Exact (t : BitStream σ) (left : σ → List UInt8) : Prop where
  length_eq (s : σ) : t.length s = t.pos s + 8 * (left s).length
  read_eq {k : Nat} {s : σ} (hk : 0 < k) (h : k ≤ (left s).length) : ∃ s',
    t.read? k s = some ((left s).take k, s') ∧ left s' = (left s).drop k ∧ t.pos s' = t.pos s + 8 * k

/-- Reading in chunks of `n` bytes comes to an end: the chunks, and the stream behind them. -/
inductive Delivers (t : BitStream σ) (n : Nat) : σ → List (List UInt8) → σ → Prop
  | ended {s : σ} (h : t.turn n s = .ended) : Delivers t n s [] s
  | chunk {s s' e : σ} {c : List UInt8} {cs : List (List UInt8)} (h : t.turn n s = .chunk c s')
      (rest : Delivers t n s' cs e) : Delivers t n s (c :: cs) e

variable {t : BitStream σ} {left : σ → List UInt8} {n : Nat} {s s' e : σ} {c : List UInt8} {cs : List (List UInt8)}

theorem chunks_of_ended (h : t.turn n s = .ended) (count : Nat) : t.chunks n count s = ⟨[], s, none⟩ := by
  cases count with
  | zero => rfl
  | succ count => rw [chunks, h]

theorem chunks_of_chunk (h : t.turn n s = .chunk c s') (count : Nat) :
    t.chunks n (count + 1) s = { t.chunks n count s' with chunks := c :: (t.chunks n count s').chunks } := by
  rw [chunks, h]

namespace Delivers

theorem unique (h : t.Delivers n s cs e) {cs' : List (List UInt8)} {e' : σ} (h' : t.Delivers n s cs' e') :
    cs' = cs ∧ e' = e := by
  induction h generalizing cs' e' with
  | ended hturn =>
    cases h' with
    | ended => exact ⟨rfl, rfl⟩
    | chunk hturn' => cases hturn.symm.trans hturn'
  | chunk hturn _ ih =>
    cases h' with
    | ended hturn' => cases hturn.symm.trans hturn'
    | chunk hturn' h' =>
      cases hturn.symm.trans hturn'
      obtain ⟨rfl, rfl⟩ := ih h'
      exact ⟨rfl, rfl⟩

/-- Taking some chunks only takes the first ones. -/
theorem chunks_eq (h : t.Delivers n s cs e) (count : Nat) :
    ∃ e', t.chunks n count s = ⟨cs.take count, e', none⟩ ∧ (cs.length ≤ count → e' = e) := by
  induction h generalizing count with
  | @ended s hturn =>
    rw [List.take_nil]
    exact ⟨s, chunks_of_ended hturn count, fun _ ↦ rfl⟩
  | @chunk s _ _ c cs hturn _ ih =>
    cases count with
    | zero => exact ⟨s, rfl, nofun⟩
    | succ count =>
      obtain ⟨e', he, hend⟩ := ih count
      refine ⟨e', ?_, fun hc ↦ hend (Nat.le_of_succ_le_succ hc)⟩
      rw [chunks_of_chunk hturn, he, List.take_succ_cons]

theorem turn_end (h : t.Delivers n s cs e) : t.turn n e = .ended := by
  induction h with
  | ended hturn => exact hturn
  | chunk _ _ ih => exact ih

theorem of_chunks {count : Nat} (h : t.chunks n count s = ⟨cs, e, none⟩) (hend : t.turn n e = .ended) :
    t.Delivers n s cs e := by
  induction count generalizing s cs with
  | zero =>
    cases h
    exact .ended hend
  | succ count ih =>
    cases hturn : t.turn n s with
    | ended =>
      rw [chunks_of_ended hturn] at h
      cases h
      exact .ended hend
    | broken =>
      rw [chunks, hturn] at h
      cases h
    | chunk c s' =>
      rw [chunks_of_chunk hturn] at h
      cases hd : t.chunks n count s' with
      | mk cs' e' error =>
        rw [hd] at h
        cases h
        exact .chunk hturn (ih hd)

end Delivers

namespace Exact

variable (ht : t.Exact left)

include ht

theorem size_eq (s : σ) : t.size s = t.position s + (left s).length := by
  have h := ht.length_eq s
  unfold size position
  omega

theorem remaining_eq (s : σ) : t.remaining s = (left s).length := by
  rw [remaining, ht.size_eq, Nat.add_sub_cancel_left]

/-- The loop is over behind the last byte. Before, it asks for no more bytes than there are, and gets them. -/
theorem turn_cases (hn : 1 ≤ n) (s : σ) :
    (left s = [] ∧ t.turn n s = .ended) ∨
      (left s ≠ [] ∧ ∃ s', t.turn n s = .chunk ((left s).take n) s' ∧ left s' = (left s).drop n ∧
        t.position s' = t.position s + ((left s).take n).length) := by
  have hr := ht.remaining_eq s
  by_cases hl : left s = []
  · refine .inl ⟨hl, ?_⟩
    rw [turn, if_pos (by rw [hr, hl]; rfl)]
  · have hpos : 0 < (left s).length := List.length_pos_iff.mpr hl
    obtain ⟨s', hread, hleft, hpos'⟩ := ht.read_eq (Nat.lt_min.mpr ⟨hn, hpos⟩) (Nat.min_le_right n (left s).length)
    rw [← List.take_eq_take_min] at hread
    rw [← List.drop_eq_drop_min] at hleft
    refine .inr ⟨hl, s', ?_, hleft, ?_⟩
    · rw [turn, if_neg (by omega), hr, hread]
    · rw [List.length_take, position, hpos', Nat.add_mul_div_left _ _ (by decide)]
      rfl

/-- Whatever chunks are taken, their bytes come in order, and what is left follows on them. -/
theorem chunks_run (hn : 1 ≤ n) (count : Nat) (s : σ) :
    let d := t.chunks n count s
    d.error = none ∧ d.chunks.flatten ++ left d.stream = left s ∧
      t.position d.stream = t.position s + d.chunks.flatten.length ∧ ∀ c ∈ d.chunks, c ≠ [] ∧ c.length ≤ n := by
  induction count generalizing s with
  | zero => exact ⟨rfl, rfl, rfl, nofun⟩
  | succ count ih =>
    obtain ⟨-, hturn⟩ | ⟨hl, s', hturn, hleft, hposition⟩ := ht.turn_cases hn s
    · rw [chunks_of_ended hturn]
      exact ⟨rfl, rfl, rfl, nofun⟩
    · rw [chunks_of_chunk hturn]
      obtain ⟨herror, hflatten, hposition', hcs⟩ := ih s'
      have hne : (left s).take n ≠ [] := by
        rw [Ne, List.take_eq_nil_iff, not_or]
        exact ⟨by omega, hl⟩
      refine ⟨herror, ?_, ?_, ?_⟩
      · dsimp only
        rw [List.flatten_cons, List.append_assoc, hflatten, hleft, List.take_append_drop]
      · dsimp only
        rw [hposition', hposition, List.flatten_cons, List.length_append, Nat.add_assoc]
      · intro c hc
        obtain rfl | hc := List.mem_cons.mp hc
        · exact ⟨hne, List.length_take_le n (left s)⟩
        · exact hcs c hc

/-- Every chunk makes the bytes that are left fewer, so there are no more chunks than bytes. -/
theorem terminates (hn : 1 ≤ n) (s : σ) : ∃ cs e, t.Delivers n s cs e ∧ cs.length ≤ (left s).length := by
  induction hk : (left s).length using Nat.strongRecOn generalizing s with
  | ind k ih =>
    obtain ⟨-, hturn⟩ | ⟨hl, s', hturn, hleft, -⟩ := ht.turn_cases hn s
    · exact ⟨[], s, .ended hturn, Nat.zero_le _⟩
    · have hpos : 0 < (left s).length := List.length_pos_iff.mpr hl
      have hlt : (left s').length < k := by
        rw [hleft, List.length_drop]
        omega
      obtain ⟨cs, e, h, hlength⟩ := ih (left s').length hlt s' rfl
      exact ⟨_, e, .chunk hturn h, by rw [List.length_cons]; omega⟩

/-- A loop that comes to its end has delivered all that was left, in chunks that are neither empty nor longer than
asked. -/
theorem delivered (hn : 1 ≤ n) (h : t.Delivers n s cs e) :
    (∀ c ∈ cs, c ≠ [] ∧ c.length ≤ n) ∧ cs.flatten = left s ∧ left e = [] ∧ t.position e = t.size s := by
  obtain ⟨e', hchunks, he⟩ := h.chunks_eq cs.length
  obtain rfl := he (Nat.le_refl _)
  obtain ⟨-, hflatten, hposition, hcs⟩ := ht.chunks_run hn cs.length s
  rw [hchunks] at hflatten hposition hcs
  dsimp only at hflatten hposition hcs
  rw [List.take_length] at hflatten hposition hcs
  have hend : left e' = [] := by
    obtain ⟨hl, -⟩ | ⟨-, s', hturn, -⟩ := ht.turn_cases hn e'
    · exact hl
    · cases hturn.symm.trans h.turn_end
  rw [hend, List.append_nil] at hflatten
  refine ⟨hcs, hflatten, hend, ?_⟩
  rw [hposition, hflatten, ht.size_eq]

end Exact

end BitStream

namespace Source

theorem stream_exact : stream.Exact Source.rest where
  length_eq s := by
    change 8 * (s.position + s.rest.length) = 8 * s.position + 8 * s.rest.length
    omega
  read_eq {k s} _ h := by
    refine ⟨_, if_pos h, rfl, ?_⟩
    change 8 * (s.position + min k s.rest.length) = 8 * s.position + 8 * k
    omega

theorem stream_position (s : Source) : stream.position s = s.position := Nat.mul_div_cancel_left _ (by decide)

theorem stream_size (s : Source) : stream.size s = s.size := Nat.mul_div_cancel_left _ (by decide)

/-- A source is read to its end, whatever the length of the chunks. -/
theorem allChunks_flatten {n : Nat} (hn : 1 ≤ n) (s : Source) :
    (s.allChunks n).1.flatten = s.rest ∧ (s.allChunks n).2 = ⟨[], s.size⟩ := by
  obtain ⟨cs, e, h, hlength⟩ := stream_exact.terminates hn s
  obtain ⟨e', hchunks, he⟩ := h.chunks_eq s.rest.length
  obtain rfl := he hlength
  obtain ⟨-, hflatten, hend, hposition⟩ := stream_exact.delivered hn h
  rw [stream_position, stream_size] at hposition
  rw [allChunks, chunks, hchunks]
  dsimp only
  rw [List.take_of_length_le hlength]
  refine ⟨hflatten, ?_⟩
  rw [← hend, ← hposition]

end Source

end TermCapture
