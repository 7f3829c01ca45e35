import TermCapture.Proofs.BitStream.Chunks
import TermCapture.Proofs.Session.Feeding
import TermCapture.Session.Stream

namespace TermCapture

open BitStream

namespace Session

variable {cfg : Config} {s : Session}

/-- Feeds the pieces of a text one after the other, until the session takes no more or a fault stops it. -/
def feedPieces (cfg : Config) : List (List UInt8) → Session → Step
  | [], s => ⟨s, none, []⟩
  | p :: ps, s =>
    let r := s.feed cfg p
    if r.fault.isSome || !wantsMore p r.session then r
    else
      let r' := feedPieces cfg ps r.session
      ⟨r'.session, r'.fault, r.notes ++ r'.notes⟩

theorem feedPieces_eq (cfg : Config) (ps : List (List UInt8)) (s : Session) :
    feedPieces cfg ps s = s.feed cfg ps.flatten := by
  induction ps generalizing s with
  | nil => rfl
  | cons p ps ih =>
    rw [feedPieces, List.flatten_cons, feed_append]
    dsimp only
    rw [ih]
    obtain ⟨t, _ | f, notes⟩ := s.feed cfg p
    · cases hf : t.finished with
      | true =>
        -- an empty piece is taken by a finished session, which it leaves as it is
        have hrest : t.feed cfg ps.flatten = ⟨t, none, []⟩ := feedFrom_finished hf ps.flatten []
        rw [Step.andThen_of_finished hf, hrest, List.append_nil]
        exact ite_self _
      | false =>
        have hmore : wantsMore p t = true := by
          rw [wantsMore, hf]
          exact Bool.or_true _
        rw [Step.andThen_of_open rfl hf, hmore]
        rfl
    · rfl

variable {σ : Type} {t : BitStream σ} {left : σ → List UInt8} {n : Nat} {src e : σ} {cs : List (List UInt8)}

/-- Feeding a stream feeds its chunks, as far as the session takes them. -/
theorem feedStream_chunks (h : t.Delivers n src cs e) {count : Nat} (hc : cs.length ≤ count) (s : Session) :
    feedStream cfg t n count src s = .ok (s.feed cfg cs.flatten) := by
  -- the derivation has a step for each turn of the loop
  induction h generalizing count s with
  | ended hturn =>
    cases count with
    | zero => rfl
    | succ count =>
      rw [feedStream, hturn]
      rfl
  | @chunk src src' e c cs hturn _ ih =>
    cases count with
    | zero => cases hc
    | succ count =>
      rw [feedStream, hturn, List.flatten_cons, feed_append, Step.andThen]
      dsimp only
      split
      · rfl
      · rw [ih (Nat.le_of_succ_le_succ hc)]
        rfl

theorem feedStream_eq (ht : t.Exact left) (hn : 1 ≤ n) {count : Nat} (hc : t.remaining src ≤ count) (s : Session) :
    feedStream cfg t n count src s = .ok (s.feed cfg (left src)) := by
  obtain ⟨cs, e, h, hlength⟩ := ht.terminates hn src
  obtain ⟨-, hflatten, -⟩ := ht.delivered hn h
  rw [ht.remaining_eq] at hc
  rw [feedStream_chunks h (hlength.trans hc), hflatten]

theorem read_eq (cfg : Config) (bs : List UInt8) (s : Session) :
    let r := (s.feed cfg bs).thenClose cfg
    s.read cfg bs = { r with notes := .reading bs.length :: r.notes } := by
  rw [read]
  obtain ⟨t, _ | f, notes⟩ := s.feed cfg bs <;> rfl

theorem readStream_eq (ht : t.Exact left) (src : σ) (s : Session) :
    let r := (s.feed cfg (left src)).thenClose cfg
    s.readStream cfg t src = .ok { r with notes := .reading (t.size src) :: r.notes } := by
  rw [readStream, feedStream_eq ht (by decide) (Nat.le_refl _)]
  rfl

/-- Reading a stream in chunks comes to an end and gives the bytes that are left, each once and in order. A session
that reads the stream comes to what it comes to when it is fed these bytes piece by piece and closed, however they
are cut. -/
theorem reads_in_pieces (ht : t.Exact left) (src : σ) :
    (∀ n, 1 ≤ n → ∃ cs e, (∀ cs' e', t.Delivers n src cs' e' ↔ cs' = cs ∧ e' = e) ∧
      (∀ c ∈ cs, c ≠ [] ∧ c.length ≤ n) ∧ cs.flatten = left src ∧ left e = [] ∧ t.position e = t.size src ∧
      ∀ count, ∃ e', t.chunks n count src = ⟨cs.take count, e', none⟩ ∧ (cs.length ≤ count → e' = e)) ∧
    ∀ (cfg : Config) (s : Session) (ps : List (List UInt8)), ps.flatten = left src →
      let r := (feedPieces cfg ps s).thenClose cfg
      (∀ n count, 1 ≤ n → t.remaining src ≤ count → feedStream cfg t n count src s = .ok (feedPieces cfg ps s)) ∧
      s.readStream cfg t src = .ok { r with notes := .reading (t.size src) :: r.notes } ∧
      (t.position src = 0 → s.readStream cfg t src = .ok (s.read cfg (left src))) := by
  refine ⟨fun n hn ↦ ?_, fun cfg s ps hps ↦ ?_⟩
  · obtain ⟨cs, e, h, -⟩ := ht.terminates hn src
    obtain ⟨hcs, hflatten, hend, hposition⟩ := ht.delivered hn h
    refine ⟨cs, e, fun cs' e' ↦ ⟨h.unique, ?_⟩, hcs, hflatten, hend, hposition, h.chunks_eq⟩
    rintro ⟨rfl, rfl⟩
    exact h
  · have hfed : feedPieces cfg ps s = s.feed cfg (left src) := by rw [feedPieces_eq, hps]
    have hread := @readStream_eq cfg σ t left ht src s
    rw [hfed]
    refine ⟨fun n count hn hc ↦ feedStream_eq ht hn hc s, hread, fun hstart ↦ ?_⟩
    have hsize := ht.size_eq src
    rw [hstart, Nat.zero_add] at hsize
    rw [hread, hsize, read_eq]

/-- Chunks of two bytes and pieces of other lengths both cut a character and a sequence. -/
theorem reads_in_pieces_across_sequence :
    let src : Source := ⟨[0x41, 0xc3, 0xa9, 0x1b, 0x5b, 0x31, 0x6d, 0x42], 0⟩
    let cs : List (List UInt8) := [[0x41, 0xc3], [0xa9, 0x1b], [0x5b, 0x31], [0x6d, 0x42]]
    let ps : List (List UInt8) := [[0x41], [0xc3], [], [0xa9, 0x1b, 0x5b], [0x31, 0x6d, 0x42]]
    let cfg : Config := {}
    let r := (feedPieces cfg ps (start cfg)).thenClose cfg
    Source.stream.Exact Source.rest ∧ ps.flatten = src.rest ∧ Source.stream.position src = 0 ∧
      (∀ cs' e, Source.stream.Delivers 2 src cs' e ↔ cs' = cs ∧ e = ⟨[], 8⟩) ∧
      (start cfg).readStream cfg Source.stream src = .ok { r with notes := .reading 8 :: r.notes } ∧
      (start cfg).readStream cfg Source.stream src = .ok ((start cfg).read cfg src.rest) ∧
      r.session.screen.text = "AéB" := by
  intro src cs ps cfg r
  obtain ⟨hchunks, hread⟩ := reads_in_pieces Source.stream_exact src
  obtain ⟨cs', e, hdelivers, -⟩ := hchunks 2 (by decide)
  have hrun : Source.stream.chunks 2 4 src = ⟨cs, ⟨[], 8⟩, none⟩ := by decide +kernel
  have hcs : Source.stream.Delivers 2 src cs ⟨[], 8⟩ := .of_chunks hrun (by decide +kernel)
  obtain ⟨rfl, rfl⟩ := (hdelivers _ _).mp hcs
  obtain ⟨-, hpieces, hwhole⟩ := hread cfg (start cfg) ps rfl
  have hstart : Source.stream.position src = 0 := Source.stream_position src
  have hsize : Source.stream.size src = 8 := Source.stream_size src
  rw [hsize] at hpieces
  exact ⟨Source.stream_exact, rfl, hstart, hdelivers, hpieces, hwhole hstart, by decide +kernel⟩

end Session

end TermCapture
