import TermCapture.Proofs.Sequence.Answers
import TermCapture.Proofs.Session.Chaining

namespace TermCapture.Session

/-- A session without where its text stands. -/
def core (s : Session) : Session := { s with tokenizer := .ground, offset := 0 }

def moved (s : Session) (t : Tokenizer) (n : Nat) : Session := { s with tokenizer := t, offset := n }

variable {cfg : Config} {s : Session}

/-- Room in the settings is room for the parser. -/
theorem room_of {m : Option Nat} {n : Nat} (h : ∀ k ∈ m, n < k) : ∀ k ∈ m.map Int.ofNat, (n : Int) < k := by
  intro k hk
  obtain ⟨j, hj, rfl⟩ := Option.map_eq_some_iff.mp hk
  exact Int.ofNat_lt.mpr (h j hj)

theorem not_strict {cfg : Config} (hc : cfg.strict = false) {P : Prop} (hs : cfg.strict = true) : P := by
  rw [hc] at hs
  cases hs

section

variable (hf : s.finished = false)

include hf

theorem push_ground (ht : s.tokenizer = .ground) {b : UInt8} (hb : b ≠ 0x1b) :
    s.push cfg b = settle cfg ((s.moved .ground (s.offset + 1)).perform cfg (.byte b)) := by
  refine push_token hf ?_
  rw [ht]
  exact if_neg hb

theorem push_escape (ht : s.tokenizer = .ground) :
    s.push cfg 0x1b = ⟨s.moved .escape (s.offset + 1), none, []⟩ := by
  refine push_none hf ?_
  rw [ht]
  rfl

theorem push_introducer (n : Nat) :
    (s.moved .escape n).push cfg 0x5b = ⟨s.moved (.body {}) (n + 1), none, []⟩ :=
  push_none (s := s.moved .escape n) hf rfl

theorem push_unknownEscape (hc : cfg.strict = false) (n : Nat) {b : UInt8} (hb : b ≠ 0x5b) :
    ((s.moved .escape n).push cfg b).result = ⟨s.moved .ground (n + 1), none⟩ := by
  have hnext : Tokenizer.next cfg.strict (cfg.maxSequenceLength.map Int.ofNat) .escape b =
      (.ground, some (.fault (.unknownEscape b))) := if_neg hb
  rw [push_token (s := s.moved .escape n) hf hnext, perform, report_permissive _ hc]
  rfl

theorem push_completes (p : Sequence.Partial) (n : Nat) {b : UInt8}
    (hroom : ∀ k ∈ cfg.maxSequenceLength, p.length < k) (hb : Sequence.continues b = false)
    (hp : cfg.strict = true → p.value ≠ none ∨ p.params = #[]) :
    (s.moved (.body p) n).push cfg b =
      settle cfg ((s.moved .ground (n + 1)).perform cfg (.sequence (p.complete b))) := by
  refine push_token (s := s.moved (.body p) n) hf ?_
  simp only [moved, Tokenizer.next_body, Sequence.Partial.push_final_taken (room_of hroom) hb hp]

theorem glides_introducer (ht : s.tokenizer = .ground) :
    Glides cfg [0x1b, 0x5b] s (s.moved (.body {}) (s.offset + 2)) :=
  .cons (congrArg Step.result (push_escape hf ht)) (.one (congrArg Step.result (push_introducer hf _)))

theorem glides_continues (p : Sequence.Partial) (n : Nat) {body : List UInt8}
    (hroom : ∀ k ∈ cfg.maxSequenceLength, p.length + body.length ≤ k)
    (hbody : ∀ b ∈ body, Sequence.continues b = true)
    (hp : cfg.strict = true →
      none ∉ (Sequence.Partial.continued p.value (Sequence.fields body)).dropLast) :
    Glides cfg body (s.moved (.body p) n) (s.moved (.body (body.foldl .extend p)) (n + body.length)) := by
  induction body generalizing p n with
  | nil => exact .nil _
  | cons b body ih =>
    have hb := hbody b List.mem_cons_self
    have hlt : ∀ k ∈ cfg.maxSequenceLength, p.length < k := by
      intro k hk
      have := hroom k hk
      rw [List.length_cons] at this
      omega
    have htaken := Sequence.Partial.push_taken (room_of hlt) hb fun hs ↦
      (Sequence.Partial.present_extend hb (hp hs)).1
    have hpush : (s.moved (.body p) n).push cfg b = ⟨s.moved (.body (p.extend b)) (n + 1), none, []⟩ := by
      refine push_none (s := s.moved (.body p) n) hf ?_
      simp only [moved, Tokenizer.next_body, htaken]
    have hrest : ∀ k ∈ cfg.maxSequenceLength, (p.extend b).length + body.length ≤ k := by
      intro k hk
      have := hroom k hk
      rw [List.length_cons] at this
      rw [Sequence.Partial.length_extend]
      omega
    have htail := ih _ (n + 1) hrest (fun c hc ↦ hbody c (List.mem_cons_of_mem _ hc)) fun hs ↦
      (Sequence.Partial.present_extend hb (hp hs)).2
    rw [List.length_cons, Nat.add_comm body.length, ← Nat.add_assoc]
    exact .cons (congrArg Step.result hpush) htail

theorem glides_unknownEscape (ht : s.tokenizer = .ground) (hc : cfg.strict = false) {b : UInt8} (hb : b ≠ 0x5b) :
    Glides cfg [0x1b, b] s (s.moved .ground (s.offset + 2)) :=
  .cons (congrArg Step.result (push_escape hf ht)) (.one (push_unknownEscape hf hc _ hb))

/-- The body of a sequence leads to what it spells. In strict reading no parameter of it may be missing. -/
theorem glides_sequence (ht : s.tokenizer = .ground) {body : List UInt8}
    (hroom : ∀ k ∈ cfg.maxSequenceLength, body.length ≤ k) (hbody : ∀ b ∈ body, Sequence.continues b = true)
    (hfields : cfg.strict = true → Sequence.fields body = [[]] ∨ [] ∉ Sequence.fields body) :
    Glides cfg (0x1b :: 0x5b :: body) s
      (s.moved (.body (body.foldl .extend {})) (s.offset + body.length + 2)) := by
  have hfits : ∀ k ∈ cfg.maxSequenceLength, ({} : Sequence.Partial).length + body.length ≤ k := by
    intro k hk
    rw [Nat.zero_add]
    exact hroom k hk
  have hpresent : cfg.strict = true → none ∉
      (Sequence.Partial.continued ({} : Sequence.Partial).value (Sequence.fields body)).dropLast := by
    intro hs
    have hcont : Sequence.Partial.continued ({} : Sequence.Partial).value (Sequence.fields body) = _ :=
      Sequence.Partial.continued_none _
    rw [hcont]
    exact Sequence.Partial.present_of_fields (hfields hs)
  rw [Nat.add_right_comm]
  exact (glides_introducer hf ht).append (glides_continues hf {} _ hfits hbody hpresent)

/-- The final byte of a sequence for which there is room performs what is spelled. -/
theorem push_spelled {body : List UInt8} {final : UInt8} (hroom : ∀ k ∈ cfg.maxSequenceLength, body.length < k)
    (hbody : ∀ b ∈ body, Sequence.continues b = true) (hfinal : Sequence.continues final = false)
    (hfields : cfg.strict = true → Sequence.fields body = [[]] ∨ [] ∉ Sequence.fields body) (n : Nat) :
    (s.moved (.body (body.foldl .extend {})) n).push cfg final =
      settle cfg ((s.moved .ground (n + 1)).perform cfg (.sequence (.ofBody body final))) := by
  have hlength : ∀ k ∈ cfg.maxSequenceLength, (body.foldl Sequence.Partial.extend {}).length < k := by
    intro k hk
    rw [Sequence.Partial.length_foldl_extend, Nat.zero_add]
    exact hroom k hk
  rw [push_completes hf _ _ hlength hfinal fun hs ↦ Sequence.Partial.last_present hbody (hfields hs),
    Sequence.Partial.complete_extend hbody]

theorem pushAll_spelled (ht : s.tokenizer = .ground) {body : List UInt8} {final : UInt8}
    (hroom : ∀ k ∈ cfg.maxSequenceLength, body.length < k)
    (hbody : ∀ b ∈ body, Sequence.continues b = true) (hfinal : Sequence.continues final = false)
    (hfields : cfg.strict = true → Sequence.fields body = [[]] ∨ [] ∉ Sequence.fields body) :
    pushAll cfg (0x1b :: 0x5b :: (body ++ [final])) s =
      (settle cfg ((s.moved .ground (s.offset + body.length + 3)).perform cfg
        (.sequence (.ofBody body final)))).session := by
  have hglides := glides_sequence hf ht (fun k hk ↦ (hroom k hk).le) hbody hfields
  rw [← List.cons_append, ← List.cons_append, pushAll_append, hglides.pushAll_eq, pushAll_cons,
    push_spelled hf hroom hbody hfinal hfields]
  rfl

section

variable (hc : cfg.strict = false)

include hc

theorem glides_body (p : Sequence.Partial) (n : Nat) {body : List UInt8}
    (hroom : ∀ k ∈ cfg.maxSequenceLength, p.length + body.length ≤ k)
    (hbody : ∀ b ∈ body, Sequence.continues b = true) :
    Glides cfg body (s.moved (.body p) n) (s.moved (.body (body.foldl .extend p)) (n + body.length)) :=
  glides_continues hf p n hroom hbody (not_strict hc)

theorem pushAll_sequence (ht : s.tokenizer = .ground) {body : List UInt8} {final : UInt8}
    (hroom : ∀ k ∈ cfg.maxSequenceLength, body.length < k)
    (hbody : ∀ b ∈ body, Sequence.continues b = true) (hfinal : Sequence.continues final = false) :
    pushAll cfg (0x1b :: 0x5b :: (body ++ [final])) s =
      (settle cfg ((s.moved .ground (s.offset + body.length + 3)).perform cfg
        (.sequence (.ofBody body final)))).session :=
  pushAll_spelled hf ht hroom hbody hfinal (not_strict hc)

end

end

end TermCapture.Session
