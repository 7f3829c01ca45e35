import TermCapture.Proofs.Sequence.Printing
import TermCapture.Proofs.Session.Gliding
import TermCapture.Proofs.Session.Reading

namespace TermCapture

/-- The final bytes that mean something, that of styles among them. -/
def Command.finals : List Char := ['A', 'B', 'C', 'D', 'E', 'F', 'G', 'H', 'f', 'J', 'K', 'm', 's', 'u']

theorem Command.ofByte?_of_not_final {b : UInt8} (h : Char.ofNat b.toNat ∉ finals) :
    ofByte? b = none ∧ b ≠ 0x6d := by
  refine ⟨?_, ?_⟩
  · unfold ofByte?
    split
    all_goals first | rfl | (rename_i hb; rw [hb] at h; exact absurd (by decide) h)
  · rintro rfl
    exact h (by decide)

namespace Sequence

/-- A sequence that a tolerant session makes nothing of. A position with one parameter is not among those
that are refused, since it is read as a row. -/
inductive Unclear (maxLength : Option Nat) (body : List UInt8) (final : UInt8) : Prop
  | marked (h : 0x3f ∈ body)
  | overlong {n : Nat} (hn : n ∈ maxLength) (h : n < body.length + 1)
  | unknown (h : Char.ofNat final.toNat ∉ Command.finals)
  | refused {c : Command} (hc : Command.ofByte? final = some c) (h : c.Refuses (ofBody body final).params)
      (hrow : ¬(c = .position ∧ (ofBody body final).params.length = 1))

end Sequence

namespace Session

variable {cfg : Config}

theorem moved_ground {s : Session} (ht : s.tokenizer = .ground) (n : Nat) :
    s.moved .ground n = { s with offset := n } := by
  rw [moved, ← ht]

theorem settle_of_ne {r : Step} (hr : ∀ n, r.fault ≠ some (.lineLimit n)) : settle cfg r = r := by
  obtain ⟨-, he⟩ | ⟨n, hn, -⟩ := settle_cases cfg r
  · exact he
  · exact absurd hn (hr n)

theorem settle_of_none {r : Step} (hr : r.fault = none) : settle cfg r = r :=
  settle_of_ne fun n ↦ by simp [hr]

theorem settle_congr {r r' : Step} (hs : r.session = r'.session) (hf : r.fault = r'.fault) :
    (settle cfg r).session = (settle cfg r').session := by
  rw [settle, settle, hf]
  split
  · rw [hs]
  · exact hs

theorem glides_discard {s : Session} (hf : s.finished = false) (n : Nat) {body : List UInt8} {final : UInt8}
    (hbody : ∀ b ∈ body, Sequence.continues b = true) (hfinal : Sequence.continues final = false) :
    Glides cfg (body ++ [final]) (s.moved .discard n) (s.moved .ground (n + body.length + 1)) := by
  have hpush : ∀ (b : UInt8) (n : Nat), (s.moved .discard n).push cfg b =
      ⟨s.moved (if Sequence.continues b then .discard else .ground) (n + 1), none, []⟩ :=
    fun b n ↦ push_none (s := s.moved .discard n) hf (Tokenizer.next_discard _ _ b)
  induction body generalizing n with
  | nil =>
    refine .one ?_
    rw [hpush, if_neg (by simp [hfinal])]
    rfl
  | cons b body ih =>
    have hrest := ih (n + 1) fun c hc ↦ hbody c (List.mem_cons_of_mem _ hc)
    rw [List.length_cons, Nat.add_comm body.length, ← Nat.add_assoc n]
    refine .cons ?_ hrest
    rw [hpush, if_pos (hbody b List.mem_cons_self)]
    rfl

section

variable (hc : cfg.strict = false)

include hc

theorem report_skips (s : Session) (f : Fault) :
    (s.report cfg f).session = s ∧ (s.report cfg f).fault = none := by
  rw [report_permissive s hc]
  exact ⟨rfl, rfl⟩

/-- Refused parameters change nothing, also where a number among them has too many digits to be named. -/
theorem command_skips (s : Session) {c : Command} {ps : Params} (h : c.Refuses ps)
    (hrow : ¬(c = .position ∧ ps.length = 1) ∨ ¬ps.Writable) :
    (s.command cfg c ps).session = s ∧ (ps.Writable → (s.command cfg c ps).fault = none) ∧
      ∀ n, (s.command cfg c ps).fault ≠ some (.lineLimit n) := by
  obtain ⟨-, f, hrefusal, he⟩ | ⟨hn, -⟩ := s.screen.perform_cases c ps
  · have hf : (s.screen.perform c ps).fault = some f := by rw [he]
    obtain ⟨hw, hr⟩ | ⟨hw, g, -, rfl⟩ := hrefusal.cases
    · have hskips : (s.command cfg c ps).session = s ∧ (s.command cfg c ps).fault = none := by
        by_cases hp : c = .position
        · subst hp
          rw [command_row hf hr hc]
          match ps with
          | [_] => exact absurd ⟨rfl, rfl⟩ (hrow.resolve_right (not_not.mpr hw))
          | [] | _ :: _ :: _ => exact ⟨rfl, rfl⟩
        · rw [command_refused hf hr (.inr hp)]
          exact report_skips hc s f
      exact ⟨hskips.1, fun _ ↦ hskips.2, fun n ↦ by simp [hskips.2]⟩
    · rw [command_accepted fun g hg ↦ by cases hf.symm.trans hg; rfl, onScreen_eq, he]
      exact ⟨rfl, fun hw' ↦ absurd hw' hw, fun n ↦ nofun⟩
  · exact absurd h hn

theorem dispatch_unclear (s : Session) {body : List UInt8} {final : UInt8}
    (hroom : ∀ k ∈ cfg.maxSequenceLength, body.length < k)
    (h : Sequence.Unclear cfg.maxSequenceLength body final) :
    (s.dispatch cfg (.ofBody body final)).session = s ∧
      (∀ n, (s.dispatch cfg (.ofBody body final)).fault ≠ some (.lineLimit n)) ∧
      ((Sequence.ofBody body final).params.Writable → (s.dispatch cfg (.ofBody body final)).fault = none) := by
  obtain ⟨-, he⟩ | ⟨hp, hm, -⟩ | ⟨-, -, -, he⟩ | ⟨hp, c, hk, he⟩ :=
    dispatch_cases cfg s (.ofBody body final)
  · rw [he]
    exact ⟨rfl, nofun, fun _ ↦ rfl⟩
  · exfalso
    obtain rfl : final = 0x6d := hm
    cases h with
    | marked h => simp [Sequence.ofBody, h] at hp
    | overlong hn h => exact absurd (hroom _ hn) (by omega)
    | unknown h => exact h (by decide)
    | refused hk h hrow => cases hk
  · obtain ⟨hs, hfault⟩ := report_skips hc s (.unknownCommand (Sequence.ofBody body final).final)
    rw [he]
    exact ⟨hs, fun n ↦ by simp [hfault], fun _ ↦ hfault⟩
  · rw [he]
    cases h with
    | marked h => simp [Sequence.ofBody, h] at hp
    | overlong hn h => exact absurd (hroom _ hn) (by omega)
    | unknown h =>
      have hnone : Command.ofByte? final = none := (Command.ofByte?_of_not_final h).1
      cases hk.symm.trans hnone
    | refused hk' h hrow =>
      cases hk.symm.trans hk'
      obtain ⟨hs, hnone, hfault⟩ := command_skips hc s h (.inl hrow)
      exact ⟨hs, hfault, hnone⟩

theorem command_one (s : Session) {n : Int} (hn : Text.Writable n) :
    (s.command cfg .position [some n]).session = (s.command cfg .position [some n, some 1]).session ∧
      (s.command cfg .position [some n]).fault = (s.command cfg .position [some n, some 1]).fault := by
  have htwo : s.command cfg .position [some n, some 1] =
      s.onScreen (·.perform .position [some n, some 1]) := by
    refine command_accepted fun f h ↦ ?_
    exact (Screen.ofScreen_of_moveTo h).not_refusal
  have hone : (Params.Writable [some n]) := by
    rintro m (_ | ⟨_, _ | _⟩)
    exact hn
  have hraised : (s.screen.perform .position [some n]).fault = some (.parameterCount .position [some n]) :=
    congrArg some (Fault.raised_parameterCount.mpr hone)
  rw [command_row hraised rfl hc, htwo]
  exact ⟨rfl, rfl⟩

section

variable {s : Session} (hf : s.finished = false)

include hf

/-- The byte too many is refused. If it could go on, the rest is dropped. -/
theorem push_overlong {k : Nat} (hk : k ∈ cfg.maxSequenceLength) {p : Sequence.Partial} (hp : k ≤ p.length) (n : Nat)
    (b : UInt8) : ((s.moved (.body p) n).push cfg b).result =
      ⟨s.moved (if Sequence.continues b then .discard else .ground) (n + 1), none⟩ := by
  have hmax : (k : Int) ∈ cfg.maxSequenceLength.map Int.ofNat := Option.mem_map_of_mem Int.ofNat hk
  have hnext : Tokenizer.next cfg.strict (cfg.maxSequenceLength.map Int.ofNat) (.body p) b =
      (if Sequence.continues b then .discard else .ground, some (.fault (.sequenceTooLong k))) := by
    rw [Tokenizer.next_body, p.push_tooLong cfg.strict hmax (Int.ofNat_le.mpr hp)]
    dsimp only
    rw [Tokenizer.behindRefusal_tooLong]
  rw [push_token (s := s.moved (.body p) n) hf hnext, perform, report_permissive _ hc]
  rfl

/-- The rest of a sequence that is too long is dropped with its final byte, also when that is the byte too many. -/
theorem glides_overlong {k : Nat} (hk : k ∈ cfg.maxSequenceLength) (p : Sequence.Partial) (n : Nat)
    {body : List UInt8} {final : UInt8} (hlong : k ≤ p.length + body.length)
    (hbody : ∀ b ∈ body, Sequence.continues b = true) (hfinal : Sequence.continues final = false) :
    Glides cfg (body ++ [final]) (s.moved (.body p) n) (s.moved .ground (n + body.length + 1)) := by
  -- up to the limit the parser goes on, and the first byte behind it is refused
  induction body generalizing p n with
  | nil =>
    refine .one ?_
    rw [push_overlong hc hf hk hlong, if_neg (by simp [hfinal])]
    rfl
  | cons b body ih =>
    have hb := hbody b List.mem_cons_self
    have htail : ∀ c ∈ body, Sequence.continues c = true :=
      fun c hc ↦ hbody c (List.mem_cons_of_mem _ hc)
    rw [List.length_cons] at hlong
    rw [List.length_cons, Nat.add_comm body.length, ← Nat.add_assoc n]
    by_cases hp : k ≤ p.length
    · refine .cons ?_ (glides_discard hf (n + 1) htail hfinal)
      rw [push_overlong hc hf hk hp, if_pos hb]
    · have hroom : ∀ j ∈ cfg.maxSequenceLength, p.length + [b].length ≤ j := by
        intro j hj
        cases Option.mem_unique hj hk
        rw [List.length_singleton]
        omega
      refine (glides_body hf hc p n hroom (by simpa using hb)).append (ih (p.extend b) (n + 1) ?_ htail)
      rw [Sequence.Partial.length_extend]
      omega

theorem glides_sequence_overlong (ht : s.tokenizer = .ground) {k : Nat} (hk : k ∈ cfg.maxSequenceLength)
    {body : List UInt8} {final : UInt8} (hlong : k ≤ body.length)
    (hbody : ∀ b ∈ body, Sequence.continues b = true) (hfinal : Sequence.continues final = false) :
    Glides cfg (0x1b :: 0x5b :: (body ++ [final])) s (s.moved .ground (s.offset + body.length + 3)) := by
  have hoffset : s.offset + body.length + 3 = s.offset + 2 + body.length + 1 := by omega
  rw [hoffset]
  exact (glides_introducer hf ht).append (glides_overlong hc hf hk {} _ (by simpa using hlong) hbody hfinal)

theorem pushAll_unclear (ht : s.tokenizer = .ground) {body : List UInt8} {final : UInt8}
    (hbody : ∀ b ∈ body, Sequence.continues b = true) (hfinal : Sequence.continues final = false)
    (h : Sequence.Unclear cfg.maxSequenceLength body final) :
    pushAll cfg (0x1b :: 0x5b :: (body ++ [final])) s = s.moved .ground (s.offset + body.length + 3) := by
  by_cases hroom : ∀ k ∈ cfg.maxSequenceLength, body.length < k
  · obtain ⟨hs, hfault, -⟩ := dispatch_unclear hc (s.moved .ground (s.offset + body.length + 3)) hroom h
    rw [pushAll_sequence hf hc ht hroom hbody hfinal, settle_of_ne]
    · exact hs
    · exact hfault
  · obtain ⟨k, hk, hlong⟩ : ∃ k ∈ cfg.maxSequenceLength, k ≤ body.length := by simpa using hroom
    exact (glides_sequence_overlong hc hf ht hk hlong hbody hfinal).pushAll_eq

theorem glides_unclear (ht : s.tokenizer = .ground) {body : List UInt8} {final : UInt8}
    (hbody : ∀ b ∈ body, Sequence.continues b = true) (hfinal : Sequence.continues final = false)
    (h : Sequence.Unclear cfg.maxSequenceLength body final) (hw : (Sequence.ofBody body final).params.Writable) :
    Glides cfg (0x1b :: 0x5b :: (body ++ [final])) s (s.moved .ground (s.offset + body.length + 3)) := by
  by_cases hroom : ∀ k ∈ cfg.maxSequenceLength, body.length < k
  · obtain ⟨hs, hne, hnone⟩ := dispatch_unclear hc (s.moved .ground (s.offset + body.length + 3)) hroom h
    refine (glides_sequence hf ht (fun k hk ↦ (hroom k hk).le) hbody (not_strict hc)).append (.one ?_)
    rw [push_spelled hf hroom hbody hfinal (not_strict hc), settle_of_ne]
    · exact congr (congrArg Outcome.mk hs) (hnone hw)
    · exact hne
  · obtain ⟨k, hk, hlong⟩ : ∃ k ∈ cfg.maxSequenceLength, k ≤ body.length := by simpa using hroom
    exact glides_sequence_overlong hc hf ht hk hlong hbody hfinal

end

end

/-- A tolerant session reads a text without a fault exactly where nothing breaks it, and what it does not understand
leaves everything but the count of bytes as it was. None of the bytes raises a fault, unless a number has too many
digits. A position with one parameter is read as that row in the first column. -/
theorem tolerant_skips_unclear (cfg : Config) (hc : cfg.strict = false) :
    (∀ bs, (cfg.decode bs).fault = none ↔
      (∀ as b, as ++ [b] <+: bs → ¬(pushAll cfg as (start cfg)).Breaks cfg b) ∧
        ¬(pushAll cfg bs (start cfg)).BreaksAtEnd cfg) ∧
    ∀ s : Session, s.finished = false → s.tokenizer = .ground →
      (∀ body final, (∀ b ∈ body, Sequence.continues b = true) → Sequence.continues final = false →
        let bs := 0x1b :: 0x5b :: (body ++ [final])
        let q := Sequence.ofBody body final
        let t := { s with offset := s.offset + body.length + 3 }
        (Sequence.Unclear cfg.maxSequenceLength body final →
          pushAll cfg bs s = t ∧ (q.params.Writable → Glides cfg bs s t)) ∧
        ∀ n, final = 0x48 ∨ final = 0x66 → 0x3f ∉ body →
          (∀ k ∈ cfg.maxSequenceLength, body.length + 1 ≤ k) → q.params = [some n] →
          (Text.Writable n → pushAll cfg bs s =
            (settle cfg (t.perform cfg (.sequence ⟨[some n, some 1], final, false⟩))).session) ∧
          (¬Text.Writable n → pushAll cfg bs s = t)) ∧
      ∀ b, b ≠ 0x5b → Glides cfg [0x1b, b] s { s with offset := s.offset + 2 } := by
  refine ⟨decode_tolerant_iff hc, fun s hf ht ↦ ⟨fun body final hbody hfinal ↦ ?_, fun b hb ↦ ?_⟩⟩
  · intro bs q t
    have hmoved : s.moved .ground (s.offset + body.length + 3) = t := moved_ground ht _
    refine ⟨fun h ↦ ⟨?_, fun hw ↦ ?_⟩, fun n hposition hpublic hroom hparams ↦ ?_⟩
    · rw [pushAll_unclear hc hf ht hbody hfinal h, hmoved]
    · rw [← hmoved]
      exact glides_unclear hc hf ht hbody hfinal h hw
    have hk : Command.ofByte? final = some .position := by
      obtain rfl | rfl := hposition <;> rfl
    have hprivate : q.isPrivate = false := by simpa [q, Sequence.ofBody] using hpublic
    have hone : t.dispatch cfg (.ofBody body final) = t.command cfg .position [some n] := by
      rw [← hparams]
      exact dispatch_command cfg t hprivate hk
    have htwo : t.dispatch cfg ⟨[some n, some 1], final, false⟩ = t.command cfg .position [some n, some 1] :=
      dispatch_command cfg t rfl hk
    rw [pushAll_sequence hf hc ht hroom hbody hfinal, hmoved]
    refine ⟨fun hw ↦ ?_, fun hw ↦ ?_⟩
    · obtain ⟨hs, hfault⟩ := command_one hc t hw
      refine settle_congr ?_ ?_
      · simp only [perform, hone, htwo, hs]
      · simp only [perform, hone, htwo, hfault]
    · have hlong : ¬Params.Writable [some n] := fun h ↦ hw (h n List.mem_cons_self)
      obtain ⟨hs, -, hfault⟩ := command_skips hc t (c := .position) (.count rfl) (.inr hlong)
      rw [settle_of_ne]
      · simp only [perform, hone, hs]
      · simpa only [perform, hone] using hfault
  · rw [← moved_ground ht]
    exact glides_unknownEscape hf ht hc hb

/-- Inside a character of two bytes, a sequence that is too long leaves its first byte waiting. -/
theorem tolerant_skips_unclear_inside_character :
    let cfg : Config := { maxSequenceLength := some 3 }
    let s := pushAll cfg [0x41, 0xc3] (start cfg)
    cfg.strict = false ∧ s.finished = false ∧ s.tokenizer = .ground ∧
      pushAll cfg [0x1b, 0x5b, 0x31, 0x3b, 0x32, 0x3b, 0x33, 0x48] s = { s with offset := s.offset + 8 } := by
  intro cfg s
  have hf : s.finished = false := by decide +kernel
  have ht : s.tokenizer = .ground := by decide +kernel
  have h := ((tolerant_skips_unclear cfg rfl).2 s hf ht).1 [0x31, 0x3b, 0x32, 0x3b, 0x33] 0x48
    (List.all_eq_true.mp rfl) (by decide)
  exact ⟨rfl, hf, ht, (h.1 (.overlong rfl (by decide))).1⟩

/-- Parameters that a command refuses stop a text where they have too many digits to be named. -/
theorem decode_digits (hc : cfg.strict = false) (hm : cfg.maxSequenceLength = none) {q : Sequence} (hq : q.Readable)
    (hp : q.isPrivate = false) {c : Command} (hk : Command.ofByte? q.final = some c) (hr : c.Refuses q.params)
    (hw : ¬q.params.Writable) :
    ∃ f, (cfg.decode (0x1b :: 0x5b :: (q.body ++ [q.final]))).fault = some (.wordless f) := by
  have hroom : ∀ {k : Nat} {P : Prop}, k ∈ cfg.maxSequenceLength → P := fun hk ↦ by
    rw [hm] at hk
    cases hk
  have hbody := (Sequence.canonical_body q).goes_on
  have hglides := glides_sequence (s := start cfg) rfl rfl (fun _ ↦ hroom) hbody (not_strict hc)
  have hread := congrArg Outcome.fault (hglides.read_eq [q.final])
  rw [result_read_cons, push_spelled rfl (fun _ ↦ hroom) hbody hq.final (not_strict hc), hq.ofBody_body] at hread
  obtain ⟨f, hf⟩ := dispatch_digits cfg ((start cfg).moved .ground _) hp hk hr hw
  have hsettle := @settle_fault_of_ne cfg _ (perform cfg _ (.sequence q)) hf nofun
  rw [Outcome.andThen_of_some (o := Step.result _) hsettle] at hread
  exact ⟨f, hread⟩

/-- A tolerant session does not get over a character behind more blanks than can be asked for, nor over erasing with a
number of 4301 digits. -/
theorem tolerant_decode_breaks :
    let cfg : Config := {}
    let q : Sequence := ⟨[some (Nat.pow 10 4300)], 0x4a, false⟩
    cfg.strict = false ∧ (cfg.decode "\x1b[100000000000000000000Ca".toUTF8.toList).fault = some .overflow ∧
      ∃ f, (cfg.decode (0x1b :: 0x5b :: (q.body ++ [q.final]))).fault = some (.wordless f) := by
  intro cfg q
  have hreadable : q.Readable := by
    refine ⟨by decide, nofun, fun n hn ↦ ?_⟩
    obtain rfl : n = Nat.pow 10 4300 := Option.some.inj (List.mem_singleton.mp hn)
    exact Int.natCast_nonneg _
  have hlong : ¬q.params.Writable := fun h ↦ absurd (h (Nat.pow 10 4300) List.mem_cons_self) (by decide +kernel)
  have hrefuses : Command.eraseDisplay.Refuses q.params :=
    .mode (.inl rfl) rfl ⟨by decide +kernel, by decide +kernel, by decide +kernel⟩
  exact ⟨rfl, by decide +kernel, decode_digits rfl rfl hreadable rfl rfl hrefuses hlong⟩

end Session

end TermCapture
