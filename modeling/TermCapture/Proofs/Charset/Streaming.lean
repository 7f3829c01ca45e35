import TermCapture.Proofs.Charset.Decoding
import TermCapture.Proofs.Session.Steps

namespace TermCapture.Utf8

/-- What is pending behind bytes that are read one by one. -/
def held (pending : Option Pending) (bs : List UInt8) : Option Pending :=
  bs.foldl (fun pending b ↦ (next pending b).2) pending

/-- The characters that each of the bytes is answered with. -/
def answers : Option Pending → List UInt8 → List (List Char)
  | _, [] => []
  | pending, b :: bs => (next pending b).1 :: answers (next pending b).2 bs

theorem held_append (pending : Option Pending) (as bs : List UInt8) :
    held pending (as ++ bs) = held (held pending as) bs := by
  simp only [held, List.foldl_append]

theorem answers_append (pending : Option Pending) (as bs : List UInt8) :
    answers pending (as ++ bs) = answers pending as ++ answers (held pending as) bs := by
  induction as generalizing pending with
  | nil => rfl
  | cons a as ih =>
    simp only [List.cons_append, answers, ih, held, List.foldl_cons]

/-- The answers and what the end of the text makes of the pending bytes are the characters that are read. -/
theorem flatten_answers (pending : Option Pending) (bs : List UInt8) :
    (answers pending bs).flatten ++ flush (held pending bs) = stream pending bs := by
  induction bs generalizing pending with
  | nil => rfl
  | cons b bs ih =>
    have h := ih (next pending b).2
    simp only [answers, stream, List.flatten_cons, List.append_assoc, ← h]
    rfl

theorem first_length (b : UInt8) : (first b).1.length + (flush (first b).2).length ≤ 1 := by
  obtain ⟨-, he⟩ | ⟨q, he, hq, -⟩ | ⟨he, -⟩ := first_cases b
  · rw [he]
    exact Nat.le_refl 1
  · rw [he, flush, Pending.replaced_of_live hq]
    exact Nat.le_refl 1
  · rw [he]
    exact Nat.le_refl 1

/-- A byte makes at most one character more, counting those that the pending bytes stand for. -/
theorem next_length (pending : Option Pending) (b : UInt8) :
    (next pending b).1.length + (flush (next pending b).2).length ≤ (flush pending).length + 1 := by
  have hrestart : ∀ q : Pending,
      (restart q b).1.length + (flush (restart q b).2).length ≤ (flush (some q)).length + 1 := by
    intro q
    have := first_length b
    change (q.replaced ++ (first b).1).length + (flush (first b).2).length ≤ q.replaced.length + 1
    rw [List.length_append]
    omega
  unfold next
  split
  · exact Nat.le_trans (first_length b) (Nat.le_add_left 1 _)
  · dsimp only
    split_ifs
    · split <;> simp [flush, Pending.replaced]
    · exact hrestart _
  · split_ifs
    · simp [flush, Pending.replaced]
    · simp [flush, Pending.replaced]
    · exact hrestart _
  · exact hrestart _

theorem next_opened {pending : Option Pending} {b : UInt8} (hp : ∀ q ∈ pending, ∃ p, Opens p q) :
    ∀ q ∈ (next pending b).2, ∃ p, Opens p q := by
  intro q hq
  obtain hfirst | ⟨q', rfl, hopens⟩ := next_opens hq
  · exact ⟨[b], hfirst⟩
  · obtain ⟨p, hp⟩ := hp q' rfl
    exact ⟨p ++ [b], hopens p hp⟩

theorem held_opened (bs : List UInt8) : ∀ q ∈ held none bs, ∃ p, Opens p q := by
  induction bs using List.reverseRecOn with
  | nil => simp [held]
  | append_singleton bs b ih =>
    simp only [held_append]
    exact next_opened ih

/-- Bytes that open a character are answered with nothing. -/
theorem Opens.answers_eq {p : List UInt8} {q : Pending} (h : Opens p q) :
    answers none p = List.replicate p.length [] ∧ held none p = some q := by
  induction h with
  | @first b q h =>
    have hnext : Utf8.next none b = ([], some q) := h
    simp [answers, held, hnext]
  | @next p q q' b h hn ih =>
    obtain ⟨hanswers, hheld⟩ := ih
    refine ⟨?_, ?_⟩
    · simp [answers_append, hanswers, hheld, answers, hn, List.replicate_succ']
    · simp only [held_append, hheld]
      simp [held, hn]

/-- A character is the answer to its last byte. -/
theorem answers_char (c : Char) :
    answers none (String.utf8EncodeChar c) = List.replicate (c.utf8Size - 1) [] ++ [[c]] ∧
      held none (String.utf8EncodeChar c) = none := by
  obtain ⟨p, b, he, hlast⟩ := exists_last c
  have hlength : p.length = c.utf8Size - 1 := by
    have h := String.length_utf8EncodeChar c
    simp only [he, List.length_append, List.length_singleton] at h
    omega
  rcases hlast with ⟨rfl, hb⟩ | ⟨q, hopens, hb⟩
  · have hnext : next none b = ([c], none) := hb
    simp only [List.length_nil] at hlength
    simp [he, answers, held, hnext, ← hlength]
  · obtain ⟨hanswers, hheld⟩ := hopens.answers_eq
    refine ⟨?_, ?_⟩
    · simp [he, answers_append, hanswers, hheld, answers, hb, hlength]
    · simp only [he, held_append, hheld]
      simp [held, hb]

/-- The encoding of a text is answered with its characters, and nothing of it is left. -/
theorem answers_encoding (cs : List Char) :
    answers none (cs.flatMap String.utf8EncodeChar) =
        cs.flatMap (fun c ↦ List.replicate (c.utf8Size - 1) [] ++ [[c]]) ∧
      held none (cs.flatMap String.utf8EncodeChar) = none := by
  induction cs with
  | nil => exact ⟨rfl, rfl⟩
  | cons c cs ih =>
    obtain ⟨hanswers, hheld⟩ := answers_char c
    simp only [List.flatMap_cons, answers_append, held_append, hanswers, hheld, ih, and_self]

section

variable (b : UInt8)

theorem first_nil_iff : (first b).1 = [] ↔ 0xc2 ≤ b ∧ b ≤ 0xf4 := by
  unfold first
  simp only [UInt8.lt_iff_toNat_lt, UInt8.le_iff_toNat_le, ← UInt8.toNat_inj, UInt8.toNat_ofNat, Nat.reducePow,
    Nat.reduceMod]
  split_ifs
  all_goals simp
  all_goals omega

theorem first_surrogateLead_iff : (first b).2 = some .surrogateLead ↔ b = 0xed := by
  unfold first
  simp only [UInt8.lt_iff_toNat_lt, UInt8.le_iff_toNat_le, ← UInt8.toNat_inj, UInt8.toNat_ofNat, Nat.reducePow,
    Nat.reduceMod]
  split_ifs
  all_goals simp
  all_goals omega

theorem first_ne_surrogate : (first b).2 ≠ some .surrogate := by
  unfold first
  split_ifs
  all_goals simp

/-- The byte 0xed opens a character of its own, whatever is pending before it. -/
theorem next_surrogateLead_iff {pending : Option Pending} (hp : ∀ q ∈ pending, ∃ p, Opens p q) :
    (next pending b).2 = some .surrogateLead ↔ b = 0xed := by
  have hfirst := first_surrogateLead_iff b
  cases pending with
  | none => exact hfirst
  | some q =>
    cases q with
    | lacking code after low high =>
      obtain ⟨p, hopens⟩ := hp _ rfl
      have hlive : 0x80 ≤ low.toNat ∧ low.toNat ≤ high.toNat ∧ high.toNat ≤ 0xbf := by
        rcases hopens.live with hsurrogate | hlive
        · simp at hsurrogate
        · exact hlive
      simp only [next]
      split
      · rename_i hin
        have hne : b ≠ 0xed := by
          rintro rfl
          have hle := UInt8.le_iff_toNat_le.mp hin.2
          have hbyte : (0xed : UInt8).toNat = 237 := rfl
          omega
        cases after with
        | zero => simp [hne]
        | succ n => simp [hne]
      · exact hfirst
    | surrogateLead =>
      simp only [next]
      split
      · rename_i hin
        simp only [Option.some.injEq, reduceCtorEq, false_iff]
        rintro rfl
        simp at hin
      · split
        · rename_i hin
          simp only [Option.some.injEq, reduceCtorEq, false_iff]
          rintro rfl
          simp at hin
        · exact hfirst
    | surrogate => exact hfirst

theorem next_surrogate_iff (pending : Option Pending) :
    (next pending b).2 = some .surrogate ↔ pending = some .surrogateLead ∧ 0xa0 ≤ b ∧ b ≤ 0xbf := by
  have hfirst := first_ne_surrogate b
  cases pending with
  | none => simpa [next] using hfirst
  | some q =>
    cases q with
    | lacking code after low high =>
      simp only [next]
      split
      · cases after with
        | zero => simp
        | succ n => simp
      · simpa [restart] using hfirst
    | surrogateLead =>
      simp only [next]
      split
      · rename_i hin
        have hle := UInt8.le_iff_toNat_le.mp hin.2
        simp only [Option.some.injEq, reduceCtorEq, true_and, false_iff, UInt8.le_iff_toNat_le]
        simp at hle
        simp
        omega
      · split
        · rename_i hin
          simp [hin]
        · rename_i hout
          simpa [restart, hout] using hfirst
    | surrogate => simpa [next, restart] using hfirst

end

/-- The two bytes that are held back together although no character begins with them. -/
def HoldsSurrogate (bs : List UInt8) : Prop := ∃ as x, bs = as ++ [0xed, x] ∧ 0xa0 ≤ x ∧ x ≤ 0xbf

theorem held_surrogate_iff (bs : List UInt8) : held none bs = some .surrogate ↔ HoldsSurrogate bs := by
  have hlast : ∀ as b, held none (as ++ [b]) = (next (held none as) b).2 := by
    intro as b
    simp only [held_append]
    rfl
  constructor
  · intro h
    rcases List.eq_nil_or_concat bs with rfl | ⟨as, x, rfl⟩
    · simp [held] at h
    · simp only [List.concat_eq_append, hlast, next_surrogate_iff] at h
      obtain ⟨hlead, hx⟩ := h
      rcases List.eq_nil_or_concat as with rfl | ⟨as, y, rfl⟩
      · simp [held] at hlead
      · simp only [List.concat_eq_append, hlast, next_surrogateLead_iff y (held_opened as)] at hlead
        exact ⟨as, x, by simp [hlead], hx⟩
  · rintro ⟨as, x, rfl, hx⟩
    have hsplit : as ++ [0xed, x] = (as ++ [0xed]) ++ [x] := by simp
    have hlead : held none (as ++ [0xed]) = some .surrogateLead := by
      simp only [hlast, next_surrogateLead_iff _ (held_opened as)]
    simp only [hsplit, hlast (as ++ [0xed]), next_surrogate_iff]
    exact ⟨hlead, hx⟩

/-- Three characters are the answer to a byte that is one by itself, or is none, behind the two that are held back. -/
theorem next_length_cases (bs : List UInt8) (b : UInt8) :
    (next (held none bs) b).1.length ≤ 3 ∧
      (2 < (next (held none bs) b).1.length ↔ HoldsSurrogate bs ∧ ¬(0xc2 ≤ b ∧ b ≤ 0xf4)) := by
  have hlength := next_length (held none bs) b
  have hheld := held_surrogate_iff bs
  rcases hq : held none bs with _ | q
  · simp only [hq, flush, List.length_nil] at hlength hheld ⊢
    simp only [reduceCtorEq, false_iff] at hheld
    simp only [hheld, false_and, iff_false]
    omega
  · by_cases hs : q = .surrogate
    · subst hs
      have hfirst := first_length b
      have hnil := first_nil_iff b
      have hnext : (next (some .surrogate) b).1.length = 2 + (first b).1.length := by
        simp only [next, restart, Pending.replaced, List.length_append, List.length_cons, List.length_nil]
      simp only [hheld.mp hq, hnext, ← hnil, true_and, ← List.length_eq_zero_iff]
      omega
    · have hone : (flush (some q)).length = 1 := by
        cases q with
        | lacking | surrogateLead => rfl
        | surrogate => exact absurd rfl hs
      have hnot : ¬HoldsSurrogate bs := by
        simp only [← hheld, hq, Option.some.injEq, hs, not_false_iff]
      simp only [hq, hone] at hlength
      simp only [hnot, false_and, iff_false]
      omega

/-- Byte by byte, a text is read like a whole, and what encodes a string is read as that string, each character at
its last byte. Only the two bytes of a surrogate are held back longer than they begin a character. -/
theorem streams_like_whole :
    (∀ bs cs, Decodes bs cs ↔ cs = (answers none bs).flatten ++ flush (held none bs)) ∧
    (∀ bs b, (next (held none bs) b).1.length ≤ 3 ∧
      (2 < (next (held none bs) b).1.length ↔ HoldsSurrogate bs ∧ ¬(0xc2 ≤ b ∧ b ≤ 0xf4))) ∧
    (∀ (cfg : Config) (s : Session), (s.flush cfg).session.pending = none) ∧
    ∀ s : String,
      answers none s.toByteArray.data.toList =
          s.toList.flatMap (fun c ↦ List.replicate (c.utf8Size - 1) [] ++ [[c]]) ∧
        flush (held none s.toByteArray.data.toList) = [] := by
  refine ⟨fun bs cs ↦ ?_, next_length_cases, fun cfg s ↦ ?_, fun s ↦ ?_⟩
  · simp only [decodes_iff, flatten_answers]
  · rw [Session.flush_eq]
    split
    · rw [Session.report_session]
    · rfl
  · have hbytes : s.toByteArray.data.toList = s.toList.flatMap String.utf8EncodeChar := by
      simp only [← String.utf8Encode_toList, List.utf8Encode, List.toList_data_toByteArray]
    obtain ⟨hanswers, hheld⟩ := answers_encoding s.toList
    simp only [hbytes, hanswers, hheld, flush, and_self]

/-- A letter behind the first two bytes of a surrogate is the third character of its answer. -/
theorem answers_three :
    answers none [0xed, 0xa0, 0x61] = [[], [], [CodePage.replacement, CodePage.replacement, 'a']] ∧
      ¬∀ bs b, (next (held none bs) b).1.length ≤ 2 := by
  refine ⟨by decide +kernel, fun h ↦ ?_⟩
  have hthree : (next (held none [0xed, 0xa0]) 0x61).1.length = 3 := by decide +kernel
  have htwo := h [0xed, 0xa0] 0x61
  omega

end TermCapture.Utf8
