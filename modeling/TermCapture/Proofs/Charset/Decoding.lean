import Mathlib.Data.List.Induction
import Mathlib.Tactic.SplitIfs
import TermCapture.Charset

namespace TermCapture.Utf8

/-- The first bytes of a character. -/
def Begins (p : List UInt8) : Prop := ∃ c, p <+: String.utf8EncodeChar c

/-- Bytes in front of `rest` that are replaced by one character: as many as begin a character but are none, or
a single byte where not even that begins one. -/
structure Replaced (p rest : List UInt8) : Prop where
  ne_nil : p ≠ []
  begins : Begins p ∨ p.length = 1
  incomplete : ∀ c, p ≠ String.utf8EncodeChar c
  maximal : ∀ b ∈ rest.head?, ¬Begins (p ++ [b])

/-- The characters of a text all of whose bytes are known. -/
inductive Decodes : List UInt8 → List Char → Prop
  | nil : Decodes [] []
  | char (c : Char) {bs : List UInt8} {cs : List Char} (h : Decodes bs cs) :
      Decodes (String.utf8EncodeChar c ++ bs) (c :: cs)
  | replaced {p bs : List UInt8} {cs : List Char} (hp : Replaced p bs) (h : Decodes bs cs) :
      Decodes (p ++ bs) (CodePage.replacement :: cs)

/-- The characters that are read byte by byte. -/
def stream : Option Pending → List UInt8 → List Char
  | pending, [] => flush pending
  | pending, b :: bs => (next pending b).1 ++ stream (next pending b).2 bs

/-- A number without its last digits, of six bits each. -/
def shift (v : Nat) : Nat → Nat
  | 0 => v
  | k + 1 => shift v k / 64

/-- The byte of a number that `k` more bytes follow. -/
def continuation (v k : Nat) : UInt8 := UInt8.ofNat (shift v k % 64 + 0x80)

def continuations (v : Nat) : Nat → List UInt8
  | 0 => []
  | k + 1 => continuation v k :: continuations v k

theorem shift_succ (v k : Nat) : shift v (k + 1) = shift v k / 64 := rfl

theorem exists_shift (n k : Nat) : ∃ v, shift v k = n := by
  induction k generalizing n with
  | zero => exact ⟨n, rfl⟩
  | succ k ih =>
    obtain ⟨v, hv⟩ := ih (n * 64)
    exact ⟨v, by rw [shift_succ, hv, Nat.mul_div_cancel n (by decide)]⟩

theorem toNat_continuation (v k : Nat) : (continuation v k).toNat = shift v k % 64 + 0x80 := by
  refine UInt8.toNat_ofNat_of_lt' ?_
  change shift v k % 64 + 0x80 < 256
  omega

theorem eq_continuation {b : UInt8} {v k : Nat} (h : b.toNat = shift v k % 64 + 0x80) : b = continuation v k := by
  rw [continuation, ← h, UInt8.ofNat_toNat]

namespace Pending

def left : Pending → Nat
  | .lacking _ after _ _ => after + 1
  | .surrogateLead => 2
  | .surrogate => 0

/-- The numbers of the characters that the pending bytes can become. -/
def Awaits : Pending → Nat → Prop
  | .lacking code after low high, v =>
    shift v (after + 1) = code ∧ low.toNat ≤ shift v after % 64 + 0x80 ∧ shift v after % 64 + 0x80 ≤ high.toNat
  | .surrogateLead, v => v / 64 / 64 = 0xd ∧ v / 64 % 64 + 0x80 ≤ 0x9f
  | .surrogate, _ => False

/-- Whether the pending bytes can become a character at all. -/
def Live : Pending → Prop
  | .lacking _ _ low high => 0x80 ≤ low.toNat ∧ low.toNat ≤ high.toNat ∧ high.toNat ≤ 0xbf
  | .surrogateLead => True
  | .surrogate => False

theorem replaced_of_live {q : Pending} (h : q.Live) : q.replaced = [CodePage.replacement] := by
  cases q with
  | lacking | surrogateLead => rfl
  | surrogate => cases h

theorem Live.exists_awaits {q : Pending} (hq : q.Live) : ∃ v, q.Awaits v := by
  cases q with
  | lacking code after low high =>
    obtain ⟨hl, hlh, hh⟩ := hq
    obtain ⟨v, hv⟩ := exists_shift (code * 64 + (low.toNat - 0x80)) after
    refine ⟨v, ?_, ?_, ?_⟩
    · rw [shift_succ]
      omega
    · omega
    · omega
  | surrogateLead => exact ⟨0xd000, by decide, by decide⟩
  | surrogate => cases hq

end Pending

theorem toNat_ofNat {n : Nat} (h : n.isValidChar) : (Char.ofNat n).toNat = n := by
  rw [Char.ofNat, dif_pos h]
  rfl

/-- The numbers of the characters that are spelled by a lead byte and `n` more. -/
def Lead (b : UInt8) (n v : Nat) : Prop :=
  match n with
  | 1 => b.toNat = v / 64 + 0xc0 ∧ 0x80 ≤ v ∧ v < 0x800
  | 2 => b.toNat = v / 64 / 64 + 0xe0 ∧ 0x800 ≤ v ∧ v < 0x10000 ∧ (v < 0xd800 ∨ 0xdfff < v)
  | 3 => b.toNat = v / 64 / 64 / 64 + 0xf0 ∧ 0x10000 ≤ v ∧ v < 0x110000
  | _ => False

theorem lead_bounds {b : UInt8} {n v : Nat} (h : Lead b n v) :
    (n = 1 ∧ 0xc2 ≤ b.toNat ∧ b.toNat ≤ 0xdf) ∨ (n = 2 ∧ 0xe0 ≤ b.toNat ∧ b.toNat ≤ 0xef) ∨
      (n = 3 ∧ 0xf0 ≤ b.toNat ∧ b.toNat ≤ 0xf4) := by
  match n, h with
  | 1, ⟨_, _, _⟩ | 2, ⟨_, _, _, _⟩ | 3, ⟨_, _, _⟩ => omega

theorem lead_valid {b : UInt8} {n v : Nat} (h : Lead b n v) : v.isValidChar := by
  unfold Nat.isValidChar
  match n, h with
  | 1, ⟨_, _, _⟩ | 2, ⟨_, _, _, _⟩ | 3, ⟨_, _, _⟩ => omega

theorem utf8EncodeChar_of_lead {b : UInt8} {n v : Nat} (h : Lead b n v) :
    String.utf8EncodeChar (Char.ofNat v) = b :: continuations v n := by
  have hv : (Char.ofNat v).val.toNat = v := toNat_ofNat (lead_valid h)
  unfold String.utf8EncodeChar
  rw [hv]
  match n with
  | 1 =>
    obtain ⟨hb, hl, hu⟩ := h
    have hlead : UInt8.ofNat (v / 64 % 32 + 0xc0) = b := by
      have hn : v / 64 % 32 + 0xc0 = b.toNat := by omega
      rw [hn, UInt8.ofNat_toNat]
    rw [if_neg (by omega), if_pos (by omega), hlead]
    simp [continuations, continuation, shift]
  | 2 =>
    obtain ⟨hb, hl, hu, -⟩ := h
    have hlead : UInt8.ofNat (v / 4096 % 16 + 0xe0) = b := by
      have hn : v / 4096 % 16 + 0xe0 = b.toNat := by omega
      rw [hn, UInt8.ofNat_toNat]
    rw [if_neg (by omega), if_neg (by omega), if_pos (by omega), hlead]
    simp [continuations, continuation, shift]
  | 3 =>
    obtain ⟨hb, hl, hu⟩ := h
    have hlead : UInt8.ofNat (v / 262144 % 8 + 0xf0) = b := by
      have hn : v / 262144 % 8 + 0xf0 = b.toNat := by omega
      rw [hn, UInt8.ofNat_toNat]
    rw [if_neg (by omega), if_neg (by omega), if_neg (by omega), hlead]
    simp [continuations, continuation, shift, Nat.div_div_eq_div_mul]

theorem utf8EncodeChar_of_lt {b : UInt8} (h : b.toNat < 0x80) :
    String.utf8EncodeChar (Char.ofNat b.toNat) = [b] := by
  have hv : (Char.ofNat b.toNat).val.toNat = b.toNat := toNat_ofNat (.inl (by omega))
  unfold String.utf8EncodeChar
  rw [hv, if_pos (Nat.le_of_lt_succ h), UInt8.ofNat_toNat]

theorem utf8EncodeChar_cases (c : Char) :
    (c.toNat < 0x80 ∧ String.utf8EncodeChar c = [UInt8.ofNat c.toNat]) ∨
      ∃ b n, Lead b n c.toNat ∧ String.utf8EncodeChar c = b :: continuations c.toNat n := by
  have hvalid : c.toNat < 0xd800 ∨ 0xdfff < c.toNat ∧ c.toNat < 0x110000 := c.valid
  have hlead : ∀ {m n}, m < 256 → (∀ b : UInt8, b.toNat = m → Lead b n c.toNat) →
      ∃ b n, Lead b n c.toNat ∧ String.utf8EncodeChar c = b :: continuations c.toNat n := by
    intro m n hm hb
    have h := hb (UInt8.ofNat m) (UInt8.toNat_ofNat_of_lt' hm)
    refine ⟨_, n, h, ?_⟩
    rw [← utf8EncodeChar_of_lead h, Char.ofNat_toNat]
  by_cases h₁ : c.toNat < 0x80
  · refine .inl ⟨h₁, ?_⟩
    unfold String.utf8EncodeChar
    exact if_pos (Nat.le_of_lt_succ h₁)
  · refine .inr ?_
    by_cases h₂ : c.toNat < 0x800
    · exact hlead (n := 1) (by omega) fun b hb ↦ ⟨hb, by omega, h₂⟩
    · by_cases h₃ : c.toNat < 0x10000
      · exact hlead (n := 2) (by omega) fun b hb ↦ ⟨hb, by omega, h₃, by omega⟩
      · exact hlead (n := 3) (by omega) fun b hb ↦ ⟨hb, by omega, by omega⟩

/-- What a first byte leaves pending that is no character by itself. -/
structure Leads (b : UInt8) (q : Pending) : Prop where
  live : q.Live
  byte_le : 0xc2 ≤ b.toNat
  awaits_iff (v : Nat) : q.Awaits v ↔ Lead b q.left v
  left_eq (n v : Nat) (h : Lead b n v) : q.left = n

theorem first_cases (b : UInt8) :
    (b.toNat < 0x80 ∧ first b = ([Char.ofNat b.toNat], none)) ∨
    (∃ q, first b = ([], some q) ∧ Leads b q) ∨
    (first b = ([CodePage.replacement], none) ∧ ∀ n v, ¬Lead b n v) := by
  unfold first
  simp only [UInt8.lt_iff_toNat_lt, UInt8.le_iff_toNat_le, ← UInt8.toNat_inj, UInt8.toNat_ofNat, Nat.reducePow,
    Nat.reduceMod]
  split_ifs with hone
  · exact .inl ⟨hone, rfl⟩
  -- the bounds on the second byte are those that make the number of the character one of its length
  all_goals first
    | refine .inr (.inl ⟨_, rfl, by trivial, by omega, fun v ↦ ?_, fun n v h ↦ ?_⟩)
      · simp only [Lead, Pending.left, Pending.Awaits, shift, UInt8.toNat_ofNat, Nat.reducePow, Nat.reduceMod,
          Nat.reduceAdd]
        omega
      · have := lead_bounds h
        simp only [Pending.left]
        omega
    | refine .inr (.inr ⟨rfl, fun n v h ↦ ?_⟩)
      have := lead_bounds h
      omega

theorem first_of_lt {b : UInt8} (h : b.toNat < 0x80) : first b = ([Char.ofNat b.toNat], none) :=
  if_pos (UInt8.lt_iff_toNat_lt.mpr h)

theorem first_of_pending {b : UInt8} {q : Pending} (h : first b = ([], some q)) : Leads b q := by
  obtain ⟨-, he⟩ | ⟨q', he, hq⟩ | ⟨he, -⟩ := first_cases b
  · cases he.symm.trans h
  · cases he.symm.trans h
    exact hq
  · cases he.symm.trans h

theorem first_of_lead {b : UInt8} {n v : Nat} (h : Lead b n v) :
    ∃ q, first b = ([], some q) ∧ q.left = n ∧ q.Awaits v := by
  obtain ⟨hone, -⟩ | ⟨q, he, hq⟩ | ⟨-, hno⟩ := first_cases b
  · have := lead_bounds h
    omega
  · obtain rfl := hq.left_eq n v h
    exact ⟨q, he, rfl, (hq.awaits_iff v).mpr h⟩
  · exact absurd h (hno n v)

theorem next_of_awaits {q : Pending} {v : Nat} (h : q.Awaits v) :
    (q.left = 1 ∧ next (some q) (continuation v 0) = ([Char.ofNat v], none)) ∨
      ∃ k q', q.left = k + 2 ∧ next (some q) (continuation v (k + 1)) = ([], some q') ∧ q'.Awaits v ∧
        q'.left = k + 1 := by
  cases q with
  | lacking code after low high =>
    obtain ⟨rfl, hlow, hhigh⟩ := h
    have hin : low ≤ continuation v after ∧ continuation v after ≤ high := by
      rw [UInt8.le_iff_toNat_le, UInt8.le_iff_toNat_le, toNat_continuation]
      exact ⟨hlow, hhigh⟩
    have hcode : shift v (after + 1) * 64 + ((continuation v after).toNat - 0x80) = shift v after := by
      rw [toNat_continuation, Nat.add_sub_cancel, shift_succ, Nat.div_add_mod']
    cases after with
    | zero =>
      refine .inl ⟨rfl, ?_⟩
      rw [next, if_pos hin]
      dsimp only
      rw [hcode, shift]
    | succ k =>
      refine .inr ⟨k, .lacking (shift v (k + 1)) k 0x80 0xbf, rfl, ?_, ⟨rfl, ?_, ?_⟩, rfl⟩
      · rw [next, if_pos hin]
        dsimp only
        rw [hcode]
      · change 0x80 ≤ _
        omega
      · change _ ≤ 0xbf
        omega
  | surrogateLead =>
    obtain ⟨hlead, hsecond⟩ := h
    have hbyte : (continuation v 1).toNat = v / 64 % 64 + 0x80 := toNat_continuation v 1
    have hcode : shift v 1 = 0xd * 64 + v / 64 % 64 := by
      rw [shift, shift]
      omega
    refine .inr ⟨0, .lacking (0xd * 64 + v / 64 % 64) 0 0x80 0xbf, rfl, ?_, ⟨hcode, ?_, ?_⟩, rfl⟩
    · rw [next, if_pos, hbyte, Nat.add_sub_cancel]
      rw [UInt8.le_iff_toNat_le, UInt8.le_iff_toNat_le, hbyte]
      exact ⟨Nat.le_add_left _ _, hsecond⟩
    · change 0x80 ≤ _
      omega
    · change _ ≤ 0xbf
      omega
  | surrogate => cases h

/-- A byte goes on with what is pending, completes it, or is read on its own. -/
theorem next_cases {q : Pending} (hq : q.Live) (b : UInt8) :
    (∃ q', next (some q) b = ([], some q') ∧
      (q' = .surrogate ∧ first b = ([CodePage.replacement], none) ∨
        q'.Live ∧ ∀ v, q'.Awaits v → q.Awaits v ∧ q.left = q'.left + 1 ∧ b = continuation v q'.left)) ∨
    (∃ v, next (some q) b = ([Char.ofNat v], none) ∧ q.Awaits v ∧ q.left = 1 ∧ b = continuation v 0) ∨
    next (some q) b = restart q b := by
  cases q with
  | lacking code after low high =>
    obtain ⟨hlow, -, hhigh⟩ := hq
    by_cases hin : low ≤ b ∧ b ≤ high
    · have hl := UInt8.le_iff_toNat_le.mp hin.1
      have hh := UInt8.le_iff_toNat_le.mp hin.2
      have hnext : ∀ {v k}, shift v k = code * 64 + (b.toNat - 0x80) →
          shift v (k + 1) = code ∧ shift v k % 64 + 0x80 = b.toNat := by
        intro v k hv
        rw [shift_succ, hv]
        omega
      cases after with
      | zero =>
        have hv := hnext (v := code * 64 + (b.toNat - 0x80)) (k := 0) rfl
        refine .inr (.inl ⟨code * 64 + (b.toNat - 0x80), ?_, ⟨hv.1, by omega, by omega⟩, rfl,
          eq_continuation hv.2.symm⟩)
        rw [next, if_pos hin]
      | succ k =>
        refine .inl ⟨.lacking (code * 64 + (b.toNat - 0x80)) k 0x80 0xbf, ?_, .inr ⟨by trivial, ?_⟩⟩
        · rw [next, if_pos hin]
        · rintro v ⟨hcode, -, -⟩
          have hv := hnext hcode
          exact ⟨⟨hv.1, by omega, by omega⟩, rfl, eq_continuation hv.2.symm⟩
    · exact .inr (.inr (by rw [next, if_neg hin]))
  | surrogateLead =>
    rw [next]
    split_ifs with hlow hhigh
    · have hl : 0x80 ≤ b.toNat := UInt8.le_iff_toNat_le.mp hlow.1
      have hh : b.toNat ≤ 0x9f := UInt8.le_iff_toNat_le.mp hlow.2
      refine .inl ⟨_, rfl, .inr ⟨by trivial, ?_⟩⟩
      rintro v ⟨hcode, -, -⟩
      have hv : v / 64 = 0xd * 64 + (b.toNat - 0x80) := hcode
      refine ⟨⟨by omega, by omega⟩, rfl, eq_continuation (k := 1) ?_⟩
      rw [hcode]
      omega
    · have hl : 0xa0 ≤ b.toNat := UInt8.le_iff_toNat_le.mp hhigh.1
      have hh : b.toNat ≤ 0xbf := UInt8.le_iff_toNat_le.mp hhigh.2
      refine .inl ⟨_, rfl, .inl ⟨rfl, ?_⟩⟩
      obtain ⟨hone, -⟩ | ⟨q, -, -, hlead, -⟩ | ⟨he, -⟩ := first_cases b
      · omega
      · omega
      · exact he
    · exact .inr (.inr rfl)
  | surrogate => cases hq

/-- Bytes that are read without a character and leave something pending. -/
inductive Opens : List UInt8 → Pending → Prop
  | first {b : UInt8} {q : Pending} (h : first b = ([], some q)) : Opens [b] q
  | next {p : List UInt8} {q q' : Pending} {b : UInt8} (h : Opens p q) (hn : next (some q) b = ([], some q')) :
      Opens (p ++ [b]) q'

namespace Opens

variable {p : List UInt8} {q : Pending}

theorem live (h : Opens p q) : q = .surrogate ∨ q.Live := by
  induction h with
  | first h => exact .inr (first_of_pending h).live
  | @next p q q' b h hn ih =>
    obtain rfl | hq := ih
    · cases congrArg Prod.fst hn
    · obtain ⟨q', he, ⟨rfl, -⟩ | ⟨hq', -⟩⟩ | ⟨v, he, -⟩ | he := next_cases hq b
      · cases he.symm.trans hn
        exact .inl rfl
      · cases he.symm.trans hn
        exact .inr hq'
      · cases he.symm.trans hn
      · have hout := congrArg Prod.fst (he.symm.trans hn)
        rw [restart, Pending.replaced_of_live hq] at hout
        cases hout

theorem next_awaits {b : UInt8} {q' : Pending} (h : Opens p q) (hn : Utf8.next (some q) b = ([], some q')) {v : Nat}
    (hv : q'.Awaits v) : q.Awaits v ∧ q.left = q'.left + 1 ∧ b = continuation v q'.left := by
  obtain rfl | hq := h.live
  · cases congrArg Prod.fst hn
  · obtain ⟨q'', he, ⟨rfl, -⟩ | ⟨-, hback⟩⟩ | ⟨v, he, -⟩ | he := next_cases hq b
    · cases he.symm.trans hn
      cases hv
    · cases he.symm.trans hn
      exact hback v hv
    · cases he.symm.trans hn
    · have hout := congrArg Prod.fst (he.symm.trans hn)
      rw [restart, Pending.replaced_of_live hq] at hout
      cases hout

theorem encode (h : Opens p q) {v : Nat} (hv : q.Awaits v) :
    String.utf8EncodeChar (Char.ofNat v) = p ++ continuations v q.left := by
  induction h with
  | first h => exact utf8EncodeChar_of_lead (((first_of_pending h).awaits_iff v).mp hv)
  | @next p q q' b h hn ih =>
    obtain ⟨hq, hleft, rfl⟩ := h.next_awaits hn hv
    rw [ih hq, hleft, continuations, List.append_assoc]
    rfl

theorem begins (h : Opens p q) (hq : q.Live) : Begins p := by
  obtain ⟨v, hv⟩ := hq.exists_awaits
  exact ⟨Char.ofNat v, by rw [h.encode hv]; exact List.prefix_append _ _⟩

/-- A byte that is a character by itself breaks off what is pending. -/
theorem next_of_lt (h : Opens p q) {b : UInt8} (hb : b.toNat < 0x80) : Utf8.next (some q) b = restart q b := by
  have hcontinuation : ∀ v k, b ≠ continuation v k := by
    rintro v k rfl
    rw [toNat_continuation] at hb
    omega
  obtain rfl | hq := h.live
  · rfl
  · obtain ⟨q', -, ⟨-, he⟩ | ⟨hq', hback⟩⟩ | ⟨v, -, -, -, he⟩ | he := next_cases hq b
    · have hchar : Char.ofNat b.toNat = CodePage.replacement :=
        (List.cons.inj (congrArg Prod.fst ((first_of_lt hb).symm.trans he))).1
      have hvalue := congrArg Char.toNat hchar
      rw [toNat_ofNat (.inl (by omega))] at hvalue
      rw [hvalue] at hb
      exact absurd hb (by decide)
    · obtain ⟨v, hv⟩ := hq'.exists_awaits
      exact absurd (hback v hv).2.2 (hcontinuation v _)
    · exact absurd he (hcontinuation v 0)
    · exact he

theorem stream_append (h : Opens p q) (bs : List UInt8) : stream none (p ++ bs) = stream (some q) bs := by
  induction h generalizing bs with
  | @first b q h =>
    change (Utf8.first b).1 ++ stream (Utf8.first b).2 bs = _
    rw [h]
    rfl
  | next h hn ih =>
    rw [List.append_assoc, ih, List.singleton_append, stream, hn]
    rfl

end Opens

theorem exists_opens {c : Char} {p t : List UInt8} (h : String.utf8EncodeChar c = p ++ t) (hp : p ≠ [])
    (ht : t ≠ []) : ∃ q, Opens p q ∧ q.Awaits c.toNat ∧ t = continuations c.toNat q.left := by
  -- what the bytes before the last one leave pending says that the last one is the next continuation
  induction p using List.reverseRecOn generalizing t with
  | nil => exact absurd rfl hp
  | append_singleton p b ih =>
    rw [List.append_assoc, List.singleton_append] at h
    by_cases hp : p = []
    · subst hp
      obtain ⟨-, he⟩ | ⟨b', n, hlead, he⟩ := utf8EncodeChar_cases c
      · exact absurd (List.cons.inj (h.symm.trans he)).2 ht
      · obtain ⟨rfl, rfl⟩ := List.cons.inj (h.symm.trans he)
        obtain ⟨q, hfirst, rfl, hq⟩ := first_of_lead hlead
        exact ⟨q, .first hfirst, hq, rfl⟩
    · obtain ⟨q, hopens, hq, hrest⟩ := ih h hp (by simp)
      obtain ⟨hleft, -⟩ | ⟨k, q', hleft, hnext, hq', hleft'⟩ := next_of_awaits hq
      · rw [hleft] at hrest
        exact absurd (List.cons.inj hrest).2 ht
      · rw [hleft] at hrest
        obtain ⟨rfl, rfl⟩ := List.cons.inj hrest
        exact ⟨q', hopens.next hnext, hq', by rw [hleft']⟩

/-- The last byte of a character completes it, and the bytes before only begin it. -/
theorem exists_last (c : Char) : ∃ p b, String.utf8EncodeChar c = p ++ [b] ∧
    ((p = [] ∧ first b = ([c], none)) ∨ ∃ q, Opens p q ∧ next (some q) b = ([c], none)) := by
  obtain ⟨hc, he⟩ | ⟨b, n, hlead, he⟩ := utf8EncodeChar_cases c
  · have hb : (UInt8.ofNat c.toNat).toNat = c.toNat := UInt8.toNat_ofNat_of_lt' (by change _ < 256; omega)
    refine ⟨[], UInt8.ofNat c.toNat, he, .inl ⟨rfl, ?_⟩⟩
    rw [first_of_lt (by rw [hb]; exact hc), hb, Char.ofNat_toNat]
  · obtain ⟨p, l, hpl⟩ := (List.eq_nil_or_concat (String.utf8EncodeChar c)).resolve_left (by rw [he]; simp)
    rw [List.concat_eq_append] at hpl
    have hp : p ≠ [] := by
      rintro rfl
      obtain ⟨-, hn⟩ := List.cons.inj (he.symm.trans hpl)
      match n, hlead with
      | 1, _ | 2, _ | 3, _ => cases hn
    obtain ⟨q, hopens, hq, hrest⟩ := exists_opens hpl hp (by simp)
    obtain ⟨hleft, hnext⟩ | ⟨k, q', hleft, -⟩ := next_of_awaits hq
    · rw [hleft] at hrest
      obtain ⟨rfl, -⟩ := List.cons.inj hrest
      rw [Char.ofNat_toNat] at hnext
      exact ⟨p, _, hpl, .inr ⟨q, hopens, hnext⟩⟩
    · rw [hleft] at hrest
      cases (List.cons.inj hrest).2

theorem stream_char (c : Char) (bs : List UInt8) :
    stream none (String.utf8EncodeChar c ++ bs) = c :: stream none bs := by
  obtain ⟨p, b, he, ⟨rfl, hb⟩ | ⟨q, hopens, hb⟩⟩ := exists_last c
  · rw [he, List.nil_append, List.singleton_append, stream, next, hb]
    rfl
  · rw [he, List.append_assoc, hopens.stream_append, List.singleton_append, stream, hb]
    rfl

/-- A second byte that no character has after the first makes two replacements, but only when more is known. -/
theorem stream_surrogate (bs : List UInt8) :
    stream (some .surrogate) bs = [CodePage.replacement, CodePage.replacement] ++ stream none bs := by
  cases bs with
  | nil => rfl
  | cons b bs =>
    change (Pending.surrogate.replaced ++ (first b).1) ++ stream (first b).2 bs = _
    rw [List.append_assoc]
    rfl

/-- Of bytes that begin a character, the end of the text makes a single replacement. -/
theorem Opens.flush_of_begins {p : List UInt8} {q : Pending} (h : Opens p q) (hp : Begins p) :
    flush (some q) = [CodePage.replacement] := by
  have hflush : stream none p = flush (some q) := by
    rw [← List.append_nil p, h.stream_append]
    rfl
  obtain rfl | hq := h.live
  · exfalso
    obtain ⟨c, t, hct⟩ := hp
    obtain rfl | ht := eq_or_ne t []
    · rw [List.append_nil] at hct
      have hchar := stream_char c []
      rw [List.append_nil, ← hct, hflush] at hchar
      cases hchar
    · have hne : p ≠ [] := by
        cases h <;> simp
      obtain ⟨q, hopens, hq, -⟩ := exists_opens hct.symm hne ht
      have hflush' := hopens.stream_append []
      rw [List.append_nil, hflush] at hflush'
      obtain rfl | hlive := hopens.live
      · cases hq
      · cases hflush'.trans (Pending.replaced_of_live hlive)
  · exact Pending.replaced_of_live hq

theorem next_opens {pending : Option Pending} {b : UInt8} {q : Pending} (h : (next pending b).2 = some q) :
    Opens [b] q ∨ ∃ q', pending = some q' ∧ ∀ p, Opens p q' → Opens (p ++ [b]) q := by
  have hfirst : (first b).2 = some q → Opens [b] q := by
    intro h
    refine .first ?_
    obtain ⟨-, he⟩ | ⟨q', he, -⟩ | ⟨he, -⟩ := first_cases b
    · rw [he] at h
      cases h
    · rw [he] at h ⊢
      cases h
      rfl
    · rw [he] at h
      cases h
  cases pending with
  | none => exact .inl (hfirst h)
  | some q' =>
    refine or_iff_not_imp_left.mpr fun hno ↦ ⟨q', rfl, fun p hp ↦ ?_⟩
    obtain rfl | hq := hp.live
    · exact absurd (hfirst h) hno
    · obtain ⟨q'', he, -⟩ | ⟨v, he, -⟩ | he := next_cases hq b
      · rw [he] at h
        cases h
        exact hp.next he
      · rw [he] at h
        cases h
      · rw [he] at h
        exact absurd (hfirst h) hno

theorem stream_replaced {p bs : List UInt8} (h : Replaced p bs) :
    stream none (p ++ bs) = CodePage.replacement :: stream none bs := by
  obtain ⟨q, hopens, hq⟩ | ⟨b, rfl, hb⟩ : (∃ q, Opens p q ∧ q.Live) ∨
      ∃ b, p = [b] ∧ first b = ([CodePage.replacement], none) := by
    obtain ⟨c, t, hct⟩ | hp := h.begins
    · have ht : t ≠ [] := by
        rintro rfl
        exact h.incomplete c (by rw [← hct, List.append_nil])
      obtain ⟨q, hopens, hq, -⟩ := exists_opens hct.symm h.ne_nil ht
      obtain rfl | hlive := hopens.live
      · cases hq
      · exact .inl ⟨q, hopens, hlive⟩
    · obtain ⟨b, rfl⟩ := List.length_eq_one_iff.mp hp
      obtain ⟨hone, -⟩ | ⟨q, hfirst, hq, -⟩ | ⟨hb, -⟩ := first_cases b
      · exact absurd (utf8EncodeChar_of_lt hone).symm (h.incomplete _)
      · exact .inl ⟨q, .first hfirst, hq⟩
      · exact .inr ⟨b, rfl, hb⟩
  · rw [hopens.stream_append]
    cases bs with
    | nil => exact Pending.replaced_of_live hq
    | cons b bs =>
      have hmax := h.maximal b rfl
      obtain ⟨q', he, ⟨rfl, hb⟩ | ⟨hq', -⟩⟩ | ⟨v, he, hv, hleft, rfl⟩ | he := next_cases hq b
      · rw [stream, he, stream, next, hb]
        exact stream_surrogate bs
      · exact absurd ((hopens.next he).begins hq') hmax
      · refine absurd ⟨Char.ofNat v, ?_⟩ hmax
        rw [hopens.encode hv, hleft]
        exact List.prefix_rfl
      · rw [stream, he, restart, Pending.replaced_of_live hq]
        rfl
  · rw [List.singleton_append, stream, next, hb]
    rfl

theorem Decodes.eq_stream {bs : List UInt8} {cs : List Char} (h : Decodes bs cs) : cs = stream none bs := by
  induction h with
  | nil => rfl
  | char c h ih => rw [stream_char, ← ih]
  | replaced hp h ih => rw [stream_replaced hp, ← ih]

theorem exists_head {p : List UInt8} (hne : p ≠ []) (hp : Begins p ∨ p.length = 1) (rest : List UInt8) :
    (∃ c bs, p ++ rest = String.utf8EncodeChar c ++ bs) ∨ ∃ p' bs, p ++ rest = p' ++ bs ∧ Replaced p' bs := by
  -- `p` takes in further bytes as long as they still begin a character
  have hstop : ∀ {p rest : List UInt8}, p ≠ [] → (Begins p ∨ p.length = 1) →
      (∀ b ∈ rest.head?, ¬Begins (p ++ [b])) →
      (∃ c bs, p ++ rest = String.utf8EncodeChar c ++ bs) ∨ ∃ p' bs, p ++ rest = p' ++ bs ∧ Replaced p' bs := by
    intro p rest hne hp hmax
    by_cases hc : ∃ c, p = String.utf8EncodeChar c
    · obtain ⟨c, rfl⟩ := hc
      exact .inl ⟨c, rest, rfl⟩
    · exact .inr ⟨p, rest, rfl, hne, hp, not_exists.mp hc, hmax⟩
  induction rest generalizing p with
  | nil => exact hstop hne hp (by simp)
  | cons b rest ih =>
    by_cases hb : Begins (p ++ [b])
    · have h := ih (p := p ++ [b]) (by simp) (.inl hb)
      rwa [List.append_assoc] at h
    · refine hstop hne hp ?_
      rintro _ ⟨⟩
      exact hb

theorem decodes_stream (bs : List UInt8) : Decodes bs (stream none bs) := by
  -- the head of a text is one byte or more, so the rest is shorter
  obtain ⟨n, hn⟩ : ∃ n, bs.length ≤ n := ⟨_, Nat.le_refl _⟩
  induction n generalizing bs with
  | zero =>
    obtain rfl := List.length_eq_zero_iff.mp (Nat.le_zero.mp hn)
    exact .nil
  | succ n ih =>
    cases bs with
    | nil => exact .nil
    | cons b bs =>
      obtain ⟨c, rest, he⟩ | ⟨p, rest, he, hp⟩ := exists_head (p := [b]) (by simp) (.inr rfl) bs
      · rw [List.singleton_append] at he
        rw [he] at hn ⊢
        rw [stream_char]
        refine .char c (ih rest ?_)
        have := String.length_utf8EncodeChar c
        have := c.utf8Size_pos
        rw [List.length_append] at hn
        omega
      · rw [List.singleton_append] at he
        rw [he] at hn ⊢
        rw [stream_replaced hp]
        refine .replaced hp (ih rest ?_)
        have := List.length_pos_iff.mpr hp.ne_nil
        rw [List.length_append] at hn
        omega

theorem decodes_iff {bs : List UInt8} {cs : List Char} : Decodes bs cs ↔ cs = stream none bs :=
  ⟨Decodes.eq_stream, fun h ↦ h ▸ decodes_stream bs⟩

end TermCapture.Utf8
