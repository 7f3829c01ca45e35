import Mathlib.Data.List.Range
import Mathlib.Tactic.SplitIfs
import TermCapture.Text.Integer

namespace TermCapture.Text

/-- The value of a hexadecimal digit. Decimal digits of other scripts count as well. -/
def hexValue? (c : Char) : Option Nat := (digitValue? c).filter (· < 16)

/-- Two characters that are read as a number: two digits, or one with a sign or a blank. -/
inductive ReadsPair : Char → Char → Int → Prop
  | digits {a b : Char} {m n : Nat} (ha : hexValue? a = some m) (hb : hexValue? b = some n) :
      ReadsPair a b (m * 16 + n : Nat)
  | plus {b : Char} {n : Nat} (hb : hexValue? b = some n) : ReadsPair '+' b n
  | minus {b : Char} {n : Nat} (hb : hexValue? b = some n) : ReadsPair '-' b (-n)
  | blankBefore {a b : Char} {n : Nat} (ha : numberBlank a = true) (hb : hexValue? b = some n) : ReadsPair a b n
  | blankBehind {a b : Char} {m : Nat} (ha : hexValue? a = some m) (hb : numberBlank b = true) : ReadsPair a b m

theorem hexValue?_lt {c : Char} {n : Nat} (h : hexValue? c = some n) : n < 16 := by
  simpa using (Option.filter_eq_some_iff.mp h).2

theorem hexValue?_digitChar : ∀ n < 16, hexValue? n.digitChar = some n := by decide +kernel

/-- The signs, the mark between digits and the mark of the base. -/
theorem hexValue?_of_mark {c : Char} (h : c ∈ ['+', '-', '_', 'x', 'X']) : hexValue? c = none := by
  have hall : ['+', '-', '_', 'x', 'X'].all fun c ↦ hexValue? c = none := by decide +kernel
  exact of_decide_eq_true (List.all_eq_true.mp hall c h)

def blankCodes : List Nat :=
  List.range' 0x09 5 ++ List.range' 0x2000 11 ++
    [0x20, 0x85, 0xa0, 0x1680, 0x2028, 0x2029, 0x202f, 0x205f, 0x3000]

theorem hexValue?_blankCodes : ∀ n ∈ blankCodes, hexValue? (Char.ofNat n) = none := by decide +kernel

theorem mem_blankCodes {c : Char} (h : numberBlank c = true) : c.toNat ∈ blankCodes := by
  simp only [numberBlank, Bool.or_eq_true, Bool.and_eq_true, decide_eq_true_eq, List.contains_iff_mem] at h
  simp only [blankCodes, List.mem_append, List.mem_range'_1]
  obtain (h | h) | h := h
  · exact .inl (.inl (by omega))
  · exact .inl (.inr (by omega))
  · exact .inr h

theorem hexValue?_of_blank {c : Char} (h : numberBlank c = true) : hexValue? c = none := by
  have hnone := hexValue?_blankCodes c.toNat (mem_blankCodes h)
  rwa [Char.ofNat_toNat] at hnone

theorem not_blank {c : Char} {n : Nat} (h : hexValue? c = some n) : numberBlank c = false := by
  cases hblank : numberBlank c with
  | false => rfl
  | true => cases (hexValue?_of_blank hblank).symm.trans h

theorem readDigits_cons {c : Char} (hc : c ≠ '_') (acc : Nat) (need : Bool) (cs : List Char) :
    readDigits 16 acc need (c :: cs) = (hexValue? c).bind fun n ↦ readDigits 16 (acc * 16 + n) false cs := by
  rw [readDigits, hexValue?]
  · cases digitValue? c with
    | none => rfl
    | some n => by_cases hn : n < 16 <;> simp [Option.filter_some, hn]
  · exact hc

theorem readNatural?_one (c : Char) : readNatural? 16 [c] = hexValue? c := by
  have hmark : dropBaseMark [c] = [c] := by
    unfold dropBaseMark
    split
    · rename_i h
      cases h
    · rfl
  rw [readNatural?, if_pos rfl, hmark]
  by_cases hc : c = '_'
  · subst hc
    exact (hexValue?_of_mark (c := '_') (by decide)).symm
  · rw [readDigits_cons hc]
    cases hexValue? c with
    | none => rfl
    | some n => simp [readDigits]

theorem readNatural?_two (a b : Char) :
    readNatural? 16 [a, b] = (hexValue? a).bind fun m ↦ (hexValue? b).map fun n ↦ m * 16 + n := by
  have hscore := hexValue?_of_mark (c := '_') (by decide)
  by_cases hx : a = '0' ∧ (b = 'x' ∨ b = 'X')
  · obtain ⟨rfl, rfl | rfl⟩ := hx <;> decide +kernel
  · have hmark : dropBaseMark [a, b] = [a, b] := by
      unfold dropBaseMark
      split
      · rename_i h
        obtain ⟨h₀, h⟩ := List.cons.inj h
        obtain ⟨rfl, rfl⟩ := List.cons.inj h
        rw [if_neg fun h ↦ hx ⟨h₀, h⟩, h₀]
      · rfl
    rw [readNatural?, if_pos rfl, hmark]
    by_cases ha : a = '_'
    · subst ha
      rw [hscore]
      rfl
    · rw [readDigits_cons ha]
      cases hexValue? a with
      | none => rfl
      | some m =>
        by_cases hb : b = '_'
        · subst hb
          simp [hscore, readDigits]
        · rw [Option.bind_some, readDigits_cons hb]
          cases hexValue? b with
          | none => rfl
          | some n => simp [readDigits]

theorem strip_pair (a b : Char) : strip numberBlank [a, b] =
    (if numberBlank a then [] else [a]) ++ if numberBlank b then [] else [b] := by
  cases ha : numberBlank a <;> cases hb : numberBlank b <;> simp [strip, ha, hb]

section

variable {text : String} {a b : Char}

theorem readInteger?_one (h : strip numberBlank text.toList = [a]) :
    readInteger? 16 text = (hexValue? a).map Int.ofNat := by
  rw [readInteger?, h]
  split
  · rename_i he
    cases he
    rw [hexValue?_of_mark (c := '-') (by decide)]
    rfl
  · rename_i he
    cases he
    rw [hexValue?_of_mark (c := '+') (by decide)]
    rfl
  · rw [readNatural?_one]

/-- A sign before a digit, or two digits. -/
theorem readInteger?_two (h : strip numberBlank text.toList = [a, b]) :
    readInteger? 16 text =
      if a = '-' then (hexValue? b).map fun (n : Nat) ↦ -(n : Int)
      else if a = '+' then (hexValue? b).map Int.ofNat
      else (hexValue? a).bind fun m ↦ (hexValue? b).map fun n ↦ Int.ofNat (m * 16 + n) := by
  rw [readInteger?, h]
  split
  · rename_i he
    cases he
    rw [readNatural?_one, if_pos rfl]
    cases hexValue? b <;> rfl
  · rename_i he
    cases he
    rw [readNatural?_one]
    rfl
  · rename_i hminus hplus
    rw [if_neg fun h ↦ hminus [b] (by rw [h]), if_neg fun h ↦ hplus [b] (by rw [h]), readNatural?_two]
    cases hexValue? a with
    | none => rfl
    | some m => cases hexValue? b <;> rfl

end

/-- Two characters make a number in these ways and in no other. -/
theorem readInteger?_pair_iff {a b : Char} {v : Int} :
    readInteger? 16 (String.ofList [a, b]) = some v ↔ ReadsPair a b v := by
  have hstrip : strip numberBlank (String.ofList [a, b]).toList =
      (if numberBlank a then [] else [a]) ++ if numberBlank b then [] else [b] := by
    rw [String.toList_ofList, strip_pair]
  constructor
  · intro h
    cases ha : numberBlank a <;> cases hb : numberBlank b <;> rw [ha, hb] at hstrip
    · rw [readInteger?_two hstrip] at h
      split_ifs at h with hminus hplus
      · obtain ⟨n, hn, rfl⟩ := Option.map_eq_some_iff.mp h
        exact hminus ▸ .minus hn
      · obtain ⟨n, hn, rfl⟩ := Option.map_eq_some_iff.mp h
        exact hplus ▸ .plus hn
      · obtain ⟨m, hm, h⟩ := Option.bind_eq_some_iff.mp h
        obtain ⟨n, hn, rfl⟩ := Option.map_eq_some_iff.mp h
        exact .digits hm hn
    · rw [readInteger?_one hstrip] at h
      obtain ⟨m, hm, rfl⟩ := Option.map_eq_some_iff.mp h
      exact .blankBehind hm hb
    · rw [readInteger?_one hstrip] at h
      obtain ⟨n, hn, rfl⟩ := Option.map_eq_some_iff.mp h
      exact .blankBefore ha hn
    · rw [readInteger?, hstrip] at h
      cases h
  · intro h
    cases h with
    | digits ha hb =>
      have hsign : ∀ {c}, c ∈ ['+', '-', '_', 'x', 'X'] → a ≠ c := by
        rintro c hc rfl
        cases (hexValue?_of_mark hc).symm.trans ha
      rw [not_blank ha, not_blank hb] at hstrip
      rw [readInteger?_two hstrip, if_neg (hsign (by decide)), if_neg (hsign (by decide)), ha, hb]
      rfl
    | plus hb =>
      rw [not_blank hb] at hstrip
      rw [readInteger?_two hstrip, if_neg (by decide), if_pos rfl, hb]
      rfl
    | minus hb =>
      rw [not_blank hb] at hstrip
      rw [readInteger?_two hstrip, if_pos rfl, hb]
      rfl
    | blankBefore ha hb =>
      rw [ha, not_blank hb] at hstrip
      rw [readInteger?_one hstrip, hb]
      rfl
    | blankBehind ha hb =>
      rw [not_blank ha, hb] at hstrip
      rw [readInteger?_one hstrip, ha]
      rfl

/-- Such a number has at most one digit behind a minus, and otherwise two. -/
theorem ReadsPair.bounds {a b : Char} {v : Int} (h : ReadsPair a b v) : -15 ≤ v ∧ v ≤ 255 := by
  cases h with
  | digits ha hb =>
    have := hexValue?_lt ha
    have := hexValue?_lt hb
    omega
  | plus hb | minus hb | blankBefore _ hb =>
    have := hexValue?_lt hb
    omega
  | blankBehind ha _ =>
    have := hexValue?_lt ha
    omega

end TermCapture.Text
