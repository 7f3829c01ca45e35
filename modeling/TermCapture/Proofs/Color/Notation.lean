import TermCapture.Proofs.Color.Range
import TermCapture.Proofs.Text.Hexadecimal

namespace TermCapture

namespace Text

/-- The digits of a notation, with letters of either case. -/
def notationDigits : List Char := hexDigits ++ "ABCDEF".toList

theorem hexValue?_notationDigits : ∀ d ∈ notationDigits, (hexValue? d).isSome := by
  have hall : notationDigits.all fun d ↦ (hexValue? d).isSome := by decide +kernel
  exact List.all_eq_true.mp hall

theorem ReadsPair.repeated {d : Char} {v : Int} (h : ReadsPair d d v) :
    ∃ n, hexValue? d = some n ∧ v = (17 * n : Nat) := by
  cases h with
  | digits ha hb =>
    cases ha.symm.trans hb
    exact ⟨_, ha, by omega⟩
  | plus hb | minus hb => cases (hexValue?_of_mark (by decide)).symm.trans hb
  | blankBefore hblank hd | blankBehind hd hblank => cases (not_blank hd).symm.trans hblank

theorem ReadsPair.of_repeated {d : Char} {n : Nat} (h : hexValue? d = some n) :
    ReadsPair d d (17 * n : Nat) := by
  rw [show 17 * n = n * 16 + n by omega]
  exact .digits h h

/-- Only a minus makes a number negative. -/
theorem ReadsPair.nonneg {a b : Char} {v : Int} (h : ReadsPair a b v) (ha : a ≠ '-') : 0 ≤ v := by
  cases h with
  | minus => exact absurd rfl ha
  | digits | plus | blankBefore | blankBehind => exact Int.natCast_nonneg _

/-- What two characters can hold is written in two characters, a minus among them. -/
theorem hexadecimal_readsPair {v : Int} (h : -15 ≤ v ∧ v ≤ 255) :
    ∃ a b, hexadecimal 2 v = [a, b] ∧ ReadsPair a b v := by
  by_cases hv : 0 ≤ v
  · obtain ⟨n, rfl⟩ := Int.eq_ofNat_of_zero_le hv
    have hpair := ReadsPair.digits (hexValue?_digitChar (n / 16) (by omega)) (hexValue?_digitChar (n % 16) (by omega))
    rw [Nat.div_add_mod'] at hpair
    exact ⟨_, _, hexadecimal_two (by omega), hpair⟩
  · obtain ⟨n, rfl⟩ := Int.exists_eq_neg_ofNat (show v ≤ 0 by omega)
    have hn : n < 16 := by omega
    refine ⟨_, _, ?_, .minus (hexValue?_digitChar n hn)⟩
    rw [hexadecimal, if_pos (by omega), digits, Int.natAbs_neg, Int.natAbs_natCast, Nat.toDigits_of_lt_base hn]
    rfl

end Text

namespace Color

open Text

theorem readChannel_iff {a b : Char} {v : Int} : readChannel a b = .ok v ↔ ReadsPair a b v := by
  rw [← readInteger?_pair_iff, readChannel]
  cases readInteger? 16 (String.ofList [a, b]) <;> simp

/-- What is behind the optional `#`. -/
def digitsOf (text : String) : List Char :=
  match text.toList with
  | '#' :: ds => ds
  | ds => ds

/-- Three digits are written twice each. -/
def places (ds : List Char) : List Char := if ds.length = 3 then ds.flatMap fun d ↦ [d, d] else ds

/-- Three digits that stand for two each, or two characters for each channel. -/
inductive Spells : List Char → Color → Prop
  | short {r g b : Char} {l m n : Nat} (hr : hexValue? r = some l) (hg : hexValue? g = some m)
      (hb : hexValue? b = some n) : Spells [r, g, b] ⟨(17 * l : Nat), (17 * m : Nat), (17 * n : Nat)⟩
  | long {r r' g g' b b' : Char} {c : Color} (hr : ReadsPair r r' c.red) (hg : ReadsPair g g' c.green)
      (hb : ReadsPair b b' c.blue) : Spells [r, r', g, g', b, b'] c

section

variable {text : String} {c : Color}

theorem ofHex_pairs_iff {r r' g g' b b' : Char} (h : places (digitsOf text) = [r, r', g, g', b, b']) :
    ofHex text = .ok c ↔ ReadsPair r r' c.red ∧ ReadsPair g g' c.green ∧ ReadsPair b b' c.blue := by
  have hread : ofHex text = do
      return ⟨← readChannel r r', ← readChannel g g', ← readChannel b b'⟩ := by
    unfold ofHex
    dsimp only
    split
    · rename_i hds
      cases hds.symm.trans h
      rfl
    · rename_i hds
      exact absurd h (hds _ _ _ _ _ _)
  simp only [hread, ← readChannel_iff]
  obtain ⟨cr, cg, cb⟩ := c
  cases readChannel r r' <;> cases readChannel g g' <;> cases readChannel b b' <;>
    simp [bind, Except.bind, pure, Except.pure]

/-- A color is read from what spells it, and from nothing else. -/
theorem ofHex_iff : ofHex text = .ok c ↔ Spells (digitsOf text) c := by
  constructor
  · intro h
    have hpairs : ∃ r r' g g' b b', places (digitsOf text) = [r, r', g, g', b, b'] := by
      unfold ofHex at h
      dsimp only at h
      split at h
      · rename_i hds
        exact ⟨_, _, _, _, _, _, hds⟩
      · cases h
    obtain ⟨r, r', g, g', b, b', hds⟩ := hpairs
    obtain ⟨hr, hg, hb⟩ := (ofHex_pairs_iff hds).mp h
    unfold places at hds
    split_ifs at hds with hlen
    · obtain ⟨x, y, z, he⟩ := List.length_eq_three.mp hlen
      rw [he] at hds ⊢
      cases hds
      obtain ⟨l, hl, hr⟩ := hr.repeated
      obtain ⟨m, hm, hg⟩ := hg.repeated
      obtain ⟨n, hn, hb⟩ := hb.repeated
      obtain rfl : c = ⟨(17 * l : Nat), (17 * m : Nat), (17 * n : Nat)⟩ := by rw [← hr, ← hg, ← hb]
      exact .short hl hm hn
    · rw [hds]
      exact .long hr hg hb
  · generalize hds : digitsOf text = ds
    intro h
    cases h with
    | short hr hg hb =>
      exact (ofHex_pairs_iff (by rw [hds]; rfl)).mpr ⟨.of_repeated hr, .of_repeated hg, .of_repeated hb⟩
    | long hr hg hb => exact (ofHex_pairs_iff (by rw [hds]; rfl)).mpr ⟨hr, hg, hb⟩

end

/-- Every channel can be held in two characters, behind a minus in one. -/
def FitsPairs (c : Color) : Prop := ∀ v ∈ c.channels, -15 ≤ v ∧ v ≤ 255

theorem fitsPairs_iff (c : Color) : c.FitsPairs ↔
    (-15 ≤ c.red ∧ c.red ≤ 255) ∧ (-15 ≤ c.green ∧ c.green ≤ 255) ∧ -15 ≤ c.blue ∧ c.blue ≤ 255 := by
  simp [FitsPairs, channels]

theorem InRange.fitsPairs {c : Color} (h : c.InRange) : c.FitsPairs := by
  intro v hv
  have := h v hv
  omega

theorem Spells.fitsPairs {ds : List Char} {c : Color} (h : Spells ds c) : c.FitsPairs := by
  rw [fitsPairs_iff]
  cases h with
  | short hr hg hb =>
    exact ⟨(ReadsPair.of_repeated hr).bounds, (ReadsPair.of_repeated hg).bounds, (ReadsPair.of_repeated hb).bounds⟩
  | long hr hg hb => exact ⟨hr.bounds, hg.bounds, hb.bounds⟩

/-- The notation of a color spells it, whether it is shortened or not. -/
theorem spells_hexDigits {c : Color} (h : c.FitsPairs) : Spells c.hexDigits c := by
  have hdigit : ∀ {v : Int}, -15 ≤ v ∧ v ≤ 255 → v.fmod 17 = 0 →
      ∃ n, v = (17 * n : Nat) ∧ ∃ d, hexadecimal 1 (v.fdiv 17) = [d] ∧ hexValue? d = some n := by
    intro v hv hmod
    rw [Int.fmod_eq_emod_of_nonneg _ (by decide)] at hmod
    obtain ⟨n, hn⟩ := Int.eq_ofNat_of_zero_le (show 0 ≤ v / 17 by omega)
    have hfdiv : v.fdiv 17 = n := by rw [Int.fdiv_eq_ediv_of_nonneg _ (by decide), hn]
    refine ⟨n, by omega, n.digitChar, ?_, hexValue?_digitChar n (by omega)⟩
    rw [hfdiv, hexadecimal_one (by omega)]
  obtain ⟨cr, cg, cb⟩ := c
  obtain ⟨hr, hg, hb⟩ := (fitsPairs_iff _).mp h
  dsimp only at hr hg hb
  unfold hexDigits
  dsimp only
  split
  · rename_i hall
    simp only [List.all_cons, List.all_nil, Bool.and_true, Bool.and_eq_true, decide_eq_true_eq] at hall
    obtain ⟨l, rfl, r, her, hr⟩ := hdigit hr hall.1
    obtain ⟨m, rfl, g, heg, hg⟩ := hdigit hg hall.2.1
    obtain ⟨n, rfl, b, heb, hb⟩ := hdigit hb hall.2.2
    simp only [List.flatMap_cons, List.flatMap_nil, her, heg, heb]
    exact .short hr hg hb
  · obtain ⟨r, r', her, hr⟩ := hexadecimal_readsPair hr
    obtain ⟨g, g', heg, hg⟩ := hexadecimal_readsPair hg
    obtain ⟨b, b', heb, hb⟩ := hexadecimal_readsPair hb
    simp only [List.flatMap_cons, List.flatMap_nil, her, heg, heb]
    exact .long hr hg hb

theorem digitsOf_hex (c : Color) : digitsOf c.hex = c.hexDigits := by
  rw [digitsOf, hex, String.toList_ofList]
  rfl

/-- A color in range is read back from its notation, whether that is shortened or not. -/
theorem ofHex_hex {c : Color} (h : c.InRange) : ofHex c.hex = .ok c :=
  ofHex_iff.mpr (digitsOf_hex c ▸ spells_hexDigits h.fitsPairs)

/-- An optional `#` and three or six hexadecimal digits. -/
def IsNotation (cs : List Char) : Prop :=
  ∃ ds, (cs = ds ∨ cs = '#' :: ds) ∧ (ds.length = 3 ∨ ds.length = 6) ∧ ∀ d ∈ ds, d ∈ notationDigits

/-- Being read exactly if it is a notation, and then as a color of bytes that is read back from its own. -/
structure Exact (text : String) : Prop where
  read_iff : (∃ c, ofHex text = .ok c) ↔ IsNotation text.toList
  inRange : ∀ c, ofHex text = .ok c → c.InRange
  round_trip : ∀ c, ofHex text = .ok c → ofHex c.hex = .ok c

theorem isNotation_iff (text : String) : IsNotation text.toList ↔
    ((digitsOf text).length = 3 ∨ (digitsOf text).length = 6) ∧ ∀ d ∈ digitsOf text, d ∈ notationDigits := by
  have hdigits : ∀ ds, (∀ d ∈ ds, d ∈ notationDigits) → text.toList = ds ∨ text.toList = '#' :: ds →
      digitsOf text = ds := by
    rintro ds hds (h | h)
    · rw [digitsOf, h]
      split
      · exact absurd (hds '#' List.mem_cons_self) (by decide)
      · rfl
    · rw [digitsOf, h]
      rfl
  constructor
  · rintro ⟨ds, htext, hlen, hds⟩
    rw [hdigits ds hds htext]
    exact ⟨hlen, hds⟩
  · rintro ⟨hlen, hds⟩
    refine ⟨digitsOf text, ?_, hlen, hds⟩
    rw [digitsOf]
    split
    · rename_i he
      exact .inr he
    · exact .inl rfl

theorem exists_spells {ds : List Char} (hlen : ds.length = 3 ∨ ds.length = 6)
    (hds : ∀ d ∈ ds, d ∈ notationDigits) : ∃ c, Spells ds c := by
  have hvalue : ∀ d ∈ ds, ∃ n, hexValue? d = some n := fun d hd ↦
    Option.isSome_iff_exists.mp (hexValue?_notationDigits d (hds d hd))
  obtain hlen | hlen := hlen
  · obtain ⟨r, g, b, rfl⟩ := List.length_eq_three.mp hlen
    obtain ⟨l, hr⟩ := hvalue r (by simp)
    obtain ⟨m, hg⟩ := hvalue g (by simp)
    obtain ⟨n, hb⟩ := hvalue b (by simp)
    exact ⟨_, .short hr hg hb⟩
  · match ds, hlen with
    | [r, r', g, g', b, b'], _ =>
      obtain ⟨i, hi⟩ := hvalue r (by simp)
      obtain ⟨i', hi'⟩ := hvalue r' (by simp)
      obtain ⟨j, hj⟩ := hvalue g (by simp)
      obtain ⟨j', hj'⟩ := hvalue g' (by simp)
      obtain ⟨k, hk⟩ := hvalue b (by simp)
      obtain ⟨k', hk'⟩ := hvalue b' (by simp)
      exact ⟨⟨_, _, _⟩, .long (.digits hi hi') (.digits hj hj') (.digits hk hk')⟩

theorem Spells.length {ds : List Char} {c : Color} (h : Spells ds c) : ds.length = 3 ∨ ds.length = 6 := by
  cases h with
  | short => exact .inl rfl
  | long => exact .inr rfl

theorem Spells.inRange {ds : List Char} {c : Color} (h : Spells ds c) (hds : ∀ d ∈ ds, d ∈ notationDigits) :
    c.InRange := by
  have hminus : ∀ d ∈ ds, d ≠ '-' := by
    rintro d hd rfl
    exact absurd (hds _ hd) (by decide)
  have hfits := (fitsPairs_iff c).mp h.fitsPairs
  rw [inRange_iff]
  cases h with
  | short =>
    dsimp only at hfits ⊢
    omega
  | @long r r' g g' b b' c hr hg hb =>
    have := hr.nonneg (hminus r (by simp))
    have := hg.nonneg (hminus g (by simp))
    have := hb.nonneg (hminus b (by simp))
    omega

/-- What is read is known for every text, and is always read back from its own notation. It is more than the
notations by the texts with a sign, a blank or a digit of another script in one of the places. -/
theorem exact_iff (text : String) :
    (Exact text ↔ ∀ c, Spells (digitsOf text) c → ∀ d ∈ digitsOf text, d ∈ notationDigits) ∧
    (∀ c, ofHex text = .ok c ↔ Spells (digitsOf text) c) ∧
    ∀ c, ofHex text = .ok c → c.FitsPairs ∧ ofHex c.hex = .ok c := by
  have hback : ∀ c, ofHex text = .ok c → c.FitsPairs ∧ ofHex c.hex = .ok c := by
    intro c hc
    have hfits := (ofHex_iff.mp hc).fitsPairs
    exact ⟨hfits, ofHex_iff.mpr (digitsOf_hex c ▸ spells_hexDigits hfits)⟩
  refine ⟨⟨?_, ?_⟩, fun c ↦ ofHex_iff, hback⟩
  · intro h c hc
    exact ((isNotation_iff text).mp (h.read_iff.mp ⟨c, ofHex_iff.mpr hc⟩)).2
  · intro h
    refine ⟨⟨?_, ?_⟩, ?_, fun c hc ↦ (hback c hc).2⟩
    · rintro ⟨c, hc⟩
      have hspells := ofHex_iff.mp hc
      exact (isNotation_iff text).mpr ⟨hspells.length, h c hspells⟩
    · intro hn
      obtain ⟨hlen, hds⟩ := (isNotation_iff text).mp hn
      obtain ⟨c, hc⟩ := exists_spells hlen hds
      exact ⟨c, ofHex_iff.mpr hc⟩
    · intro c hc
      have hspells := ofHex_iff.mp hc
      exact hspells.inRange (h c hspells)

/-- A sign takes the place of a digit, and the channels are negative. -/
theorem not_exact_of_signs : ofHex "-1-1-1" = .ok ⟨-1, -1, -1⟩ ∧ ¬IsNotation "-1-1-1".toList ∧
    ¬InRange ⟨-1, -1, -1⟩ ∧ ¬Exact "-1-1-1" := by
  have hread : ofHex "-1-1-1" = .ok ⟨-1, -1, -1⟩ := by decide +kernel
  have hnot : ¬IsNotation "-1-1-1".toList := by
    intro h
    exact absurd (((isNotation_iff _).mp h).2 '-' (by decide)) (by decide)
  exact ⟨hread, hnot, by decide, fun h ↦ hnot (h.read_iff.mp ⟨_, hread⟩)⟩

end Color

end TermCapture
