import Mathlib.Tactic.SplitIfs
import TermCapture.Markup
import TermCapture.Rendition

namespace TermCapture

namespace Text

def hexDigits : List Char := "0123456789abcdef".toList

theorem digitChar_mem : ∀ n < 16, Nat.digitChar n ∈ hexDigits := by decide

theorem hexadecimal_one {n : Nat} (h : n < 16) : hexadecimal 1 n = [n.digitChar] := by
  rw [hexadecimal, if_neg (by omega), digits, Int.natAbs_natCast, Nat.toDigits_of_lt_base h]
  rfl

theorem hexadecimal_two {n : Nat} (h : n < 256) :
    hexadecimal 2 n = [(n / 16).digitChar, (n % 16).digitChar] := by
  rw [hexadecimal, if_neg (by omega), digits, Int.natAbs_natCast]
  by_cases hn : n < 16
  · rw [Nat.toDigits_of_lt_base hn, Nat.div_eq_of_lt hn, Nat.mod_eq_of_lt hn]
    rfl
  · rw [Nat.toDigits_of_base_le (by decide) (by omega), Nat.toDigits_of_lt_base (by omega)]
    rfl

end Text

namespace Color

def channels (c : Color) : List Int := [c.red, c.green, c.blue]

/-- Every channel is a byte. -/
def InRange (c : Color) : Prop := ∀ v ∈ c.channels, 0 ≤ v ∧ v ≤ 255

instance : DecidablePred InRange := fun c ↦ List.decidableBAll _ c.channels

theorem inRange_iff (c : Color) : c.InRange ↔
    (0 ≤ c.red ∧ c.red ≤ 255) ∧ (0 ≤ c.green ∧ c.green ≤ 255) ∧ 0 ≤ c.blue ∧ c.blue ≤ 255 := by
  simp [InRange, channels]

theorem clamp_inRange (v : Int) : 0 ≤ clamp 0 255 v ∧ clamp 0 255 v ≤ 255 := by
  unfold clamp
  omega

theorem clamped_inRange (r g b : Int) : (clamped r g b).InRange :=
  (inRange_iff _).mpr ⟨clamp_inRange r, clamp_inRange g, clamp_inRange b⟩

theorem ramp_inRange (index : Int) : (ramp index).InRange :=
  (inRange_iff _).mpr ⟨clamp_inRange _, clamp_inRange _, clamp_inRange _⟩

theorem cubeLevel_inRange {step : Int} (h : 0 ≤ step ∧ step ≤ 5) :
    0 ≤ cubeLevel step ∧ cubeLevel step ≤ 255 := by
  unfold cubeLevel
  split <;> omega

theorem cube_inRange {index : Int} (h : 16 ≤ index ∧ index ≤ 231) : (cube index).InRange := by
  rw [inRange_iff, cube]
  simp only [Int.fdiv_eq_ediv_of_nonneg _ (show (0 : Int) ≤ 36 by decide),
    Int.fdiv_eq_ediv_of_nonneg _ (show (0 : Int) ≤ 6 by decide),
    Int.fmod_eq_emod_of_nonneg _ (show (0 : Int) ≤ 36 by decide),
    Int.fmod_eq_emod_of_nonneg _ (show (0 : Int) ≤ 6 by decide)]
  exact ⟨cubeLevel_inRange (by omega), cubeLevel_inRange (by omega), cubeLevel_inRange (by omega)⟩

theorem indexed?_inRange (index : Int) : ∀ c ∈ indexed? index, c.InRange := by
  intro c hc
  unfold indexed? at hc
  split_ifs at hc with hcube
  · cases hc
    exact cube_inRange hcube
  · cases hc
    exact ramp_inRange index
  · cases hc

/-- One digit for each channel, where every channel is a digit written twice, and otherwise two. -/
theorem hexDigits_cases {c : Color} (h : c.InRange) :
    (∃ r < 16, ∃ g < 16, ∃ b < 16, c = ⟨(17 * r : Nat), (17 * g : Nat), (17 * b : Nat)⟩ ∧
      c.hexDigits = [r, g, b].map Nat.digitChar) ∨
    ∃ r < 256, ∃ g < 256, ∃ b < 256, c = ⟨(r : Nat), (g : Nat), (b : Nat)⟩ ∧
      c.hexDigits = [r / 16, r % 16, g / 16, g % 16, b / 16, b % 16].map Nat.digitChar := by
  obtain ⟨hr, hg, hb⟩ := (inRange_iff c).mp h
  obtain ⟨r, hr'⟩ := Int.eq_ofNat_of_zero_le hr.1
  obtain ⟨g, hg'⟩ := Int.eq_ofNat_of_zero_le hg.1
  obtain ⟨b, hb'⟩ := Int.eq_ofNat_of_zero_le hb.1
  obtain rfl : c = ⟨r, g, b⟩ := by rw [← hr', ← hg', ← hb']
  have hfdiv : ∀ n : Nat, (n : Int).fdiv 17 = (n / 17 : Nat) := fun n ↦ by
    rw [Int.fdiv_eq_ediv_of_nonneg _ (by decide)]
    rfl
  dsimp only at hr hg hb
  unfold hexDigits
  dsimp only
  split
  · rename_i hall
    simp only [List.all_cons, List.all_nil, Bool.and_true, Bool.and_eq_true, decide_eq_true_eq,
      Int.fmod_eq_emod_of_nonneg _ (show (0 : Int) ≤ 17 by decide)] at hall
    refine .inl ⟨r / 17, by omega, g / 17, by omega, b / 17, by omega, ?_, ?_⟩
    · congr 1 <;> omega
    · simp only [List.flatMap_cons, List.flatMap_nil, hfdiv]
      rw [Text.hexadecimal_one (by omega), Text.hexadecimal_one (by omega), Text.hexadecimal_one (by omega)]
      rfl
  · refine .inr ⟨r, by omega, g, by omega, b, by omega, rfl, ?_⟩
    simp only [List.flatMap_cons, List.flatMap_nil]
    rw [Text.hexadecimal_two (by omega), Text.hexadecimal_two (by omega), Text.hexadecimal_two (by omega)]
    rfl

/-- A `#` and three or six hexadecimal digits, whose letters are small. -/
def IsHex (cs : List Char) : Prop :=
  ∃ ds, cs = '#' :: ds ∧ (ds.length = 3 ∨ ds.length = 6) ∧ ∀ d ∈ ds, d ∈ Text.hexDigits

theorem hex_isHex {c : Color} (h : c.InRange) : IsHex c.hex.toList := by
  refine ⟨c.hexDigits, by simp [hex], ?_⟩
  have hdigits : ∀ ns : List Nat, (∀ n ∈ ns, n < 16) → ∀ d ∈ ns.map Nat.digitChar, d ∈ Text.hexDigits := by
    intro ns hns d hd
    obtain ⟨n, hn, rfl⟩ := List.mem_map.mp hd
    exact Text.digitChar_mem n (hns n hn)
  obtain ⟨r, hr, g, hg, b, hb, -, he⟩ | ⟨r, hr, g, hg, b, hb, -, he⟩ := hexDigits_cases h
  · rw [he]
    exact ⟨.inl rfl, hdigits _ (by simp; omega)⟩
  · rw [he]
    exact ⟨.inr rfl, hdigits _ (by simp; omega)⟩

end Color

namespace Palette

variable (p : Palette)

theorem base_inRange (slot : Fin 8) : (p.base slot).InRange := by
  revert slot
  cases p <;> decide

theorem bright_inRange (slot : Fin 8) : (p.bright slot).InRange := by
  revert slot
  cases p <;> decide

theorem basic?_inRange (code : Int) : ∀ c ∈ p.basic? code, c.InRange := by
  intro c hc
  obtain ⟨slot, -, rfl⟩ := Option.map_eq_some_iff.mp hc
  exact p.base_inRange slot

theorem brightBasic?_inRange (code : Int) : ∀ c ∈ p.brightBasic? code, c.InRange := by
  intro c hc
  obtain ⟨slot, -, rfl⟩ := Option.map_eq_some_iff.mp hc
  exact p.bright_inRange slot

theorem color?_inRange (index : Int) : ∀ c ∈ p.color? index, c.InRange := by
  intro c hc
  have hcases : c ∈ p.basic? index ∨ c ∈ p.brightBasic? (index - 8) ∨ c ∈ Color.indexed? index := by
    unfold color? at hc
    cases hb : p.basic? index with
    | some b => rw [hb] at hc; exact .inl hc
    | none =>
      rw [hb] at hc
      cases hb' : p.brightBasic? (index - 8) with
      | some b => rw [hb'] at hc; exact .inr (.inl hc)
      | none => rw [hb'] at hc; exact .inr (.inr hc)
  obtain h | h | h := hcases
  · exact p.basic?_inRange _ c h
  · exact p.brightBasic?_inRange _ c h
  · exact Color.indexed?_inRange _ c h

theorem brighten_inRange {c : Color} (h : c.InRange) : (p.brighten c).InRange := by
  unfold brighten
  split
  · exact p.bright_inRange _
  · exact h

end Palette

/-- The colors of a style, and those that it shows, have channels that are bytes. -/
structure Style.InRange (s : Style) : Prop where
  foreground : ∀ c ∈ s.foreground, c.InRange
  background : ∀ c ∈ s.background, c.InRange

structure Look.InRange (l : Look) : Prop where
  foreground : l.foreground.InRange
  background : ∀ c ∈ l.background, c.InRange

theorem Style.default_inRange : ({} : Style).InRange := ⟨nofun, nofun⟩

theorem Style.look_inRange (p : Palette) {s : Style} (h : s.InRange) : (s.look p).InRange := by
  have hgetD : ∀ {o : Option Color} {d : Color}, (∀ c ∈ o, c.InRange) → d.InRange → (o.getD d).InRange := by
    intro o d ho hd
    cases o with
    | none => exact hd
    | some c => exact ho c rfl
  have hbold : ∀ {o : Option Color}, (∀ c ∈ o, c.InRange) → ∀ c ∈ o.map p.brighten, c.InRange := by
    intro o ho c hc
    obtain ⟨c', hc', rfl⟩ := Option.map_eq_some_iff.mp hc
    exact p.brighten_inRange (ho c' hc')
  have hlook : ∀ {f b : Option Color}, (∀ c ∈ f, c.InRange) → (∀ c ∈ b, c.InRange) →
      Look.InRange ⟨if s.bold then (f.map p.brighten).getD p.brightWhite else f.getD p.defaultForeground, b,
        s.underline⟩ := by
    intro f b hf hb
    refine ⟨?_, hb⟩
    dsimp only
    split
    · exact hgetD (hbold hf) (p.bright_inRange 7)
    · exact hgetD hf (p.base_inRange 7)
  unfold look
  cases s.inverse with
  | false => exact hlook h.foreground h.background
  | true =>
    refine hlook ?_ ?_
    · rintro c ⟨⟩
      exact hgetD h.background (p.base_inRange 0)
    · rintro c ⟨⟩
      exact hgetD h.foreground (p.base_inRange 7)

namespace Rendition

variable (p : Palette)

theorem extended_inRange (vs : List Int) : ∀ c ∈ (extended p vs).1, c.InRange := by
  intro c hc
  unfold extended at hc
  split at hc
  · cases hc
  · cases hc
  · exact p.color?_inRange _ c hc
  · cases hc
    exact Color.clamped_inRange _ _ _
  · cases hc
  · cases hc

theorem setExtended_inRange (code : Int) {color : Option Color} (hcolor : ∀ c ∈ color, c.InRange)
    {a : Style} (h : a.InRange) : (setExtended code color a).InRange := by
  unfold setExtended
  split
  · exact h
  · split
    · exact ⟨hcolor, h.background⟩
    · exact ⟨h.foreground, hcolor⟩

theorem single_inRange (code : Int) {a : Style} (h : a.InRange) : (single p code a).InRange := by
  fun_cases single p code a with
  | case1 => exact Style.default_inRange
  | case2 | case3 | case4 | case5 | case6 | case7 => exact ⟨h.foreground, h.background⟩
  | case8 => exact ⟨nofun, h.background⟩
  | case9 => exact ⟨h.foreground, nofun⟩
  | case10 => exact ⟨p.basic?_inRange _, h.background⟩
  | case11 => exact ⟨h.foreground, p.basic?_inRange _⟩
  | case12 => exact ⟨p.brightBasic?_inRange _, h.background⟩
  | case13 => exact ⟨h.foreground, p.brightBasic?_inRange _⟩
  | case14 => exact h

theorem applyValues_inRange (vs : List Int) {a : Style} (h : a.InRange) : (applyValues p vs a).InRange := by
  fun_induction applyValues p vs a with
  | case1 => exact h
  | case2 v vs a hv ih => exact ih (setExtended_inRange v (extended_inRange p vs) h)
  | case3 v vs a hv ih => exact ih (single_inRange p v h)

theorem apply_inRange (ps : Params) {a : Style} (h : a.InRange) : (apply p ps a).InRange := by
  unfold apply
  split
  · exact Style.default_inRange
  · exact applyValues_inRange p _ h

end Rendition

end TermCapture
