import Mathlib.Tactic.SplitIfs
import TermCapture.Charset

namespace TermCapture

theorem ofNat_ne_newline {n : Nat} (h : n ≠ 10) : Char.ofNat n ≠ '\n' := by
  intro he
  by_cases hv : n.isValidChar
  · rw [Char.ofNat, dif_pos hv] at he
    exact h (congrArg Char.toNat he)
  · rw [Char.ofNat, dif_neg hv] at he
    cases he

theorem ofNat_toNat_ne_newline {b : UInt8} (h : b ≠ 0x0a) : Char.ofNat b.toNat ≠ '\n' :=
  ofNat_ne_newline fun he ↦ h (UInt8.toNat_inj.mp he)

namespace CodePage

theorem replacement_ne_newline : replacement ≠ '\n' := by decide

/-- Only the byte of a line break stands for one. -/
def KeepsLines (p : CodePage) : Prop := ∀ b, b ≠ 0x0a → p.char b ≠ '\n'

theorem char_ofHigh (name : String) (high : Array Nat) (b : UInt8) : (ofHigh name high).char b =
    if b.toNat < 128 then Char.ofNat b.toNat
    else match high[b.toNat - 128]? with
      | some n => Char.ofNat n
      | none => replacement := by
  exact Vector.getElem_ofFn _

theorem ofHigh_keepsLines {high : Array Nat} (h : 10 ∉ high.toList) (name : String) :
    (ofHigh name high).KeepsLines := by
  intro b hb
  rw [char_ofHigh]
  split_ifs
  · exact ofNat_toNat_ne_newline hb
  · split
    · rename_i n hn
      refine ofNat_ne_newline ?_
      rintro rfl
      exact h (Array.mem_toList_iff.mpr (Array.mem_of_getElem? hn))
    · exact replacement_ne_newline

theorem latin1_keepsLines : latin1.KeepsLines := by
  intro b hb
  have hchar : latin1.char b = Char.ofNat b.toNat := Vector.getElem_ofFn _
  rw [hchar]
  exact ofNat_toNat_ne_newline hb

end CodePage

/-- A known page has its own byte for a line break and no other one. -/
theorem Encoding.known_keepsLines : ∀ n ∈ known, ∀ p, n.encoding = .page p → p.KeepsLines := by
  have hpage : ∀ {q : CodePage}, q.KeepsLines → ∀ p, page q = .page p → p.KeepsLines := by
    rintro q h _ ⟨⟩
    exact h
  simp only [known, List.forall_mem_cons]
  exact ⟨hpage (CodePage.ofHigh_keepsLines (by decide) _), hpage (CodePage.ofHigh_keepsLines (by decide) _),
    hpage (CodePage.ofHigh_keepsLines (by decide) _), hpage (CodePage.ofHigh_keepsLines (by decide) _),
    hpage (CodePage.ofHigh_keepsLines (by decide) _), hpage (CodePage.ofHigh_keepsLines (by decide) _),
    hpage CodePage.latin1_keepsLines, hpage (CodePage.ofHigh_keepsLines (by decide) _),
    hpage (CodePage.ofHigh_keepsLines (by decide) _), nofun, nofun, nofun, nofun, nofun, nofun, nofun, nofun,
    nofun, nofun, nofun, nofun, nofun⟩

namespace Utf8

/-- Whatever completes the pending bytes, the character is not an ASCII one: the number so far is two or
more, or one more byte makes it so before the last one comes. -/
def Pending.Wide : Pending → Prop
  | .lacking code after low _ =>
    0x80 ≤ low.toNat ∧ (2 ≤ code ∨ 0 < after ∧ (0 < code ∨ 0x82 ≤ low.toNat))
  | .surrogateLead | .surrogate => True

/-- Characters that end no line, and a pending one that will not either. -/
structure Quiet (r : List Char × Option Pending) : Prop where
  chars : ∀ c ∈ r.1, c ≠ '\n'
  pending : ∀ p ∈ r.2, p.Wide

theorem quiet_pending {p : Pending} (h : p.Wide) : Quiet ([], some p) :=
  ⟨nofun, by rintro _ ⟨⟩; exact h⟩

theorem quiet_char {c : Char} (h : c ≠ '\n') : Quiet ([c], none) :=
  ⟨by simpa using h, nofun⟩

theorem replaced_ne_newline (p : Pending) : ∀ c ∈ p.replaced, c ≠ '\n' := by
  cases p <;> simp [Pending.replaced, CodePage.replacement_ne_newline]

theorem lacking_quiet {code after : Nat} {high : UInt8} (h : 2 ≤ code ∨ 0 < after ∧ 0 < code) :
    Quiet ([], some (.lacking code after 0x80 high)) :=
  quiet_pending ⟨Nat.le_refl _, h.imp_right fun h ↦ ⟨h.1, .inl h.2⟩⟩

theorem first_quiet {b : UInt8} (h : b ≠ 0x0a) : Quiet (first b) := by
  unfold first
  simp only [UInt8.lt_iff_toNat_lt, UInt8.le_iff_toNat_le]
  split_ifs with _ htwo _ _ hthree _ _ hfour
  · exact quiet_char (ofNat_toNat_ne_newline h)
  · have hlead : 0xc2 ≤ b.toNat := htwo.1
    exact lacking_quiet (by omega)
  · exact quiet_pending ⟨by decide, by decide⟩
  · exact quiet_pending trivial
  · have hlead : 0xe1 ≤ b.toNat := hthree.1
    exact lacking_quiet (by omega)
  · exact quiet_pending ⟨by decide, by decide⟩
  · exact quiet_pending ⟨by decide, by decide⟩
  · have hlead : 0xf1 ≤ b.toNat := hfour.1
    exact lacking_quiet (by omega)
  · exact quiet_char CodePage.replacement_ne_newline

theorem restart_quiet (p : Pending) {b : UInt8} (h : b ≠ 0x0a) : Quiet (restart p b) := by
  refine ⟨?_, (first_quiet h).pending⟩
  intro c hc
  obtain hc | hc := List.mem_append.mp hc
  · exact replaced_ne_newline p c hc
  · exact (first_quiet h).chars c hc

theorem next_quiet {pending : Option Pending} (hp : ∀ p ∈ pending, p.Wide) {b : UInt8} (h : b ≠ 0x0a) :
    Quiet (next pending b) := by
  obtain _ | p := pending
  · exact first_quiet h
  cases p with
  | lacking code after low high =>
    obtain ⟨hlow, hwide⟩ := hp _ rfl
    rw [next]
    split
    · rename_i hb
      have hbyte := UInt8.le_iff_toNat_le.mp hb.1
      cases after with
      | zero => exact quiet_char (ofNat_ne_newline (by omega))
      | succ n => exact lacking_quiet (by omega)
    · exact restart_quiet _ h
  | surrogateLead =>
    rw [next]
    split_ifs
    · exact lacking_quiet (by omega)
    · exact quiet_pending trivial
    · exact restart_quiet _ h
  | surrogate => exact restart_quiet _ h

theorem flush_ne_newline (pending : Option Pending) : ∀ c ∈ flush pending, c ≠ '\n' := by
  cases pending with
  | none => exact nofun
  | some p => exact replaced_ne_newline p

end Utf8

namespace Charset

/-- Only the byte of a line break is read as one, which goes without saying for UTF-8. -/
def KeepsLines : Charset → Prop
  | .page p => p.KeepsLines
  | .utf8 => True

/-- The characters of a charset have a property, but for the byte of a line break. -/
structure Yields (cs : Charset) (P : Char → Prop) : Prop where
  decode : ∀ {pending : Option Utf8.Pending} {b : UInt8}, (∀ q ∈ pending, q.Wide) → b ≠ 0x0a →
    (∀ c ∈ (cs.decode pending b).1, P c) ∧ ∀ q ∈ (cs.decode pending b).2, q.Wide
  flush : ∀ pending, ∀ c ∈ cs.flush pending, P c

theorem KeepsLines.yields {cs : Charset} (h : cs.KeepsLines) : cs.Yields (· ≠ '\n') where
  decode hq hb := by
    cases cs with
    | page p => exact ⟨by simpa [Charset.decode] using h _ hb, nofun⟩
    | utf8 => exact ⟨(Utf8.next_quiet hq hb).chars, (Utf8.next_quiet hq hb).pending⟩
  flush pending := by
    cases cs with
    | page p => exact nofun
    | utf8 => exact Utf8.flush_ne_newline pending

theorem yields_any (cs : Charset) : cs.Yields fun _ ↦ True where
  decode hq hb := by
    cases cs with
    | page p => exact ⟨fun _ _ ↦ trivial, nofun⟩
    | utf8 => exact ⟨fun _ _ ↦ trivial, (Utf8.next_quiet hq hb).pending⟩
  flush _ _ _ := trivial

/-- A page that a name is looked up as is the one that is registered. -/
theorem page_of_named {r : Registry} {name : String} {p : CodePage} (h : named r (some name) = .ok (.page p)) :
    r name = .ok (.page p) := by
  unfold named codePage at h
  dsimp only at h
  cases hr : r name with
  | error e =>
    rw [hr] at h
    cases h
  | ok e =>
    rw [hr] at h
    cases e with
    | page q =>
      cases h
      rfl
    | utf8 | multiByte | transform => cases h

theorem known_of_ok {name : String} {e : Encoding} (h : Registry.known name = .ok e) :
    ∃ n ∈ Encoding.known, n.encoding = e := by
  unfold Registry.known at h
  split_ifs at h
  split at h
  · rename_i e' he
    cases h
    obtain ⟨n, hn, rfl⟩ := Option.map_eq_some_iff.mp he
    exact ⟨n, List.mem_of_find?_eq_some hn, rfl⟩
  · cases h

/-- Every charset that is known by a name keeps the lines of a text. -/
theorem known_keepsLines {name : Option String} {cs : Charset} (h : named .known name = .ok cs) :
    cs.KeepsLines := by
  cases cs with
  | utf8 => trivial
  | page p =>
    cases name with
    | none => cases h
    | some name =>
      obtain ⟨n, hn, he⟩ := known_of_ok (page_of_named h)
      exact Encoding.known_keepsLines n hn p he

end Charset

end TermCapture
