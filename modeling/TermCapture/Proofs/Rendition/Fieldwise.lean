import TermCapture.Proofs.Rendition.Items

namespace TermCapture.Rendition

variable {α : Type} {f g : Style → Style} {field : Style → α}

/-- An operation leaves a field as it is, or sets it to a value that is the same for every style. -/
def Assigns (f : Style → Style) (field : Style → α) : Prop :=
  (∀ a, field (f a) = field a) ∨ ∃ v, ∀ a, field (f a) = v

theorem Assigns.of_getD {o : Option α} (h : ∀ a, field (f a) = o.getD (field a)) : Assigns f field := by
  cases o with
  | none => exact .inl h
  | some v => exact .inr ⟨v, h⟩

theorem Assigns.comp (hg : Assigns g field) (hf : Assigns f field) : Assigns (g ∘ f) field := by
  obtain hg | ⟨v, hg⟩ := hg
  · obtain hf | ⟨v, hf⟩ := hf
    · exact .inl fun a ↦ (hg (f a)).trans (hf a)
    · exact .inr ⟨v, fun a ↦ (hg (f a)).trans (hf a)⟩
  · exact .inr ⟨v, fun a ↦ hg (f a)⟩

theorem Assigns.twice (h : Assigns f field) (a : Style) : field (f (f a)) = field (f a) := by
  obtain h | ⟨v, h⟩ := h
  · exact h (f a)
  · exact (h (f a)).trans (h a).symm

/-- An operation on styles that treats each field by itself. -/
structure Fieldwise (f : Style → Style) : Prop where
  foreground : Assigns f Style.foreground
  background : Assigns f Style.background
  bold : Assigns f Style.bold
  underline : Assigns f Style.underline
  inverse : Assigns f Style.inverse

/-- The values that fields are set to. The others are left as they are. -/
structure Change where
  foreground : Option (Option Color) := none
  background : Option (Option Color) := none
  bold : Option Bool := none
  underline : Option Bool := none
  inverse : Option Bool := none

namespace Change

def act (m : Change) (a : Style) : Style where
  foreground := m.foreground.getD a.foreground
  background := m.background.getD a.background
  bold := m.bold.getD a.bold
  underline := m.underline.getD a.underline
  inverse := m.inverse.getD a.inverse

def reset : Change := ⟨some none, some none, some false, some false, some false⟩

theorem fieldwise (m : Change) : Fieldwise m.act where
  foreground := .of_getD fun _ ↦ rfl
  background := .of_getD fun _ ↦ rfl
  bold := .of_getD fun _ ↦ rfl
  underline := .of_getD fun _ ↦ rfl
  inverse := .of_getD fun _ ↦ rfl

end Change

namespace Fieldwise

theorem comp (hg : Fieldwise g) (hf : Fieldwise f) : Fieldwise (g ∘ f) where
  foreground := hg.foreground.comp hf.foreground
  background := hg.background.comp hf.background
  bold := hg.bold.comp hf.bold
  underline := hg.underline.comp hf.underline
  inverse := hg.inverse.comp hf.inverse

theorem ite {c : Prop} [Decidable c] (hf : Fieldwise f) (hg : Fieldwise g) :
    Fieldwise fun a ↦ if c then f a else g a := by
  by_cases h : c
  · simpa only [if_pos h] using hf
  · simpa only [if_neg h] using hg

theorem twice (h : Fieldwise f) (a : Style) : f (f a) = f a := by
  have hforeground := h.foreground.twice a
  have hbackground := h.background.twice a
  have hbold := h.bold.twice a
  have hunderline := h.underline.twice a
  have hinverse := h.inverse.twice a
  cases hb : f (f a)
  cases hc : f a
  simp_all

end Fieldwise

variable (p : Palette)

theorem single_fieldwise (code : Int) : Fieldwise (single p code) := by
  -- a branch for each condition of `single`, in its order
  refine .ite Change.reset.fieldwise ?_
  refine .ite (Change.fieldwise { bold := some true }) ?_
  refine .ite (Change.fieldwise { bold := some false }) ?_
  refine .ite (Change.fieldwise { underline := some true }) ?_
  refine .ite (Change.fieldwise { underline := some false }) ?_
  refine .ite (Change.fieldwise { inverse := some true }) ?_
  refine .ite (Change.fieldwise { inverse := some false }) ?_
  refine .ite (Change.fieldwise { foreground := some none }) ?_
  refine .ite (Change.fieldwise { background := some none }) ?_
  refine .ite (Change.fieldwise { foreground := some (p.basic? (code - 30)) }) ?_
  refine .ite (Change.fieldwise { background := some (p.basic? (code - 40)) }) ?_
  refine .ite (Change.fieldwise { foreground := some (p.brightBasic? (code - 90)) }) ?_
  refine .ite (Change.fieldwise { background := some (p.brightBasic? (code - 100)) }) ?_
  exact Change.fieldwise {}

theorem setExtended_fieldwise (selector : Int) (c : Option Color) : Fieldwise (setExtended selector c) := by
  cases c with
  | none => exact Change.fieldwise {}
  | some c =>
    exact .ite (Change.fieldwise { foreground := some (some c) }) (Change.fieldwise { background := some (some c) })

theorem effect_fieldwise (i : Item) : Fieldwise (i.effect p) := by
  cases i with
  | code v =>
    have hself : (Item.code v).effect p = single p v := funext (effect_code p v)
    rw [hself]
    exact single_fieldwise p v
  | indexed s n =>
    have hself : (Item.indexed s n).effect p = setExtended s (p.color? n) := funext (effect_indexed p s n)
    rw [hself]
    exact setExtended_fieldwise s _
  | direct s r g b => exact setExtended_fieldwise s (some (Color.clamped r g b))
  | otherMode | tooShort | alone => exact Change.fieldwise {}

theorem effects_cons (i : Item) (is : List Item) : effects p (i :: is) = effects p is ∘ i.effect p := rfl

theorem effects_append (is js : List Item) : effects p (is ++ js) = effects p js ∘ effects p is :=
  funext fun _ ↦ List.foldl_append

/-- Which items there are is said by the values alone, so that what they do together is again fieldwise. -/
theorem effects_fieldwise (is : List Item) : Fieldwise (effects p is) := by
  induction is with
  | nil => exact Change.fieldwise {}
  | cons i is ih =>
    rw [effects_cons]
    exact ih.comp (effect_fieldwise p i)

theorem apply_eq {ps : Params} (h : ps ≠ []) : apply p ps = effects p (items (values ps)) :=
  funext (apply_eq_effects p h)

/-- Behind a reset nothing is left of the style before. -/
theorem effects_of_reset {is : List Item} (h : .code 0 ∈ is) (a b : Style) : effects p is a = effects p is b := by
  obtain ⟨before, after, rfl⟩ := List.append_of_mem h
  rw [effects_append]
  rfl

/-- Parameters leave each field of a style alone or set it to a value of their own, whatever the style is. Given
twice they do the same as once, and with a reset among them the style before does not matter. -/
theorem apply_fieldwise (ps : Params) :
    Fieldwise (apply p ps) ∧ (∀ a, apply p ps (apply p ps a) = apply p ps a) ∧
      (ps = [] ∨ .code 0 ∈ items (values ps) → ∀ a b, apply p ps a = apply p ps b) := by
  have h : Fieldwise (apply p ps) := by
    by_cases hps : ps = []
    · rw [hps]
      exact Change.reset.fieldwise
    · rw [apply_eq p hps]
      exact effects_fieldwise p _
  refine ⟨h, h.twice, ?_⟩
  rintro (rfl | hreset) a b
  · rfl
  · have hps : ps ≠ [] := by
      rintro rfl
      cases hreset
    rw [apply_eq p hps]
    exact effects_of_reset p hreset a b

/-- The first zero is a code; the last one is the index of a color. -/
theorem apply_fieldwise_of_inner_reset :
    let ps : Params := [some 1, none, some 38, some 5, some 0]
    let a : Style := { background := some ⟨1, 2, 3⟩, underline := true }
    ps ≠ [] ∧ .code 0 ∈ items (values ps) ∧ .code 0 ∉ items (values (ps.drop 2)) ∧
      apply .cga ps a = { foreground := some ⟨0, 0, 0⟩ } ∧
      apply .cga (ps.drop 2) a = { a with foreground := some ⟨0, 0, 0⟩ } ∧
      apply .cga ps (apply .cga ps a) = apply .cga ps a := by
  intro ps a
  have hreset : .code 0 ∈ items (values ps) := by decide
  obtain ⟨-, htwice, hsame⟩ := apply_fieldwise .cga ps
  have hdefault : apply .cga ps a = apply .cga ps {} := hsame (.inr hreset) a {}
  refine ⟨by decide, hreset, by decide, hdefault.trans ?_, ?_, htwice a⟩
  · rw [apply_eq .cga (by decide)]
    decide +kernel
  · rw [apply_eq .cga (by decide)]
    decide +kernel

end TermCapture.Rendition
