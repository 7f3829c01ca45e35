import Mathlib.Tactic.SplitIfs
import TermCapture.Color.Selector
import TermCapture.Proofs.Session.Steps

namespace TermCapture

theorem Color.indexed?_eq_none_iff (index : Int) : indexed? index = none ↔ index < 16 ∨ 255 < index := by
  unfold indexed?
  split_ifs <;> simp <;> omega

namespace Palette

theorem slot?_eq_none_iff (code : Int) : slot? code = none ↔ code < 0 ∨ 7 < code := by
  unfold slot?
  split_ifs <;> simp <;> omega

/-- An 8-bit index is a color exactly when it is a byte. -/
theorem color?_eq_none_iff (p : Palette) (index : Int) : p.color? index = none ↔ index < 0 ∨ 255 < index := by
  simp [color?, basic?, brightBasic?, slot?_eq_none_iff, Color.indexed?_eq_none_iff]
  omega

end Palette

namespace Rendition

/-- The codes that select a color by the values behind them. -/
def Selects (v : Int) : Prop := v = 38 ∨ v = 48

instance : DecidablePred Selects := fun v ↦ inferInstanceAs (Decidable (v = 38 ∨ v = 48))

/-- What a list of values is made of: codes that stand for themselves, and selectors with all that
belongs to them, whether they select a color or not. -/
inductive Item
  | code (v : Int)
  | indexed (selector index : Int)
  | direct (selector red green blue : Int)
  | otherMode (selector mode : Int)
  | tooShort (selector mode : Int) (rest : List Int)
  | alone (selector : Int)
  deriving DecidableEq, Repr

namespace Item

def values : Item → List Int
  | .code v => [v]
  | .indexed s n => [s, 5, n]
  | .direct s r g b => [s, 2, r, g, b]
  | .otherMode s m => [s, m]
  | .tooShort s m rest => s :: m :: rest
  | .alone s => [s]

/-- The codes that mean something by themselves but for those of the sixteen colors, and what they do. -/
def flags : List (Int × (Style → Style)) := [
  (0, fun _ ↦ {}),
  (1, fun a ↦ { a with bold := true }),
  (4, fun a ↦ { a with underline := true }),
  (7, fun a ↦ { a with inverse := true }),
  (21, fun a ↦ { a with bold := false }),
  (22, fun a ↦ { a with bold := false }),
  (24, fun a ↦ { a with underline := false }),
  (27, fun a ↦ { a with inverse := false }),
  (39, fun a ↦ { a with foreground := none }),
  (49, fun a ↦ { a with background := none })]

/-- The codes of a slot of the palette. -/
def slotCodes (p : Palette) (slot : Fin 8) : List (Int × (Style → Style)) := [
  (30 + slot.val, fun a ↦ { a with foreground := some (p.base slot) }),
  (40 + slot.val, fun a ↦ { a with background := some (p.base slot) }),
  (90 + slot.val, fun a ↦ { a with foreground := some (p.bright slot) }),
  (100 + slot.val, fun a ↦ { a with background := some (p.bright slot) })]

def codes (p : Palette) : List (Int × (Style → Style)) := flags ++ (List.finRange 8).flatMap (slotCodes p)

/-- Sets the color of the characters or the one behind them. -/
def select (selector : Int) (c : Option Color) (a : Style) : Style :=
  if selector = 38 then { a with foreground := c } else { a with background := c }

def effect (p : Palette) : Item → Style → Style
  | .code v, a => match (codes p).find? (·.1 = v) with
    | some (_, f) => f a
    | none => a
  | .indexed s n, a => if 0 ≤ n ∧ n ≤ 255 then select s (p.color? n) a else a
  | .direct s r g b, a => select s (some ⟨clamp 0 255 r, clamp 0 255 g, clamp 0 255 b⟩) a
  | .otherMode .., a | .tooShort .., a | .alone _, a => a

end Item

/-- How values are cut into items from the left. Only a selector at the end of the values can lack some. -/
inductive Cutting : List Int → List Item → Prop
  | nil : Cutting [] []
  | code {v vs is} (hv : ¬Selects v) (h : Cutting vs is) : Cutting (v :: vs) (.code v :: is)
  | indexed {s n vs is} (hs : Selects s) (h : Cutting vs is) : Cutting (s :: 5 :: n :: vs) (.indexed s n :: is)
  | direct {s r g b vs is} (hs : Selects s) (h : Cutting vs is) :
      Cutting (s :: 2 :: r :: g :: b :: vs) (.direct s r g b :: is)
  | otherMode {s m vs is} (hs : Selects s) (hm : m ≠ 5 ∧ m ≠ 2) (h : Cutting vs is) :
      Cutting (s :: m :: vs) (.otherMode s m :: is)
  | tooShort {s m rest} (hs : Selects s) (hm : (m = 5 ∧ rest.length < 1) ∨ (m = 2 ∧ rest.length < 3)) :
      Cutting (s :: m :: rest) [.tooShort s m rest]
  | alone {s} (hs : Selects s) : Cutting [s] [.alone s]

def items : List Int → List Item
  | [] => []
  | v :: vs =>
    if Selects v then
      match vs with
      | [] => [.alone v]
      | 5 :: [] => [.tooShort v 5 []]
      | 5 :: n :: vs => .indexed v n :: items vs
      | 2 :: r :: g :: b :: vs => .direct v r g b :: items vs
      | 2 :: rest => [.tooShort v 2 rest]
      | m :: vs => .otherMode v m :: items vs
    else .code v :: items vs

theorem cutting_items (vs : List Int) : Cutting vs (items vs) := by
  fun_induction items vs with
  | case1 => exact .nil
  | case2 v hv => exact .alone hv
  | case3 v hv => exact .tooShort hv (.inl ⟨rfl, by simp⟩)
  | case4 v hv n vs ih => exact .indexed hv ih
  | case5 v hv r g b vs ih => exact .direct hv ih
  | case6 v hv rest h =>
    refine .tooShort hv (.inr ⟨rfl, ?_⟩)
    rcases rest with _ | ⟨r, _ | ⟨g, _ | ⟨b, vs⟩⟩⟩
    · simp
    · simp
    · simp
    · exact (h r g b vs rfl).elim
  | case7 v hv m vs h5 h5' _ h2 ih =>
    refine .otherMode hv ⟨?_, h2⟩ ih
    intro hm
    cases vs with
    | nil => exact h5 hm rfl
    | cons n vs => exact h5' n vs hm rfl
  | case8 v vs hv ih => exact .code hv ih

variable {vs : List Int} {is js : List Item}

theorem Cutting.eq_items (h : Cutting vs is) : is = items vs := by
  induction h with
  | nil => rfl
  | code hv h ih =>
    unfold items
    rw [if_neg hv, ih]
  | indexed hs h ih => simp [items, hs, ih]
  | direct hs h ih => simp [items, hs, ih]
  | otherMode hs hm h ih => simp [items, hs, hm, ih]
  | @tooShort s m rest hs hm =>
    obtain ⟨rfl, hrest⟩ | ⟨rfl, hrest⟩ := hm
    · rw [List.length_eq_zero_iff.mp (Nat.lt_one_iff.mp hrest)]
      simp [items, hs]
    · rcases rest with _ | ⟨r, _ | ⟨g, _ | ⟨b, vs⟩⟩⟩
      · simp [items, hs]
      · simp [items, hs]
      · simp [items, hs]
      · simp only [List.length_cons] at hrest
        omega
  | alone hs => simp [items, hs]

theorem cutting_iff : Cutting vs is ↔ is = items vs :=
  ⟨Cutting.eq_items, fun h ↦ h ▸ cutting_items vs⟩

/-- Every value belongs to one item. -/
theorem Cutting.flatMap_values (h : Cutting vs is) : is.flatMap Item.values = vs := by
  induction h with
  | nil => rfl
  | code _ _ ih | indexed _ _ ih | direct _ _ ih | otherMode _ _ _ ih => simp [Item.values, ih]
  | tooShort | alone => simp [Item.values]

/-- Items that others follow are cut in the same way without them, as they lack nothing. -/
theorem Cutting.split (h : Cutting vs (is ++ js)) (hjs : js ≠ []) :
    Cutting (is.flatMap Item.values) is ∧ Cutting (js.flatMap Item.values) js := by
  induction is generalizing vs with
  | nil =>
    rw [List.nil_append] at h
    rw [h.flatMap_values]
    exact ⟨.nil, h⟩
  | cons i is ih =>
    have hrest : is ++ js ≠ [] := by simp [hjs]
    rw [List.cons_append] at h
    generalize he : is ++ js = rest at h hrest
    cases h with
    | code hv h =>
      obtain ⟨his, hjs'⟩ := ih (he ▸ h)
      exact ⟨.code hv his, hjs'⟩
    | indexed hs h =>
      obtain ⟨his, hjs'⟩ := ih (he ▸ h)
      exact ⟨.indexed hs his, hjs'⟩
    | direct hs h =>
      obtain ⟨his, hjs'⟩ := ih (he ▸ h)
      exact ⟨.direct hs his, hjs'⟩
    | otherMode hs hm h =>
      obtain ⟨his, hjs'⟩ := ih (he ▸ h)
      exact ⟨.otherMode hs hm his, hjs'⟩
    | tooShort | alone => exact (hrest rfl).elim

/-- An item that begins before a place among the values and ends behind it. -/
def Spans (n : Nat) (is : List Item) : Prop :=
  ∃ before i after, is = before ++ i :: after ∧ (before.flatMap Item.values).length < n ∧
    n < ((before ++ [i]).flatMap Item.values).length

theorem exists_split_of_not_spans {n : Nat} (h : ¬Spans n is) (hn : n ≤ (is.flatMap Item.values).length) :
    ∃ before after, is = before ++ after ∧ (before.flatMap Item.values).length = n := by
  induction is generalizing n with
  | nil => exact ⟨[], [], rfl, (Nat.le_zero.mp hn).symm⟩
  | cons i is ih =>
    simp only [List.flatMap_cons, List.length_append] at hn
    obtain rfl | hpos := Nat.eq_zero_or_pos n
    · exact ⟨[], i :: is, rfl, rfl⟩
    have hle : i.values.length ≤ n := by
      refine Nat.not_lt.mp fun hlt ↦ ?_
      exact h ⟨[], i, is, rfl, by simpa using hpos, by simpa using hlt⟩
    have hrest : ¬Spans (n - i.values.length) is := by
      rintro ⟨before, j, after, rfl, hl, hr⟩
      refine h ⟨i :: before, j, after, rfl, ?_, ?_⟩
      · simp only [List.flatMap_cons, List.length_append]
        omega
      · simp only [List.cons_append, List.flatMap_cons, List.length_append] at hr ⊢
        omega
    obtain ⟨before, after, rfl, he⟩ := ih hrest (by omega)
    refine ⟨i :: before, after, rfl, ?_⟩
    simp only [List.flatMap_cons, List.length_append]
    omega

theorem not_spans_append {n : Nat} (h : (is.flatMap Item.values).length = n) : ¬Spans n (is ++ js) := by
  rintro ⟨before, i, after, he, hl, hr⟩
  obtain ⟨ks, rfl, -⟩ | ⟨ks, rfl, hks⟩ := List.append_eq_append_iff.mp he
  · simp only [List.flatMap_append, List.length_append] at hl
    omega
  · cases ks with
    | nil =>
      rw [List.append_nil] at h
      omega
    | cons k ks =>
      obtain rfl : i = k := (List.cons.inj hks).1
      simp only [List.flatMap_append, List.flatMap_cons, List.flatMap_nil, List.length_append,
        List.length_nil] at h hr
      omega

section

variable (p : Palette)

/-- Each code that is listed does what the list says. -/
theorem single_of_mem : ∀ e ∈ Item.codes p, ∀ a, single p e.1 a = e.2 a := by
  have hflag : ∀ e ∈ Item.flags, ∀ a, single p e.1 a = e.2 a := by
    simp only [Item.flags, List.forall_mem_cons]
    exact ⟨fun _ ↦ rfl, fun _ ↦ rfl, fun _ ↦ rfl, fun _ ↦ rfl, fun _ ↦ rfl, fun _ ↦ rfl, fun _ ↦ rfl,
      fun _ ↦ rfl, fun _ ↦ rfl, fun _ ↦ rfl, nofun⟩
  have hslot : ∀ slot, ∀ e ∈ Item.slotCodes p slot, ∀ a, single p e.1 a = e.2 a := by
    intro slot
    simp only [Item.slotCodes, List.forall_mem_cons]
    match slot with
    | 0 | 1 | 2 | 3 | 4 | 5 | 6 | 7 => exact ⟨fun _ ↦ rfl, fun _ ↦ rfl, fun _ ↦ rfl, fun _ ↦ rfl, nofun⟩
  intro e he
  obtain he | he := List.mem_append.mp he
  · exact hflag e he
  · obtain ⟨slot, -, he⟩ := List.mem_flatMap.mp he
    exact hslot slot e he

/-- No code is missing in the list. -/
theorem single_of_unlisted {v : Int} (h : ∀ e ∈ Item.codes p, e.1 ≠ v) (a : Style) : single p v a = a := by
  have hflag : ∀ e ∈ Item.flags, e.1 ≠ v := fun e he ↦ h e (List.mem_append_left _ he)
  have hslot : ∀ slot, ∀ e ∈ Item.slotCodes p slot, e.1 ≠ v := fun slot e he ↦
    h e (List.mem_append_right _ (List.mem_flatMap.mpr ⟨slot, List.mem_finRange slot, he⟩))
  simp only [Item.flags, Item.slotCodes, List.forall_mem_cons] at hflag hslot
  have hrange : ∀ {first : Int}, (∀ slot : Fin 8, first + slot.val ≠ v) → ¬(first ≤ v ∧ v ≤ first + 7) := by
    rintro first hne ⟨hl, hu⟩
    refine hne ⟨(v - first).toNat, by omega⟩ ?_
    dsimp only
    omega
  have hforeground := hrange fun slot ↦ (hslot slot).1
  have hbackground := hrange fun slot ↦ (hslot slot).2.1
  have hbright := hrange fun slot ↦ (hslot slot).2.2.1
  have hbehind := hrange fun slot ↦ (hslot slot).2.2.2.1
  fun_cases single p v a
  case case14 => rfl
  all_goals omega

theorem effect_code (v : Int) (a : Style) : (Item.code v).effect p a = single p v a := by
  rw [Item.effect]
  cases hf : (Item.codes p).find? (·.1 = v) with
  | some e =>
    obtain rfl : e.1 = v := by simpa using List.find?_some hf
    exact (single_of_mem p e (List.mem_of_find?_eq_some hf) a).symm
  | none =>
    refine (single_of_unlisted p (fun e he hv ↦ ?_) a).symm
    simpa [hv] using List.find?_eq_none.mp hf e he

theorem effect_indexed (s n : Int) (a : Style) :
    (Item.indexed s n).effect p a = setExtended s (p.color? n) a := by
  rw [Item.effect]
  cases hc : p.color? n with
  | none =>
    rw [if_neg]
    · rfl
    · have := (p.color?_eq_none_iff n).mp hc
      omega
  | some c =>
    rw [if_pos]
    · rfl
    · have hn : ¬(n < 0 ∨ 255 < n) := by
        rw [← p.color?_eq_none_iff, hc]
        nofun
      omega

theorem extended_otherMode {m : Int} (hm : m ≠ 5 ∧ m ≠ 2) (vs : List Int) :
    extended p (m :: vs) = (none, vs) := by
  obtain ⟨h5, h2⟩ := hm
  simp [extended, h5, h2]

theorem extended_tooShort {m : Int} {rest : List Int}
    (hm : (m = 5 ∧ rest.length < 1) ∨ (m = 2 ∧ rest.length < 3)) : extended p (m :: rest) = (none, []) := by
  obtain ⟨rfl, hrest⟩ | ⟨rfl, hrest⟩ := hm
  · rw [List.length_eq_zero_iff.mp (Nat.lt_one_iff.mp hrest)]
    rfl
  · rcases rest with _ | ⟨r, _ | ⟨g, _ | ⟨b, vs⟩⟩⟩
    · rfl
    · rfl
    · rfl
    · simp only [List.length_cons] at hrest
      omega

theorem between_natCast {α : Type} {xs : List α} {i j : Nat} (hi : i ≤ xs.length) (hj : j ≤ xs.length) :
    between xs i j = (xs.take j).drop i := by
  have hbound : ∀ {k : Nat}, k ≤ xs.length → boundFrom xs.length k = k := by
    intro k hk
    rw [boundFrom, if_neg (by omega)]
    omega
  rw [between, hbound hi, hbound hj]

/-- A selector that is looked up by its position selects what it selects where the values are read one by one. -/
theorem ofSelector?_eq (before rest : List Int) (s : Int) :
    Color.ofSelector? (before ++ s :: 2 :: rest) before.length = .ok (extended p (2 :: rest)).1 := by
  have hlength : (before ++ s :: 2 :: rest).length = before.length + (rest.length + 2) := by simp
  unfold Color.ofSelector?
  rw [hlength]
  rcases rest with _ | ⟨r, _ | ⟨g, _ | ⟨b, vs⟩⟩⟩
  · exact if_pos (by simp)
  · exact if_pos (by simp)
  · exact if_pos (by simp)
  · simp only [List.length_cons] at hlength ⊢
    have hbetween : between (before ++ s :: 2 :: r :: g :: b :: vs) (before.length + 2) (before.length + 5) =
        ((before ++ s :: 2 :: r :: g :: b :: vs).take (before.length + 5)).drop (before.length + 2) :=
      between_natCast (i := before.length + 2) (j := before.length + 5) (by omega) (by omega)
    rw [if_neg (by omega), hbetween, List.take_length_add_append, List.drop_length_add_append]
    rfl

/-- The effects of items one after the other. -/
def effects (is : List Item) (a : Style) : Style := is.foldl (fun a i ↦ i.effect p a) a

theorem applyValues_selector {s : Int} (hs : Selects s) (vs : List Int) (a : Style) :
    applyValues p (s :: vs) a = applyValues p (extended p vs).2 (setExtended s (extended p vs).1 a) := by
  rw [applyValues]
  exact if_pos hs

theorem applyValues_eq_effects (h : Cutting vs is) (a : Style) : applyValues p vs a = effects p is a := by
  -- one case for each form of an item; the values behind it are cut by the rest of the derivation
  induction h generalizing a with
  | nil => rw [applyValues]; rfl
  | @code v vs is hv h ih =>
    have hself : applyValues p (v :: vs) a = applyValues p vs (single p v a) := by
      rw [applyValues]
      exact if_neg hv
    rw [hself, ih, ← effect_code]
    rfl
  | @indexed s n vs is hs h ih =>
    have he : extended p (5 :: n :: vs) = (p.color? n, vs) := rfl
    rw [applyValues_selector p hs, he, ih, ← effect_indexed]
    rfl
  | @direct s r g b vs is hs h ih =>
    have he : extended p (2 :: r :: g :: b :: vs) = (some (Color.clamped r g b), vs) := rfl
    rw [applyValues_selector p hs, he, ih]
    rfl
  | otherMode hs hm h ih =>
    rw [applyValues_selector p hs, extended_otherMode p hm, ih]
    rfl
  | tooShort hs hm =>
    rw [applyValues_selector p hs, extended_tooShort p hm, applyValues]
    rfl
  | alone hs =>
    have he : extended p [] = (none, []) := rfl
    rw [applyValues_selector p hs, he, applyValues]
    rfl

theorem apply_eq_effects {ps : Params} (h : ps ≠ []) (a : Style) :
    apply p ps a = effects p (items (values ps)) a := by
  rw [apply, if_neg (by simp [h])]
  exact applyValues_eq_effects p (cutting_items _) a

theorem values_append (ps qs : Params) : values (ps ++ qs) = values ps ++ values qs := List.map_append

theorem apply_append {ps qs : Params} (hp : ps ≠ []) (hq : qs ≠ [])
    (h : ¬Spans ps.length (items (values (ps ++ qs)))) (a : Style) :
    apply p (ps ++ qs) a = apply p qs (apply p ps a) := by
  have hcut := cutting_items (values (ps ++ qs))
  have hvalues := hcut.flatMap_values
  have hlength : ps.length = (values ps).length := (List.length_map _).symm
  obtain ⟨before, after, he, hbefore⟩ := exists_split_of_not_spans h (by
    rw [hvalues, values_append, List.length_append]
    omega)
  rw [he, values_append, List.flatMap_append] at hvalues
  obtain ⟨hps, hqs⟩ := List.append_inj hvalues (hbefore.trans hlength)
  have hafter : after ≠ [] := by
    rintro rfl
    have : values qs = [] := hqs.symm
    exact hq (List.map_eq_nil_iff.mp this)
  rw [he] at hcut
  obtain ⟨hcut, hcut'⟩ := hcut.split hafter
  rw [hps] at hcut
  rw [hqs] at hcut'
  rw [apply_eq_effects p hp, apply_eq_effects p hq, apply_eq_effects p (by simp [hp]), he, ← hcut.eq_items,
    ← hcut'.eq_items]
  exact List.foldl_append

/-- A list of parameters does what its items do from left to right, and each value belongs to one of them. A
list that is divided between two items can be given in two sequences. -/
theorem apply_by_items {ps : Params} (h : ps ≠ []) :
    (∀ is, Cutting (values ps) is ↔ is = items (values ps)) ∧
      (items (values ps)).flatMap Item.values = values ps ∧
      (∀ a, apply p ps a = effects p (items (values ps)) a) ∧
      ∀ qs, qs ≠ [] → ¬Spans ps.length (items (values (ps ++ qs))) →
        (∀ a, apply p (ps ++ qs) a = apply p qs (apply p ps a)) ∧
        ∀ (cfg : Config) (s : Session), cfg.palette = p →
          (s.dispatch cfg ⟨ps ++ qs, 0x6d, false⟩).session =
            ((s.dispatch cfg ⟨ps, 0x6d, false⟩).session.dispatch cfg ⟨qs, 0x6d, false⟩).session := by
  refine ⟨fun is ↦ cutting_iff, (cutting_items _).flatMap_values, apply_eq_effects p h, fun qs hq hs ↦ ?_⟩
  have happend := apply_append p h hq hs
  refine ⟨happend, ?_⟩
  rintro cfg s rfl
  have hdispatch : ∀ (rs : Params) (t : Session), (t.dispatch cfg ⟨rs, 0x6d, false⟩).session =
      { t with style := Rendition.apply cfg.palette rs t.style } := fun _ _ ↦ rfl
  rw [hdispatch, hdispatch, hdispatch, happend]

/-- Behind a red foreground, a reset and a background that lacks a channel. -/
theorem apply_by_items_of_short_background :
    let ps : Params := [some 38, some 5, some 1]
    let qs : Params := [none, some 48, some 2, some 300, some 7]
    ps ≠ [] ∧ qs ≠ [] ∧ ¬Spans ps.length (items (values (ps ++ qs))) ∧
      items (values (ps ++ qs)) = [.indexed 38 1, .code 0, .tooShort 48 2 [300, 7]] ∧
      apply .cga ps {} = { foreground := some ⟨170, 0, 0⟩ } ∧
      apply .cga (ps ++ qs) {} = apply .cga qs (apply .cga ps {}) := by
  intro ps qs
  have hp : ps ≠ [] := by decide
  have hq : qs ≠ [] := by decide
  have hitems : items (values (ps ++ qs)) = [.indexed 38 1] ++ [.code 0, .tooShort 48 2 [300, 7]] := by decide
  have hs : ¬Spans ps.length (items (values (ps ++ qs))) := by
    rw [hitems]
    exact not_spans_append rfl
  obtain ⟨-, -, heffects, hsplit⟩ := apply_by_items .cga hp
  exact ⟨hp, hq, hs, hitems, heffects {}, (hsplit qs hq hs).1 {}⟩

end

end Rendition

end TermCapture
