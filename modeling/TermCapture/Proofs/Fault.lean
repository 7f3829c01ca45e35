import TermCapture.Fault

namespace TermCapture

theorem Text.isSome_decimal? {n : Int} : (Text.decimal? n).isSome ↔ Text.Writable n := by
  unfold Text.decimal?
  split <;> simp [*]

namespace Params

/-- Every number among the parameters is short enough to be written. -/
def Writable (ps : Params) : Prop := ∀ n, some n ∈ ps → Text.Writable n

theorem isSome_mapM {α β : Type} (f : α → Option β) (xs : List α) :
    (xs.mapM f).isSome ↔ ∀ x ∈ xs, (f x).isSome := by
  induction xs with
  | nil => simp
  | cons x xs ih =>
    cases hx : f x with
    | none => simp [List.mapM_cons, hx]
    | some y =>
      rw [List.forall_mem_cons, ← ih, hx]
      cases hxs : xs.mapM f <;> simp [List.mapM_cons, hx, hxs]

theorem mapM_eq_map {α β : Type} {f : α → Option β} {g : α → β} {xs : List α} (h : ∀ x ∈ xs, f x = some (g x)) :
    xs.mapM f = some (xs.map g) := by
  induction xs with
  | nil => rfl
  | cons x xs ih =>
    rw [List.forall_mem_cons] at h
    rw [List.mapM_cons, h.1, ih h.2]
    rfl

theorem text?_of_writable {ps : Params} (h : ps.Writable) :
    ps.text? = some (";".intercalate (ps.map fun | some n => Text.decimal n | none => "")) := by
  rw [text?, mapM_eq_map]
  · rfl
  · rintro (_ | n) hn
    · rfl
    · exact if_pos (h n hn)

theorem isSome_text? {ps : Params} : ps.text?.isSome ↔ ps.Writable := by
  rw [Params.text?, Option.isSome_map, isSome_mapM]
  constructor
  · intro h n hn
    exact Text.isSome_decimal?.mp (h (some n) hn)
  · rintro h (_ | n) hn
    · rfl
    · exact Text.isSome_decimal?.mpr (h n hn)

end Params

namespace Fault

/-- The faults that a screen has by itself, whatever the parameters are. -/
inductive OfScreen : Fault → Prop
  | lineLimit (n : Int) : OfScreen (.lineLimit n)
  | wordless (n : Int) : OfScreen (.wordless (.lineLimit n))
  | overflow : OfScreen .overflow
  | noSuchLine : OfScreen .noSuchLine

theorem raised_cases (f : Fault) : f.raised = f ∨ f.text? = none ∧ f.raised = .wordless f := by
  unfold raised
  split
  · exact .inl rfl
  · exact .inr ⟨by assumption, rfl⟩

theorem raised_eq_self_iff {f : Fault} : f.raised = f ↔ f.text?.isSome := by
  unfold raised
  split
  · simp [*]
  · rename_i h
    simp only [h, Option.isSome_none, Bool.false_eq_true, iff_false]
    cases f with
    | wordless f => cases h
    | _ => nofun

theorem raised_lineLimit {n : Int} : (lineLimit n).raised = .lineLimit n ↔ Text.Writable n := by
  rw [raised_eq_self_iff, text?, Option.isSome_map, Text.isSome_decimal?]

theorem raised_eq_lineLimit_iff {k n : Int} : (lineLimit k).raised = .lineLimit n ↔ k = n ∧ Text.Writable k := by
  constructor
  · intro h
    obtain he | ⟨-, he⟩ := (lineLimit k).raised_cases
    · exact ⟨lineLimit.inj (he.symm.trans h), raised_lineLimit.mp he⟩
    · cases he.symm.trans h
  · rintro ⟨rfl, h⟩
    exact raised_lineLimit.mpr h

theorem raised_parameterCount {c : Command} {ps : Params} :
    (parameterCount c ps).raised = .parameterCount c ps ↔ ps.Writable := by
  rw [raised_eq_self_iff, text?, Option.isSome_map, Params.isSome_text?]

theorem raised_unsupportedMode {c : Command} {ps : Params} :
    (unsupportedMode c ps).raised = .unsupportedMode c ps ↔ ps.Writable := by
  rw [raised_eq_self_iff, text?, Option.isSome_map, Params.isSome_text?]

theorem raised_lineLimit_ne_overflow {n : Int} : (lineLimit n).raised ≠ .overflow := by
  obtain h | ⟨-, h⟩ := (lineLimit n).raised_cases <;> rw [h] <;> nofun

theorem raised_lineLimit_ne_noSuchLine {n : Int} : (lineLimit n).raised ≠ .noSuchLine := by
  obtain h | ⟨-, h⟩ := (lineLimit n).raised_cases <;> rw [h] <;> nofun

end Fault

end TermCapture
