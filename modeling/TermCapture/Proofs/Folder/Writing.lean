import Mathlib.Tactic.SplitIfs
import TermCapture.Folder

namespace TermCapture.Folder

/-- Where a file is, or can be made. -/
def Place.target? : Place → Option (List String)
  | .file parts _ | .vacant parts => some parts
  | .directory | .absent | .throughFile | .tooLong => none

/-- Everything above some parts is a directory. -/
def Above (f : Folder) (parts : List String) : Prop :=
  ∀ q, q ≠ [] → q <+: parts → q ≠ parts → f.entry? q = some .directory

/-- A file holds some bytes behind a write, and everything else is as before. -/
structure Written (f : Folder) (path : String) (bytes : List UInt8) (f' : Folder) : Prop where
  read_eq : f'.read path = .ok bytes
  others : ∃ parts, (f.place (Path.ofText path)).target? = some parts ∧
    ∀ q, q ≠ [] → q ≠ parts → f'.entry? q = f.entry? q

/-- The way that some parts lead from a directory to a file, or to where one can be made. -/
inductive Leads (f : Folder) : (here parts target : List String) → Prop
  | up {here ps target : List String} (hhere : here ≠ []) (h : Leads f here.dropLast ps target) :
      Leads f here (".." :: ps) target
  | down {here ps target : List String} {p : String} (hup : p ≠ "..") (hsize : ¬255 < p.utf8ByteSize)
      (hentry : f.entry? (here ++ [p]) = some .directory) (h : Leads f (here ++ [p]) ps target) :
      Leads f here (p :: ps) target
  | last {here : List String} {p : String} (hup : p ≠ "..") (hsize : ¬255 < p.utf8ByteSize)
      (hentry : f.entry? (here ++ [p]) ≠ some .directory) : Leads f here [p] (here ++ [p])

variable {f : Folder} {parts : List String}

theorem entry?_put_self (f : Folder) (parts : List String) (bytes : List UInt8) :
    Folder.entry? (f.put parts bytes) parts = some (.file bytes) := by
  have hnone : (f.entries.filter (·.1 ≠ parts)).find? (·.1 = parts) = none := by
    simp
  unfold entry? put
  rw [List.find?_append, hnone]
  simp

theorem entry?_put_of_ne (h : f.Above parts) {q : List String} (hq : q ≠ []) (hne : q ≠ parts)
    (bytes : List UInt8) : Folder.entry? (f.put parts bytes) q = f.entry? q := by
  have hfind : (f.put parts bytes).entries.find? (·.1 = q) = f.entries.find? (·.1 = q) := by
    have hkept : ∀ e : List String × Entry, (!decide (e.1 = parts) && decide (e.1 = q)) = decide (e.1 = q) := by
      intro e
      by_cases he : e.1 = q <;> simp [he, hne]
    rw [put, List.find?_append, List.find?_filter]
    simp [hkept, hne.symm]
  by_cases hp : q <+: parts
  · -- the file that is put stands below this directory, which may have been empty
    have hd := h q hq hp hne
    have hany : (f.put parts bytes).entries.any (q.isPrefixOf ·.1) = true := by
      simp [put, List.isPrefixOf_iff_prefix, hp]
    rw [hd]
    unfold entry? at hd ⊢
    rw [hfind, hany]
    cases he : f.entries.find? (·.1 = q) with
    | none => rfl
    | some e =>
      rw [he] at hd
      exact hd
  · have hno : q.isPrefixOf parts = false := by
      rw [← Bool.not_eq_true, List.isPrefixOf_iff_prefix]
      exact hp
    have hkept : ∀ e : List String × Entry,
        (!decide (e.1 = parts) && q.isPrefixOf e.1) = q.isPrefixOf e.1 := by
      intro e
      by_cases he : e.1 = parts <;> simp [he, hno]
    have hany : (f.put parts bytes).entries.any (q.isPrefixOf ·.1) = f.entries.any (q.isPrefixOf ·.1) := by
      rw [put, List.any_append, List.any_filter]
      simp [hkept, hno]
    unfold entry?
    rw [hfind, hany]

theorem leads_of_follow {here ps : List String} (h : (f.follow here ps).target? = some parts) :
    f.Leads here ps parts := by
  induction ps generalizing here with
  | nil => cases h
  | cons p ps ih =>
    rw [follow] at h
    by_cases hup : p = ".."
    · subst hup
      rw [if_pos rfl] at h
      by_cases hhere : here = []
      · rw [if_pos (by simp [hhere])] at h
        split at h <;> cases h
      · rw [if_neg (by simp [hhere])] at h
        exact .up hhere (ih h)
    · rw [if_neg hup] at h
      split at h
      · cases h
      · rename_i hsize
        have hlast : f.entry? (here ++ [p]) ≠ some .directory → ps = [] → here ++ [p] = parts →
            f.Leads here (p :: ps) parts := by
          rintro hentry rfl rfl
          exact .last hup hsize hentry
        split at h
        · split at h
          · cases h
            exact hlast (by simp [*]) (List.isEmpty_iff.mp ‹_›) rfl
          · cases h
        · exact .down hup hsize ‹_› (ih h)
        · split at h
          · cases h
            exact hlast (by simp [*]) (List.isEmpty_iff.mp ‹_›) rfl
          · cases h

namespace Leads

variable {here ps : List String}

theorem entry?_ne (h : f.Leads here ps parts) : parts ≠ [] ∧ f.entry? parts ≠ some .directory := by
  induction h with
  | up _ _ ih | down _ _ _ _ ih => exact ih
  | last _ _ hentry => exact ⟨by simp, hentry⟩

theorem above (h : f.Leads here ps parts) (hh : ∀ q, q ≠ [] → q <+: here → f.entry? q = some .directory) :
    f.Above parts := by
  have hbelow : ∀ {here : List String} {p : String},
      (∀ q, q ≠ [] → q <+: here → f.entry? q = some .directory) →
      ∀ q, q ≠ [] → q <+: here ++ [p] → q ≠ here ++ [p] → f.entry? q = some .directory :=
    fun hh q hq hp hne ↦ hh q hq ((List.prefix_concat_iff.mp hp).resolve_left hne)
  induction h with
  | @up here _ _ _ _ ih =>
    exact ih fun q hq hp ↦ hh q hq (hp.trans (List.dropLast_prefix here))
  | @down here _ _ p _ _ hentry _ ih =>
    refine ih fun q hq hp ↦ ?_
    by_cases hne : q = here ++ [p]
    · rw [hne, hentry]
    · exact hbelow hh q hq hp hne
  | last _ _ _ => exact hbelow hh

/-- The way to a file stays the same when the file is written. -/
theorem follow_put (h : f.Leads here ps parts) (ha : f.Above parts) (bytes : List UInt8) :
    (f.put parts bytes).follow here ps = .file parts bytes := by
  induction h with
  | up hhere _ ih =>
    rw [follow, if_pos rfl, if_neg (by simp [hhere])]
    exact ih ha
  | down hup hsize hentry hrest ih =>
    obtain ⟨-, hfile⟩ := hrest.entry?_ne
    have hkept := entry?_put_of_ne ha (by simp) (fun he ↦ hfile (he ▸ hentry)) bytes
    rw [follow, if_neg hup, if_neg hsize, hkept, hentry]
    exact ih ha
  | last hup hsize _ =>
    rw [follow, if_neg hup, if_neg hsize, entry?_put_self]
    rfl

end Leads

/-- A write that is not refused is read back from the same path. -/
theorem written_of_write {path : String} {bytes : List UInt8} {f' : Folder}
    (h : f.write path bytes = .ok f') : f.Written path bytes f' := by
  rw [write] at h
  split at h
  · cases h
  · rename_i hzero
    obtain ⟨parts, htarget, rfl⟩ : ∃ parts, (f.place (Path.ofText path)).target? = some parts ∧
        f' = f.put parts bytes := by
      split at h <;> cases h
      · exact ⟨_, by simp [*, Place.target?], rfl⟩
      · exact ⟨_, by simp [*, Place.target?], rfl⟩
    have hplace := htarget
    unfold place at hplace
    split_ifs at hplace with hlong hroot
    · cases hplace
    · have hleads := leads_of_follow hplace
      have habove : f.Above parts := hleads.above fun q hq hp ↦ absurd (List.prefix_nil.mp hp) hq
      refine ⟨?_, parts, htarget, fun q hq hne ↦ entry?_put_of_ne habove hq hne bytes⟩
      rw [read, if_neg hzero, place, if_neg hlong, if_pos hroot, hleads.follow_put habove]
    · cases hplace
    · cases hplace

end TermCapture.Folder
