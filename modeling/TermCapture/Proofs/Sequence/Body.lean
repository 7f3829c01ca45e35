import Mathlib.Tactic.SplitIfs
import TermCapture.Sequence.Partial

namespace TermCapture.Sequence

def decimal (field : List UInt8) : Nat := field.foldl (fun n b ↦ n * 10 + (b.toNat - 0x30)) 0

/-- A field without digits is an omitted parameter. -/
def parameter (field : List UInt8) : Option Int :=
  if field = [] then none else some (decimal field)

/-- What stands between the semicolons. Spaces and private markers do not count. -/
def fields (body : List UInt8) : List (List UInt8) :=
  (body.filter fun b ↦ b != 0x20 && b != 0x3f).splitOn 0x3b

/-- The sequence that a body and a final byte spell, read at once. -/
def ofBody (body : List UInt8) (final : UInt8) : Sequence where
  params := if fields body = [[]] then [] else (fields body).map parameter
  final := final
  isPrivate := body.contains 0x3f

theorem ofBody_nonneg {body : List UInt8} {final : UInt8} {n : Int} (h : some n ∈ (ofBody body final).params) :
    0 ≤ n := by
  unfold ofBody at h
  dsimp only at h
  split_ifs at h
  · cases h
  · obtain ⟨field, -, hfield⟩ := List.mem_map.mp h
    unfold parameter at hfield
    split_ifs at hfield
    cases hfield
    exact Int.natCast_nonneg _

theorem continues_iff {b : UInt8} :
    continues b = true ↔ (0x30 ≤ b ∧ b ≤ 0x39) ∨ b = 0x3b ∨ b = 0x3f ∨ b = 0x20 := by
  simp [continues, or_assoc]

theorem fields_skipped {b : UInt8} (h : b = 0x20 ∨ b = 0x3f) (body : List UInt8) :
    fields (b :: body) = fields body := by
  unfold fields
  rw [List.filter_cons_of_neg]
  obtain rfl | rfl := h <;> decide

theorem fields_semicolon (body : List UInt8) : fields (0x3b :: body) = [] :: fields body := by
  unfold fields
  rw [List.filter_cons_of_pos (by decide), List.splitOn_cons_eq_if_modifyHead, if_pos (by decide)]

theorem fields_digit {b : UInt8} (h : 0x30 ≤ b ∧ b ≤ 0x39) (body : List UInt8) :
    fields (b :: body) = (fields body).modifyHead (b :: ·) := by
  obtain ⟨hl, hu⟩ := h
  have hb : b ≠ 0x20 ∧ b ≠ 0x3f ∧ b ≠ 0x3b := by
    refine ⟨?_, ?_, ?_⟩ <;> rintro rfl <;> revert hl hu <;> decide
  unfold fields
  rw [List.filter_cons_of_pos (by simp [hb.1, hb.2.1]), List.splitOn_cons_eq_if_modifyHead,
    if_neg (by simp [hb.2.2])]

namespace Partial

def resume (value : Option Nat) (field : List UInt8) : Option Nat :=
  field.foldl (fun v b ↦ some (v.getD 0 * 10 + (b.toNat - 0x30))) value

theorem resume_some (n : Nat) (field : List UInt8) :
    resume (some n) field = some (field.foldl (fun n b ↦ n * 10 + (b.toNat - 0x30)) n) := by
  induction field generalizing n with
  | nil => rfl
  | cons b field ih => exact ih _

theorem resume_none (field : List UInt8) : (resume none field).map Int.ofNat = parameter field := by
  cases field with
  | nil => rfl
  | cons b field =>
    have h : resume none (b :: field) = resume (some (0 * 10 + (b.toNat - 0x30))) field := rfl
    rw [h, resume_some]
    rfl

/-- The parameters that the fields of a body make, the first of which goes on with a value. -/
def continued (value : Option Nat) : List (List UInt8) → Params
  | [] => []
  | f :: fs => (resume value f).map Int.ofNat :: fs.map parameter

/-- The parameters so far, the one that is being read among them. -/
def read (p : Partial) : Params := p.params.toList ++ [p.value.map Int.ofNat]

def extend (p : Partial) (b : UInt8) : Partial :=
  let p := { p with length := p.length + 1 }
  if 0x30 ≤ b ∧ b ≤ 0x39 then { p with value := some (p.value.getD 0 * 10 + (b.toNat - 0x30)) }
  else if b = 0x3b then { p with params := p.params.push (p.value.map Int.ofNat), value := none }
  else if b = 0x3f then { p with isPrivate := true }
  else p

def complete (p : Partial) (final : UInt8) : Sequence where
  params := if p.read = [none] then [] else p.read
  final := final
  isPrivate := p.isPrivate

theorem continued_none (fs : List (List UInt8)) : continued none fs = fs.map parameter := by
  cases fs with
  | nil => rfl
  | cons f fs => rw [continued, resume_none, List.map_cons]

theorem continued_digit (value : Option Nat) (b : UInt8) (fs : List (List UInt8)) :
    continued value (fs.modifyHead (b :: ·)) =
      continued (some (value.getD 0 * 10 + (b.toNat - 0x30))) fs := by
  cases fs <;> rfl

theorem commit_permissive (p : Partial) :
    p.commit false = .ok { p with params := p.params.push (p.value.map Int.ofNat), value := none } := by
  obtain ⟨params, _ | n, isPrivate, length⟩ := p <;> rfl

theorem finish_permissive (p : Partial) :
    ∃ q, p.finish false = .ok q ∧ q.isPrivate = p.isPrivate ∧
      q.params.toList = if p.read = [none] then [] else p.read := by
  have hread : p.read = [none] ↔ p.value.isNone ∧ p.params.isEmpty := by
    rw [read]
    cases hp : p.params.toList with
    | nil => simp [Array.toList_eq_nil_iff.mp hp]
    | cons v vs =>
      have : p.params ≠ #[] := by
        intro h
        simp [h] at hp
      simp [this]
  rw [finish]
  by_cases h : p.value.isNone ∧ p.params.isEmpty
  · refine ⟨p, if_pos h, rfl, ?_⟩
    rw [if_pos (hread.mpr h)]
    simpa using h.2
  · refine ⟨_, (if_neg h).trans p.commit_permissive, rfl, ?_⟩
    rw [if_neg (fun hr ↦ h (hread.mp hr))]
    exact Array.toList_push

section

variable (p : Partial) {b : UInt8} {body : List UInt8}

theorem extend_digit (h : 0x30 ≤ b ∧ b ≤ 0x39) :
    p.extend b = { p with
      value := some (p.value.getD 0 * 10 + (b.toNat - 0x30)), length := p.length + 1 } := if_pos h

theorem extend_semicolon :
    p.extend 0x3b = { p with
      params := p.params.push (p.value.map Int.ofNat), value := none, length := p.length + 1 } := rfl

theorem extend_skipped (h : b = 0x3f ∨ b = 0x20) :
    (p.extend b).params = p.params ∧ (p.extend b).value = p.value := by
  obtain rfl | rfl := h <;> exact ⟨rfl, rfl⟩

theorem length_extend (b : UInt8) : (p.extend b).length = p.length + 1 := by
  rw [extend]
  split_ifs <;> rfl

theorem length_foldl_extend (body : List UInt8) : (body.foldl extend p).length = p.length + body.length := by
  induction body generalizing p with
  | nil => rfl
  | cons b body ih =>
    rw [List.foldl_cons, ih, length_extend, List.length_cons]
    omega

section

variable {maxLength : Option Int}

/-- A byte for which there is no room is refused, whatever it is. -/
theorem push_tooLong (strict : Bool) {n : Int} (hn : n ∈ maxLength) (h : n ≤ p.length) (b : UInt8) :
    p.push strict maxLength b = .refused (.sequenceTooLong n) {} := by
  obtain rfl : maxLength = some n := hn
  have hlt : n < ((p.length + 1 : Nat) : Int) := by omega
  rw [push]
  simp only [Option.filter_some, hlt, decide_true, if_true]
  rfl

variable (hroom : ∀ n ∈ maxLength, (p.length : Int) < n)

include hroom

theorem filter_room : maxLength.filter (· < ((p.length + 1 : Nat) : Int)) = none := by
  rw [Option.filter_eq_none_iff]
  intro n hn
  have := hroom n hn
  rw [decide_eq_true_eq]
  omega

theorem push_continues (h : continues b = true) : p.push false maxLength b = .more (p.extend b) := by
  rw [push, extend]
  dsimp only
  rw [filter_room p hroom]
  dsimp only
  split_ifs with hd hs hq hb
  · rfl
  · rw [commit_permissive]
  · rfl
  · rfl
  · exfalso
    obtain h | h | h | h := continues_iff.mp h
    · exact hd h
    · exact hs h
    · exact hq h
    · exact hb h

theorem push_final_eq (strict : Bool) (h : continues b = false) :
    p.push strict maxLength b = match ({ p with length := p.length + 1 } : Partial).finish strict with
      | .ok q => .done ⟨q.params.toList, b, q.isPrivate⟩ {}
      | .error (f, _) => .refused f {} := by
  have hb : ¬((0x30 ≤ b ∧ b ≤ 0x39) ∨ b = 0x3b ∨ b = 0x3f ∨ b = 0x20) := by
    rw [← continues_iff, h]
    decide
  rw [not_or, not_or, not_or] at hb
  obtain ⟨hd, hs, hq, hb⟩ := hb
  rw [push]
  dsimp only
  rw [filter_room p hroom]
  dsimp only
  refine (if_neg hd).trans ((if_neg hs).trans ((if_neg hq).trans ((if_neg hb).trans ?_)))
  cases hf : ({ p with length := p.length + 1 } : Partial).finish strict with
  | ok q => rfl
  | error e =>
    obtain ⟨f, q⟩ := e
    exact congrArg (Progress.refused f) (parser_finish hf)

theorem push_final (h : continues b = false) : p.push false maxLength b = .done (p.complete b) {} := by
  obtain ⟨q, hf, hprivate, hparams⟩ := finish_permissive { p with length := p.length + 1 }
  rw [push_final_eq p hroom false h, hf]
  simp only [complete, hprivate, hparams]
  rfl

end

theorem read_extend (h : ∀ b ∈ body, continues b = true) :
    (body.foldl extend p).read = p.params.toList ++ continued p.value (fields body) := by
  -- a field is finished from its end, so the first one goes on with the value of `p`
  induction body generalizing p with
  | nil => rfl
  | cons b body ih =>
    rw [List.foldl_cons, ih _ fun c hc ↦ h c (List.mem_cons_of_mem _ hc)]
    obtain hd | rfl | hb := continues_iff.mp (h b List.mem_cons_self)
    · rw [extend_digit p hd, fields_digit hd, continued_digit]
    · rw [extend_semicolon, fields_semicolon, Array.toList_push, List.append_assoc, continued_none]
      rfl
    · obtain ⟨hp, hv⟩ := extend_skipped p hb
      rw [hp, hv, fields_skipped hb.symm]

theorem isPrivate_extend (h : ∀ b ∈ body, continues b = true) :
    (body.foldl extend p).isPrivate = (p.isPrivate || body.contains 0x3f) := by
  induction body generalizing p with
  | nil => simp
  | cons b body ih =>
    rw [List.foldl_cons, ih _ fun c hc ↦ h c (List.mem_cons_of_mem _ hc), List.contains_cons]
    obtain hd | rfl | rfl | rfl := continues_iff.mp (h b List.mem_cons_self)
    · have hq : (0x3f == b) = false := by
        rw [beq_eq_false_iff_ne]
        rintro rfl
        revert hd
        decide
      rw [extend_digit p hd, hq, Bool.false_or]
    · rfl
    · simp [extend]
    · rfl

end

/-- What a parser makes of a body and a final byte is what they spell at once. -/
theorem complete_extend {body : List UInt8} (h : ∀ b ∈ body, continues b = true) (final : UInt8) :
    (body.foldl extend {}).complete final = ofBody body final := by
  have hread : (body.foldl extend {}).read = (fields body).map parameter := by
    rw [read_extend _ h, continued_none]
    rfl
  have hempty : (fields body).map parameter = [none] ↔ fields body = [[]] := by
    refine ⟨fun hf ↦ ?_, fun hf ↦ by rw [hf]; rfl⟩
    obtain ⟨f, hf', hn⟩ := List.map_eq_singleton_iff.mp hf
    rw [hf']
    rw [parameter] at hn
    split at hn
    · subst f
      rfl
    · cases hn
  rw [complete, ofBody, hread, isPrivate_extend _ h, Bool.false_or]
  simp only [hempty]

/-- A parser has read no more digits of a number than bytes. -/
def Short (p : Partial) : Prop := ∀ n, some n ∈ p.read → n.natAbs < Nat.pow 10 p.length

theorem short_empty : Short {} := by simp [Short, read]

theorem short_extend {p : Partial} (h : p.Short) (b : UInt8) : (p.extend b).Short := by
  have hpow : Nat.pow 10 (p.length + 1) = Nat.pow 10 p.length * 10 := rfl
  have hkept : ∀ n, some n ∈ p.read → n.natAbs < Nat.pow 10 (p.length + 1) := fun n hn ↦ by
    have := h n hn
    omega
  unfold Short
  rw [length_extend]
  intro n hn
  by_cases hd : 0x30 ≤ b ∧ b ≤ 0x39
  · rw [extend_digit p hd, read, List.mem_append] at hn
    obtain hn | hn := hn
    · exact hkept n (List.mem_append_left _ hn)
    · obtain rfl : n = (p.value.getD 0 * 10 + (b.toNat - 0x30) : Nat) := by simpa using hn
      have hdigit : b.toNat ≤ 0x39 := UInt8.le_iff_toNat_le.mp hd.2
      have hpos : 0 < Nat.pow 10 p.length := Nat.pow_pos (by decide)
      rw [Int.natAbs_natCast]
      cases hv : p.value with
      | none =>
        rw [Option.getD_none]
        omega
      | some v =>
        have hvalue := h v (by simp [read, hv])
        rw [Int.natAbs_natCast] at hvalue
        rw [Option.getD_some]
        omega
  · rw [extend, if_neg hd] at hn
    dsimp only at hn
    refine hkept n ?_
    split_ifs at hn
    · simpa [read] using hn
    · exact hn
    · exact hn

theorem short_foldl {p : Partial} (h : p.Short) (body : List UInt8) : (body.foldl extend p).Short := by
  induction body generalizing p with
  | nil => exact h
  | cons b body ih => exact ih (short_extend h b)

theorem Short.of_complete {p : Partial} (h : p.Short) (final : UInt8) :
    ∀ n, some n ∈ (p.complete final).params → n.natAbs < Nat.pow 10 p.length := by
  intro n hn
  unfold complete at hn
  dsimp only at hn
  split_ifs at hn
  · cases hn
  · exact h n hn

example : ofBody [0x3b, 0x31, 0x20, 0x32] 0x48 = ⟨[none, some 12], 0x48, false⟩ := by decide

end Partial

end TermCapture.Sequence
