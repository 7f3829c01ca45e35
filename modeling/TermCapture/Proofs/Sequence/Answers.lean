import Mathlib.Data.List.Infix
import TermCapture.Proofs.Sequence.Body

namespace TermCapture.Sequence

theorem fields_ne_nil (body : List UInt8) : fields body ≠ [] := List.splitOnP_ne_nil _ _

theorem parameter_eq_none_iff (field : List UInt8) : parameter field = none ↔ field = [] := by
  rw [parameter]
  split_ifs with h <;> simp [h]

/-- The bytes up to the end of a field hold it and the fields before it. A semicolon ends it, unless it is the
last one of the body. -/
theorem exists_field_end {body : List UInt8} (h : ∀ b ∈ body, continues b = true) {i : Nat}
    (hi : i < (fields body).length) :
    (i + 1 = (fields body).length) ∨
      ∃ u v, body = u ++ 0x3b :: v ∧ i + 1 < (fields body).length ∧ fields u = (fields body).take (i + 1) := by
  induction body generalizing i with
  | nil =>
    have hlength : (fields []).length = 1 := rfl
    exact .inl (by omega)
  | cons b body ih =>
    have hbody : ∀ c ∈ body, continues c = true := fun c hc ↦ h c (List.mem_cons_of_mem b hc)
    obtain hd | rfl | hb := continues_iff.mp (h b List.mem_cons_self)
    · rw [fields_digit hd, List.length_modifyHead] at hi ⊢
      obtain he | ⟨u, v, rfl, hlt, hu⟩ := ih hbody hi
      · exact .inl he
      · refine .inr ⟨b :: u, v, rfl, hlt, ?_⟩
        rw [fields_digit hd, hu]
        cases fields (u ++ 0x3b :: v) <;> rfl
    · rw [fields_semicolon, List.length_cons] at hi ⊢
      have hpos := List.length_pos_iff.mpr (fields_ne_nil body)
      cases i with
      | zero => exact .inr ⟨[], body, rfl, by omega, rfl⟩
      | succ i =>
        obtain he | ⟨u, v, rfl, hlt, hu⟩ := ih hbody (Nat.lt_of_succ_lt_succ hi)
        · exact .inl (by omega)
        · refine .inr ⟨0x3b :: u, v, rfl, by omega, ?_⟩
          rw [fields_semicolon, hu, List.take_succ_cons]
    · rw [fields_skipped hb.symm] at hi ⊢
      obtain he | ⟨u, v, rfl, hlt, hu⟩ := ih hbody hi
      · exact .inl he
      · refine .inr ⟨b :: u, v, rfl, hlt, ?_⟩
        rw [fields_skipped hb.symm, hu]

namespace Partial

/-- What a byte is answered with, which is nothing as long as a sequence goes on. -/
def Progress.answer : Progress → Option (Except Fault Sequence)
  | .more _ => none
  | .done q _ => some (.ok q)
  | .refused f _ => some (.error f)

/-- The answers to bytes that are pushed one after the other, and the parser behind the last of them. -/
def pushAll (strict : Bool) (maxLength : Option Int) :
    List UInt8 → Partial → List (Option (Except Fault Sequence)) × Partial
  | [], p => ([], p)
  | b :: bs, p =>
    let r := p.push strict maxLength b
    let (answers, q) := pushAll strict maxLength bs r.parser
    (r.answer :: answers, q)

variable {strict : Bool} {maxLength : Option Int}

theorem pushAll_append (as bs : List UInt8) (p : Partial) :
    pushAll strict maxLength (as ++ bs) p =
      ((pushAll strict maxLength as p).1 ++ (pushAll strict maxLength bs (pushAll strict maxLength as p).2).1,
        (pushAll strict maxLength bs (pushAll strict maxLength as p).2).2) := by
  induction as generalizing p with
  | nil => rfl
  | cons a as ih =>
    simp only [List.cons_append, pushAll]
    rw [ih]

section

variable {p : Partial} {b : UInt8}

theorem commit_present (strict : Bool) (hv : p.value ≠ none) :
    p.commit strict = .ok { p with params := p.params.push (p.value.map Int.ofNat), value := none } := by
  obtain ⟨params, _ | n, isPrivate, length⟩ := p
  · exact (hv rfl).elim
  · rfl

theorem commit_missing (hv : p.value = none) : p.commit true = .error (.missingParameter p.params.size, {}) := by
  rw [commit, hv]
  rfl

variable (hroom : ∀ n ∈ maxLength, (p.length : Int) < n)

include hroom

/-- A byte of a body is taken, unless it is a semicolon that a strict reading finds a parameter missing at. -/
theorem push_taken (h : continues b = true) (hv : strict = true → b = 0x3b → p.value ≠ none) :
    p.push strict maxLength b = .more (p.extend b) := by
  cases strict with
  | false => exact p.push_continues hroom h
  | true =>
    rw [push, extend]
    dsimp only
    rw [filter_room p hroom]
    dsimp only
    split_ifs with hd hs hq hb
    · rfl
    · rw [commit_present true (p := { p with length := p.length + 1 }) (hv rfl hs)]
    · rfl
    · rfl
    · exfalso
      simp only [continues_iff, hd, hs, hq, hb, or_self] at h

theorem push_semicolon_missing (hv : p.value = none) :
    p.push true maxLength 0x3b = .refused (.missingParameter p.params.size) {} := by
  rw [push]
  dsimp only
  rw [filter_room p hroom]
  dsimp only
  rw [if_neg (by decide), if_pos rfl, commit_missing (p := { p with length := p.length + 1 }) hv]

/-- The final byte completes a sequence whose last parameter is there, or that has no parameters. -/
theorem push_final_taken (h : continues b = false)
    (hv : strict = true → p.value ≠ none ∨ p.params = #[]) :
    p.push strict maxLength b = .done (p.complete b) {} := by
  cases strict with
  | false => exact p.push_final hroom h
  | true =>
    cases hval : p.value with
    | some n =>
      have hf : ({ p with length := p.length + 1 } : Partial).finish true = .ok { p with
          params := p.params.push (some (n : Int)), value := none, length := p.length + 1 } := by
        rw [finish, if_neg (by simp [hval]), commit, hval]
      rw [p.push_final_eq hroom true h, hf]
      simp [complete, read, hval, List.append_eq_singleton_iff]
    | none =>
      have hp : p.params = #[] := (hv rfl).resolve_left (fun hne ↦ hne hval)
      have hf : ({ p with length := p.length + 1 } : Partial).finish true =
          .ok { p with length := p.length + 1 } := by
        rw [finish, if_pos (by simp [hval, hp])]
      rw [p.push_final_eq hroom true h, hf]
      simp [complete, read, hval, hp]

theorem push_final_missing (h : continues b = false) (hv : p.value = none) (hp : p.params ≠ #[]) :
    p.push true maxLength b = .refused (.missingParameter p.params.size) {} := by
  have hf : ({ p with length := p.length + 1 } : Partial).finish true =
      .error (.missingParameter p.params.size, {}) := by
    rw [finish, if_neg (by simp [hp])]
    exact commit_missing (p := { p with length := p.length + 1 }) hv
  rw [p.push_final_eq hroom true h, hf]

end

theorem continued_ne_nil (value : Option Nat) (body : List UInt8) : continued value (fields body) ≠ [] := by
  cases h : fields body with
  | nil => exact absurd h (fields_ne_nil body)
  | cons f fs => exact List.cons_ne_nil _ _

/-- A semicolon ends the parameter that is being read, and any other byte goes on with it. -/
theorem continued_extend (p : Partial) {b : UInt8} (hb : continues b = true) (body : List UInt8) :
    continued p.value (fields (b :: body)) =
      (if b = 0x3b then [p.value.map Int.ofNat] else []) ++ continued (p.extend b).value (fields body) := by
  obtain hd | rfl | hsk := continues_iff.mp hb
  · have hne : b ≠ 0x3b := by
      rintro rfl
      exact absurd hd (by decide)
    rw [fields_digit hd, continued_digit, extend_digit p hd, if_neg hne, List.nil_append]
  · rw [fields_semicolon, extend_semicolon, continued_none, if_pos rfl]
    rfl
  · have hne : b ≠ 0x3b := by
      rintro rfl
      exact absurd hsk (by decide)
    obtain ⟨-, hv⟩ := extend_skipped p hsk
    rw [fields_skipped hsk.symm, hv, if_neg hne, List.nil_append]

/-- If the parameters that a semicolon ends are there, those that one ends behind the next byte are. -/
theorem present_extend {p : Partial} {b : UInt8} (hb : continues b = true) {body : List UInt8}
    (h : none ∉ (continued p.value (fields (b :: body))).dropLast) :
    (b = 0x3b → p.value ≠ none) ∧ none ∉ (continued (p.extend b).value (fields body)).dropLast := by
  rw [continued_extend p hb, List.dropLast_append_of_ne_nil (continued_ne_nil _ _), List.mem_append, not_or] at h
  obtain ⟨hended, hlater⟩ := h
  refine ⟨fun hsemicolon hnone ↦ hended ?_, hlater⟩
  rw [if_pos hsemicolon, hnone]
  exact List.mem_singleton_self none

/-- Bytes of a body are taken as long as there is room, in strict reading up to the first semicolon that a
parameter is missing at. -/
theorem pushAll_taken {p : Partial} {u : List UInt8} (hu : ∀ b ∈ u, continues b = true) {k : Nat}
    (hk : k ≤ u.length) (hroom : ∀ n ∈ maxLength, ∀ j < k, ((p.length + j : Nat) : Int) < n)
    (hp : strict = true → none ∉ (continued p.value (fields u)).dropLast) :
    pushAll strict maxLength (u.take k) p = (List.replicate k none, (u.take k).foldl extend p) := by
  -- behind each byte the first field goes on with the value so far, so only the finished ones must be there
  induction u generalizing p k with
  | nil =>
    obtain rfl : k = 0 := Nat.le_zero.mp hk
    rfl
  | cons b u ih =>
    cases k with
    | zero => rfl
    | succ k =>
      have hb := hu b List.mem_cons_self
      have hroom' : ∀ n ∈ maxLength, (p.length : Int) < n := fun n hn ↦ hroom n hn 0 (Nat.succ_pos k)
      have hfields : strict = true → (b = 0x3b → p.value ≠ none) ∧
          none ∉ (continued (p.extend b).value (fields u)).dropLast := fun hs ↦ present_extend hb (hp hs)
      have hpush := push_taken hroom' hb fun hs ↦ (hfields hs).1
      have hrest : ∀ n ∈ maxLength, ∀ j < k, (((p.extend b).length + j : Nat) : Int) < n := by
        intro n hn j hj
        have := hroom n hn (j + 1) (Nat.succ_lt_succ hj)
        rw [length_extend]
        omega
      rw [List.take_succ_cons, pushAll, hpush]
      dsimp only [Progress.parser]
      rw [ih (fun c hc ↦ hu c (List.mem_cons_of_mem b hc)) (Nat.le_of_succ_le_succ hk) hrest
        fun hs ↦ (hfields hs).2]
      rfl

/-- A parser decides what becomes of a sequence at the byte `c`: it answers nothing before, and is reset
afterwards. A limit that an earlier byte exceeds is what it decides by instead. -/
structure Settles (strict : Bool) (before : List UInt8) (c : UInt8) (answer : Except Fault Sequence) :
    Prop where
  within : ∀ maxLength : Option Int, (∀ n ∈ maxLength, (before.length : Int) < n) →
    pushAll strict maxLength (before ++ [c]) {} = (List.replicate before.length none ++ [some answer], {})
  beyond : ∀ n : Int, n ≤ before.length →
    pushAll strict (some n) ((before ++ [c]).take (n.toNat + 1)) {} =
      (List.replicate n.toNat none ++ [some (.error (.sequenceTooLong n))], {})

theorem settles_of_push {u : List UInt8} {c : UInt8} {answer : Except Fault Sequence}
    (hu : ∀ b ∈ u, continues b = true) (hp : strict = true → none ∉ ((fields u).map parameter).dropLast)
    (h : ∀ maxLength : Option Int, (∀ n ∈ maxLength, ((u.foldl extend {}).length : Int) < n) →
      ((u.foldl extend {}).push strict maxLength c).answer = some answer ∧
        ((u.foldl extend {}).push strict maxLength c).parser = {}) : Settles strict u c answer := by
  have hlength : ∀ v : List UInt8, (v.foldl extend {}).length = v.length := fun v ↦ by
    rw [length_foldl_extend, Nat.zero_add]
  have htaken : ∀ (maxLength : Option Int) (k : Nat), k ≤ u.length → (∀ n ∈ maxLength, k ≤ n.toNat) →
      pushAll strict maxLength (u.take k) {} = (List.replicate k none, (u.take k).foldl extend {}) := by
    intro maxLength k hk hroom
    have hcont : continued ({} : Partial).value (fields u) = (fields u).map parameter := continued_none _
    refine pushAll_taken hu hk (fun n hn j hj ↦ ?_) (by rwa [hcont])
    have := hroom n hn
    have hzero : ({} : Partial).length = 0 := rfl
    omega
  refine ⟨fun maxLength hroom ↦ ?_, fun n hn ↦ ?_⟩
  · obtain ⟨hanswer, hparser⟩ := h maxLength (by rwa [hlength])
    have hbody := htaken maxLength u.length (Nat.le_refl _) fun n hn ↦ by
      have := hroom n hn
      omega
    rw [List.take_length] at hbody
    rw [pushAll_append, hbody]
    simp only [pushAll, hanswer, hparser]
  · have hlt : n.toNat < (u ++ [c]).length := by
      rw [List.length_append, List.length_singleton]
      omega
    have hprefix := htaken (some n) n.toNat (by omega) (by
      rintro _ ⟨⟩
      exact Nat.le_refl _)
    have hlong : n ≤ ((u.take n.toNat).foldl extend {}).length := by
      rw [hlength, List.length_take]
      omega
    rw [← List.take_append_getElem hlt, List.take_append_of_le_length (by omega), pushAll_append, hprefix]
    simp only [pushAll, push_tooLong _ strict rfl hlong]
    rfl

/-- The parameters behind some bytes are those of their fields, the last of which is still being read. -/
theorem read_of_fields {u : List UInt8} (hu : ∀ b ∈ u, continues b = true) {fs : List (List UInt8)}
    {f : List UInt8} (hf : fields u = fs ++ [f]) :
    (u.foldl extend {}).params.toList = fs.map parameter ∧
      (u.foldl extend {}).value.map Int.ofNat = parameter f := by
  have hread : (u.foldl extend {}).read = fs.map parameter ++ [parameter f] := by
    rw [read_extend _ hu, continued_none, hf, List.map_append]
    rfl
  obtain ⟨hparams, hvalue⟩ := List.append_inj' hread rfl
  exact ⟨hparams, (List.cons.inj hvalue).1⟩

variable {body : List UInt8} {final : UInt8}

theorem present_of_fields (h : fields body = [[]] ∨ [] ∉ fields body) :
    none ∉ ((fields body).map parameter).dropLast := by
  obtain hblank | hfull := h
  · simp [hblank]
  · intro hmem
    obtain ⟨f, hf, hnone⟩ := List.mem_map.mp (List.mem_of_mem_dropLast hmem)
    exact hfull ((parameter_eq_none_iff f).mp hnone ▸ hf)

theorem last_present (hbody : ∀ b ∈ body, continues b = true) (h : fields body = [[]] ∨ [] ∉ fields body) :
    (body.foldl extend {}).value ≠ none ∨ (body.foldl extend {}).params = #[] := by
  have hf := (List.dropLast_concat_getLast (fields_ne_nil body)).symm
  obtain ⟨hparams, hvalue⟩ := read_of_fields hbody hf
  obtain hblank | hfull := h
  · simp only [hblank] at hparams
    exact .inr (Array.toList_eq_nil_iff.mp hparams)
  · refine .inl fun hnone ↦ hfull ?_
    rw [hnone] at hvalue
    rw [← (parameter_eq_none_iff _).mp hvalue.symm]
    exact List.getLast_mem _

theorem settles_complete (hbody : ∀ b ∈ body, continues b = true) (hfinal : continues final = false)
    (h : strict = true → fields body = [[]] ∨ [] ∉ fields body) :
    Settles strict body final (.ok (ofBody body final)) := by
  refine settles_of_push hbody (fun hs ↦ present_of_fields (h hs)) fun maxLength hroom ↦ ?_
  rw [push_final_taken hroom hfinal fun hs ↦ last_present hbody (h hs), complete_extend hbody]
  exact ⟨rfl, rfl⟩

/-- In strict reading, an empty field is refused at the byte that ends it if no field before it is empty. -/
theorem settles_empty {u : List UInt8} (hu : ∀ b ∈ u, continues b = true) {full : List (List UInt8)}
    (hfields : fields u = full ++ [[]]) (hfull : [] ∉ full) {c : UInt8}
    (hc : c = 0x3b ∨ (continues c = false ∧ full ≠ [])) :
    Settles true u c (.error (.missingParameter full.length)) := by
  obtain ⟨hparams, hvalue⟩ := read_of_fields hu hfields
  have hsize : (u.foldl extend {}).params.size = full.length := by
    rw [← Array.length_toList, hparams, List.length_map]
  have hnone : (u.foldl extend {}).value = none := Option.map_eq_none_iff.mp hvalue
  refine settles_of_push hu (fun _ hmem ↦ ?_) fun maxLength hroom ↦ ?_
  · rw [hfields, List.map_append, List.map_singleton, List.dropLast_concat] at hmem
    obtain ⟨f, hf, hmissing⟩ := List.mem_map.mp hmem
    exact hfull ((parameter_eq_none_iff f).mp hmissing ▸ hf)
  · have hpush : (u.foldl extend {}).push true maxLength c = .refused (.missingParameter full.length) {} := by
      rw [← hsize]
      obtain rfl | ⟨hc, hne⟩ := hc
      · exact push_semicolon_missing hroom hnone
      · refine push_final_missing hroom hc hnone fun hempty ↦ hne ?_
        rw [hempty] at hsize
        exact List.length_eq_zero_iff.mp hsize.symm
    rw [hpush]
    exact ⟨rfl, rfl⟩

theorem not_mem_take_idxOf (fs : List (List UInt8)) : [] ∉ fs.take (fs.idxOf []) := by
  intro h
  have hlt := List.idxOf_lt_length_iff.mpr h
  have he : fs.idxOf [] = (fs.take (fs.idxOf [])).idxOf [] := by
    have happend : (fs.take (fs.idxOf []) ++ fs.drop (fs.idxOf [])).idxOf [] =
        (fs.take (fs.idxOf [])).idxOf [] := List.idxOf_append_of_mem h
    rwa [List.take_append_drop] at happend
  rw [← he, List.length_take] at hlt
  omega

theorem settles_missing (hbody : ∀ b ∈ body, continues b = true) (hfinal : continues final = false)
    (hblank : fields body ≠ [[]]) (hmem : [] ∈ fields body) :
    ∃ u c v, body ++ [final] = u ++ c :: v ∧ fields u = (fields body).take ((fields body).idxOf [] + 1) ∧
      c = (if (fields body).idxOf [] + 1 < (fields body).length then 0x3b else final) ∧
      Settles true u c (.error (.missingParameter ((fields body).idxOf []))) := by
  have hlt := List.idxOf_lt_length_iff.mpr hmem
  have hfull := not_mem_take_idxOf (fields body)
  have htake : (fields body).take ((fields body).idxOf [] + 1) =
      (fields body).take ((fields body).idxOf []) ++ [[]] := by
    rw [← List.take_append_getElem hlt, List.getElem_idxOf]
  have hlength : ((fields body).take ((fields body).idxOf [])).length = (fields body).idxOf [] := by
    rw [List.length_take]
    omega
  obtain hlast | ⟨u, v, he, hnext, hu⟩ := exists_field_end hbody hlt
  · refine ⟨body, final, [], rfl, by rw [hlast, List.take_length], by rw [if_neg (by omega)], ?_⟩
    rw [hlast, List.take_length] at htake
    have hsettles := settles_empty hbody htake hfull (.inr ⟨hfinal, fun hnil ↦ hblank ?_⟩)
    · rwa [hlength] at hsettles
    · rw [htake, hnil, List.nil_append]
  · refine ⟨u, 0x3b, v ++ [final], by rw [he]; simp, hu, by rw [if_pos hnext], ?_⟩
    have hsettles := @settles_empty u (fun b hb ↦ hbody b (by simp [he, hb])) _ (hu.trans htake) hfull
      0x3b (.inl rfl)
    rwa [hlength] at hsettles

/-- A parser reads a body of any length as the split of it at the semicolons. In strict reading the first empty
field is refused at the byte that ends it, unless there are no parameters at all. -/
theorem answers_of_body (hbody : ∀ b ∈ body, continues b = true) (hfinal : continues final = false) :
    ((strict = true → fields body = [[]] ∨ [] ∉ fields body) →
      Settles strict body final (.ok (ofBody body final))) ∧
    (strict = true → fields body ≠ [[]] → [] ∈ fields body →
      ∃ u c v, body ++ [final] = u ++ c :: v ∧
        fields u = (fields body).take ((fields body).idxOf [] + 1) ∧
        c = (if (fields body).idxOf [] + 1 < (fields body).length then 0x3b else final) ∧
        Settles true u c (.error (.missingParameter ((fields body).idxOf [])))) :=
  ⟨settles_complete hbody hfinal, fun _ ↦ settles_missing hbody hfinal⟩

theorem answers_of_body_of_blank_field :
    let body : List UInt8 := [0x31, 0x3b, 0x20, 0x3b, 0x3f, 0x32, 0x33]
    (∀ b ∈ body, continues b = true) ∧ continues 0x6d = false ∧
      Settles false body 0x6d (.ok ⟨[some 1, none, some 23], 0x6d, true⟩) ∧
      ∃ u c v, body ++ [0x6d] = u ++ c :: v ∧ fields u = [[0x31], []] ∧ c = 0x3b ∧
        Settles true u c (.error (.missingParameter 1)) := by
  intro body
  have hall : body.all continues = true := by decide
  have hbody : ∀ b ∈ body, continues b = true := List.all_eq_true.mp hall
  have hfinal : continues 0x6d = false := by decide
  have hmem : [] ∈ fields body := by decide
  refine ⟨hbody, hfinal, ?_, ?_⟩
  · obtain ⟨hcomplete, -⟩ := @answers_of_body false _ _ hbody hfinal
    exact hcomplete nofun
  · obtain ⟨-, hmissing⟩ := @answers_of_body true _ _ hbody hfinal
    exact hmissing rfl (by decide) hmem

end Partial

end TermCapture.Sequence
