import TermCapture.Proofs.Charset.Decoding
import TermCapture.Proofs.Fault
import TermCapture.Proofs.Sequence.Answers

namespace TermCapture.Sequence

/-- The byte of a decimal digit. -/
def digitByte (d : Nat) : UInt8 := UInt8.ofNat (0x30 + d)

/-- The bytes of a number in base ten. -/
def numeral (n : Nat) : List UInt8 := (Text.digits 10 n).map fun c ↦ UInt8.ofNat c.toNat

section

variable {d : Nat}

theorem toNat_digitByte (h : d < 10) : (digitByte d).toNat = 0x30 + d := by
  simp only [digitByte, UInt8.toNat_ofNat']
  omega

theorem digitByte_range (h : d < 10) : 0x30 ≤ digitByte d ∧ digitByte d ≤ 0x39 := by
  have hd := toNat_digitByte h
  simp only [UInt8.le_iff_toNat_le, hd, UInt8.reduceToNat]
  omega

theorem exists_digitByte {b : UInt8} (h : 0x30 ≤ b ∧ b ≤ 0x39) : ∃ d < 10, b = digitByte d := by
  simp only [UInt8.le_iff_toNat_le, UInt8.reduceToNat] at h
  have hlt : b.toNat - 0x30 < 10 := by omega
  refine ⟨b.toNat - 0x30, hlt, UInt8.toNat_inj.mp ?_⟩
  have := toNat_digitByte hlt
  omega

theorem ofNat_digitChar (h : d < 10) : UInt8.ofNat d.digitChar.toNat = digitByte d := by
  simp only [Nat.toNat_digitChar_of_lt_ten h, digitByte]

end

theorem numeral_of_lt {d : Nat} (h : d < 10) : numeral d = [digitByte d] := by
  simp only [numeral, Text.digits, Nat.toDigits_of_lt_base h, List.map_cons, List.map_nil, ofNat_digitChar h]

theorem numeral_append {n d : Nat} (hn : 0 < n) (hd : d < 10) :
    numeral (10 * n + d) = numeral n ++ [digitByte d] := by
  have hsplit : Nat.toDigits 10 (10 * n + d) = Nat.toDigits 10 n ++ [d.digitChar] := by
    simp only [← Nat.toDigits_append_toDigits (by decide) hn hd, Nat.toDigits_of_lt_base hd]
  simp only [numeral, Text.digits, hsplit, List.map_append, List.map_cons, List.map_nil, ofNat_digitChar hd]

theorem codes_numeral (n : Nat) : (Text.digits 10 n).map Char.toNat = (numeral n).map UInt8.toNat := by
  simp only [numeral, List.map_map]
  apply List.map_congr_left
  intro c hc
  have hdigit := Nat.isDigit_of_mem_toDigits (by decide) (by decide) hc
  simp only [Char.isDigit, Bool.and_eq_true, decide_eq_true_eq, UInt32.le_iff_toNat_le] at hdigit
  have hcode : c.toNat ≤ 0x39 := hdigit.2
  simp only [Function.comp_apply, UInt8.toNat_ofNat']
  omega

/-- What holds of a single digit and is kept when a digit is appended holds of every numeral. -/
theorem numeral_induction {P : Nat → List UInt8 → Prop} (one : ∀ d < 10, P d [digitByte d])
    (more : ∀ n d, 0 < n → d < 10 → P n (numeral n) → P (10 * n + d) (numeral n ++ [digitByte d])) (n : Nat) :
    P n (numeral n) := by
  induction n using Nat.strong_induction_on with
  | _ n ih =>
    by_cases hn : n < 10
    · simpa only [numeral_of_lt hn] using one n hn
    · have hmod : n % 10 < 10 := Nat.mod_lt n (by decide)
      have hdiv : 0 < n / 10 := Nat.div_pos (by omega) (by decide)
      have hmore := more (n / 10) (n % 10) hdiv hmod (ih (n / 10) (by omega))
      simpa only [← numeral_append hdiv hmod, Nat.div_add_mod] using hmore

theorem numeral_ne_nil (n : Nat) : numeral n ≠ [] := by
  simpa only [numeral, ne_eq, List.map_eq_nil_iff, Text.digits] using Nat.toDigits_ne_nil

theorem digit_of_mem_numeral (n : Nat) : ∀ b ∈ numeral n, 0x30 ≤ b ∧ b ≤ 0x39 := by
  induction n using numeral_induction with
  | one d hd => simpa using digitByte_range hd
  | more n d hn hd ih =>
    intro b hb
    rcases List.mem_append.mp hb with hb | hb
    · exact ih b hb
    · rcases List.mem_singleton.mp hb with rfl
      exact digitByte_range hd

theorem decimal_concat (field : List UInt8) (b : UInt8) :
    decimal (field ++ [b]) = decimal field * 10 + (b.toNat - 0x30) := by
  simp only [decimal, List.foldl_append, List.foldl_cons, List.foldl_nil]

/-- A numeral is read as its number. -/
theorem decimal_numeral (n : Nat) : decimal (numeral n) = n := by
  induction n using numeral_induction with
  | one d hd => simp [decimal, toNat_digitByte hd]
  | more n d hn hd ih =>
    simp only [decimal_concat, ih, toNat_digitByte hd]
    omega

theorem numeral_leading_zero (n : Nat) (h : (numeral n).head? = some 0x30) : numeral n = [0x30] := by
  have hzero : ∀ d < 10, digitByte d = 0x30 → d = 0 := by decide
  have hhead : 0 < n → (numeral n).head? ≠ some 0x30 := by
    clear h
    induction n using numeral_induction with
    | one d hd =>
      intro hpos h
      have := hzero d hd (Option.some.inj h)
      omega
    | more n d hn hd ih =>
      intro _
      simpa only [List.head?_append_of_ne_nil _ (numeral_ne_nil n)] using ih hn
  rcases Nat.eq_zero_or_pos n with rfl | hpos
  · rfl
  · exact absurd h (hhead hpos)

/-- Digits that are written as a numeral is: without a zero in front, unless it is the only one. -/
structure Plain (field : List UInt8) : Prop where
  digits : ∀ b ∈ field, 0x30 ≤ b ∧ b ≤ 0x39
  leading_zero : field.head? = some 0x30 → field = [0x30]

theorem plain_numeral (n : Nat) : Plain (numeral n) := ⟨digit_of_mem_numeral n, numeral_leading_zero n⟩

theorem Plain.head_ne {field : List UInt8} {b : UInt8} (h : Plain (field ++ [b])) (hne : field ≠ []) :
    field.head? ≠ some 0x30 := by
  intro hzero
  have hone := congrArg List.length (h.leading_zero (by rwa [List.head?_append_of_ne_nil _ hne]))
  simp only [List.length_append, List.length_singleton] at hone
  have := List.length_pos_iff.mpr hne
  omega

/-- The plain digits of a number are its numeral. -/
theorem Plain.numeral_decimal {field : List UInt8} (h : Plain field) (hne : field ≠ []) :
    numeral (decimal field) = field := by
  -- digits are taken off the end, so what is left begins with the same digit, which is no zero
  induction field using List.reverseRecOn with
  | nil => exact absurd rfl hne
  | append_singleton field b ih =>
    obtain ⟨d, hd, rfl⟩ := exists_digitByte (h.digits b (by simp))
    have hvalue : decimal (field ++ [digitByte d]) = 10 * decimal field + d := by
      have := toNat_digitByte hd
      simp only [decimal_concat]
      omega
    by_cases hnil : field = []
    · have hzero : decimal field = 0 := by simp only [hnil, decimal, List.foldl_nil]
      have hsingle : decimal (field ++ [digitByte d]) = d := by omega
      rw [hsingle, numeral_of_lt hd, hnil, List.nil_append]
    · have hhead := h.head_ne hnil
      have hprefix : numeral (decimal field) = field :=
        ih ⟨fun c hc ↦ h.digits c (List.mem_append_left _ hc), fun hzero ↦ absurd hzero hhead⟩ hnil
      have hpos : 0 < decimal field := by
        apply Nat.pos_of_ne_zero
        intro hzero
        rw [hzero] at hprefix
        exact hhead (congrArg List.head? hprefix.symm)
      simp only [hvalue, numeral_append hpos hd, hprefix]

/-- How a parameter is printed. An omitted one has no digits. -/
def printed : Option Int → List UInt8
  | some n => numeral n.toNat
  | none => []

theorem plain_printed (v : Option Int) : Plain (printed v) := by
  cases v with
  | none => exact ⟨by simp [printed], by simp [printed]⟩
  | some n => exact plain_numeral n.toNat

theorem printed_eq_nil_iff (v : Option Int) : printed v = [] ↔ v = none := by
  cases v with
  | none => simp [printed]
  | some n => simp [printed, numeral_ne_nil]

theorem parameter_printed {v : Option Int} (h : ∀ n ∈ v, 0 ≤ n) : parameter (printed v) = v := by
  cases v with
  | none => rfl
  | some n =>
    have hn : (n.toNat : Int) = n := Int.toNat_of_nonneg (h n rfl)
    simp only [printed, parameter, numeral_ne_nil, if_false, decimal_numeral, hn]

theorem Plain.printed_parameter {field : List UInt8} (h : Plain field) : printed (parameter field) = field := by
  by_cases hnil : field = []
  · simp [hnil, parameter, printed]
  · simpa [parameter, printed, hnil] using h.numeral_decimal hnil

/-- Without spaces and markers, nothing of a body is skipped. -/
theorem fields_of_bare {body : List UInt8} (hspace : 0x20 ∉ body) (hmarker : 0x3f ∉ body) :
    fields body = body.splitOn 0x3b := by
  have hfilter : body.filter (fun b ↦ b != 0x20 && b != 0x3f) = body := by
    apply List.filter_eq_self.mpr
    intro b hb
    have hne : b ≠ 0x20 ∧ b ≠ 0x3f := ⟨fun he ↦ hspace (he ▸ hb), fun he ↦ hmarker (he ▸ hb)⟩
    simp [hne]
  simp only [fields, hfilter]

/-- A body of the given fields, with the private marker in front of them. -/
def bodyOf (isPrivate : Bool) (fs : List (List UInt8)) : List UInt8 :=
  (if isPrivate then [0x3f] else []) ++ [0x3b].intercalate fs

/-- The body of a sequence as it is printed. -/
def body (q : Sequence) : List UInt8 := bodyOf q.isPrivate (q.params.map printed)

section

variable {fs : List (List UInt8)} (hfs : ∀ f ∈ fs, ∀ b ∈ f, 0x30 ≤ b ∧ b ≤ 0x39)

include hfs

theorem mem_intercalate {b : UInt8} (hb : b ∈ [0x3b].intercalate fs) : (0x30 ≤ b ∧ b ≤ 0x39) ∨ b = 0x3b := by
  induction fs with
  | nil => simp at hb
  | cons f fs ih =>
    cases fs with
    | nil => exact .inl (hfs f (by simp) b (by simpa using hb))
    | cons g fs =>
      simp only [List.intercalate_cons_cons, List.append_assoc, List.mem_append, List.mem_singleton] at hb
      rcases hb with hb | hb | hb
      · exact .inl (hfs f List.mem_cons_self b hb)
      · exact .inr hb
      · exact ih (fun f hf ↦ hfs f (List.mem_cons_of_mem _ hf)) hb

theorem not_mem_intercalate {b : UInt8} (hb : b = 0x20 ∨ b = 0x3f) : b ∉ [0x3b].intercalate fs := by
  intro hmem
  rcases mem_intercalate hfs hmem with hd | rfl
  · rcases hb with rfl | rfl
    all_goals exact absurd hd (by decide)
  · exact absurd hb (by decide)

theorem fields_bodyOf (isPrivate : Bool) : fields (bodyOf isPrivate fs) = if fs = [] then [[]] else fs := by
  have hmarker : fields (bodyOf isPrivate fs) = fields ([0x3b].intercalate fs) := by
    cases isPrivate with
    | false => rfl
    | true => exact fields_skipped (.inr rfl) _
  have hspace := not_mem_intercalate hfs (.inl rfl)
  have hquestion := not_mem_intercalate hfs (.inr rfl)
  simp only [hmarker, fields_of_bare hspace hquestion]
  split_ifs with hnil
  · simp [hnil]
  · apply List.splitOn_intercalate _ _ hnil
    intro f hf hmem
    exact absurd (hfs f hf _ hmem) (by decide)

theorem contains_bodyOf (isPrivate : Bool) : (bodyOf isPrivate fs).contains 0x3f = isPrivate := by
  have hnot := not_mem_intercalate hfs (.inr rfl)
  cases isPrivate with
  | false => simpa [bodyOf] using hnot
  | true => simp [bodyOf]

end

/-- A body in the form that is printed: a private marker in front or nowhere, no spaces, and no zeros in front of
other digits. -/
structure Canonical (body : List UInt8) : Prop where
  goes_on : ∀ b ∈ body, continues b = true
  marker : 0x3f ∉ body.tail
  space : 0x20 ∉ body
  leading_zero : ∀ f ∈ fields body, f.head? = some 0x30 → f = [0x30]

theorem digit_of_mem_fields {body : List UInt8} (hbody : ∀ b ∈ body, continues b = true) :
    ∀ f ∈ fields body, ∀ b ∈ f, 0x30 ≤ b ∧ b ≤ 0x39 := by
  induction body with
  | nil =>
    intro f hf
    obtain rfl : f = [] := by simpa [fields] using hf
    simp
  | cons c body ih =>
    have hrest := ih fun b hb ↦ hbody b (List.mem_cons_of_mem c hb)
    rcases continues_iff.mp (hbody c List.mem_cons_self) with hd | rfl | hskipped
    · simp only [fields_digit hd]
      cases hfields : fields body with
      | nil => exact absurd hfields (fields_ne_nil body)
      | cons f fs =>
        simp only [hfields, List.mem_cons, forall_eq_or_imp] at hrest
        simp only [List.modifyHead_cons, List.mem_cons, forall_eq_or_imp]
        exact ⟨⟨hd, hrest.1⟩, hrest.2⟩
    · simpa [fields_semicolon] using hrest
    · simpa only [fields_skipped hskipped.symm] using hrest

namespace Canonical

variable {body : List UInt8}

theorem plain (h : Canonical body) {f : List UInt8} (hf : f ∈ fields body) : Plain f :=
  ⟨digit_of_mem_fields h.goes_on f hf, h.leading_zero f hf⟩

/-- Its marker and its fields are all there is in a canonical body. -/
theorem eq_bodyOf (h : Canonical body) : body = bodyOf (body.contains 0x3f) (fields body) := by
  have hbare : ∀ bs : List UInt8, 0x20 ∉ bs → 0x3f ∉ bs → [0x3b].intercalate (fields bs) = bs := by
    intro bs hspace hmarker
    simp only [fields_of_bare hspace hmarker, List.intercalate_splitOn]
  by_cases hmarker : 0x3f ∈ body
  · cases body with
    | nil => simp at hmarker
    | cons b body =>
      obtain rfl : 0x3f = b := (List.mem_cons.mp hmarker).resolve_right h.marker
      have hrest := hbare body (fun hb ↦ h.space (List.mem_cons_of_mem _ hb)) h.marker
      simp [bodyOf, fields_skipped, hrest]
  · have hrest := hbare body h.space hmarker
    simp [bodyOf, hmarker, hrest]

end Canonical

/-- The sequences that a permissive parser makes. Parameters are never negative, and a single omitted one is none. -/
structure Readable (q : Sequence) : Prop where
  final : continues q.final = false
  params : q.params ≠ [none]
  nonneg : ∀ n, some n ∈ q.params → 0 ≤ n

theorem readable_ofBody (body : List UInt8) {final : UInt8} (h : continues final = false) :
    Readable (ofBody body final) := by
  refine ⟨h, ?_, fun n hn ↦ ofBody_nonneg hn⟩
  intro hnone
  by_cases hblank : fields body = [[]]
  · simp [ofBody, hblank] at hnone
  · simp only [ofBody, hblank, if_false] at hnone
    obtain ⟨f, hf, hmissing⟩ := List.map_eq_singleton_iff.mp hnone
    exact hblank (by simp only [hf, (parameter_eq_none_iff f).mp hmissing])

section

variable {q : Sequence}

theorem digit_of_mem_printed (q : Sequence) : ∀ f ∈ q.params.map printed, ∀ b ∈ f, 0x30 ≤ b ∧ b ≤ 0x39 := by
  intro f hf
  obtain ⟨v, -, rfl⟩ := List.mem_map.mp hf
  exact (plain_printed v).digits

theorem fields_body (q : Sequence) : fields q.body = if q.params = [] then [[]] else q.params.map printed := by
  have h := fields_bodyOf (digit_of_mem_printed q) q.isPrivate
  simp only [List.map_eq_nil_iff] at h
  exact h

theorem canonical_body (q : Sequence) : Canonical q.body := by
  have hdigits := digit_of_mem_printed q
  have hspace := not_mem_intercalate hdigits (.inl rfl)
  have hmarker := not_mem_intercalate hdigits (.inr rfl)
  have hcontinues : ∀ b ∈ [0x3b].intercalate (q.params.map printed), continues b = true := by
    intro b hb
    rcases mem_intercalate hdigits hb with hd | hsemicolon
    · exact continues_iff.mpr (.inl hd)
    · exact continues_iff.mpr (.inr (.inl hsemicolon))
  have hplain : ∀ f ∈ fields q.body, f.head? = some 0x30 → f = [0x30] := by
    intro f hf
    simp only [fields_body] at hf
    split_ifs at hf
    · obtain rfl : f = [] := by simpa using hf
      simp
    · obtain ⟨v, -, rfl⟩ := List.mem_map.mp hf
      exact (plain_printed v).leading_zero
  cases hprivate : q.isPrivate with
  | false =>
    have hbody : q.body = [0x3b].intercalate (q.params.map printed) := by simp [body, bodyOf, hprivate]
    simp only [← hbody] at hspace hmarker hcontinues
    exact ⟨hcontinues, fun hmem ↦ hmarker (List.mem_of_mem_tail hmem), hspace, hplain⟩
  | true =>
    have hbody : q.body = 0x3f :: [0x3b].intercalate (q.params.map printed) := by simp [body, bodyOf, hprivate]
    refine ⟨?_, ?_, ?_, hplain⟩
    · simpa [hbody, continues_iff] using hcontinues
    · simpa [hbody] using hmarker
    · simpa [hbody] using hspace

/-- The printed body is read as the sequence. -/
theorem Readable.ofBody_body (h : Readable q) : ofBody q.body q.final = q := by
  have hprivate : q.body.contains 0x3f = q.isPrivate := contains_bodyOf (digit_of_mem_printed q) q.isPrivate
  have hparams : (if fields q.body = [[]] then [] else (fields q.body).map parameter) = q.params := by
    by_cases hnil : q.params = []
    · simp [fields_body, hnil]
    · have hblank : q.params.map printed ≠ [[]] := by
        intro hblank
        obtain ⟨v, hv, hempty⟩ := List.map_eq_singleton_iff.mp hblank
        exact h.params (by simp only [hv, (printed_eq_nil_iff v).mp hempty])
      have hread : ∀ v ∈ q.params, parameter (printed v) = v := by
        intro v hv
        exact parameter_printed fun n hn ↦ h.nonneg n (hn ▸ hv)
      simp only [fields_body, hnil, if_false, hblank, List.map_map]
      exact (List.map_congr_left hread).trans (List.map_id _)
  cases q
  simp only [ofBody, hprivate, hparams]

/-- Printing leaves a canonical body as it is. -/
theorem Canonical.body_ofBody {bs : List UInt8} (h : Canonical bs) (final : UInt8) : (ofBody bs final).body = bs := by
  have hfields : [0x3b].intercalate ((ofBody bs final).params.map printed) = [0x3b].intercalate (fields bs) := by
    by_cases hblank : fields bs = [[]]
    · simp [ofBody, hblank]
    · have hprinted : ∀ f ∈ fields bs, printed (parameter f) = f := fun f hf ↦ (h.plain hf).printed_parameter
      simp only [ofBody, hblank, if_false, List.map_map]
      exact congrArg _ ((List.map_congr_left hprinted).trans (List.map_id _))
  calc
    (ofBody bs final).body = bodyOf (bs.contains 0x3f) (fields bs) := by
      simp only [body, bodyOf, hfields]
      rfl
    _ = bs := h.eq_bodyOf.symm

theorem map_intercalate {α β : Type} (f : α → β) (sep : List α) (ls : List (List α)) :
    (sep.intercalate ls).map f = (sep.map f).intercalate (ls.map (List.map f)) := by
  induction ls with
  | nil => rfl
  | cons l ls ih =>
    cases ls with
    | nil => simp
    | cons m ls => simpa [List.intercalate_cons_cons] using ih

theorem isSome_text? (q : Sequence) : q.text?.isSome ↔ q.params.Writable := by
  rw [text?, Option.isSome_map, Params.isSome_text?]

/-- The text of a sequence is an introducer and the characters whose codes are the printed body and the final byte. -/
theorem Readable.text_codes (h : Readable q) {t : String} (ht : q.text? = some t) :
    t.toList.take 4 = "ESC[".toList ∧
      (t.toList.drop 4).map Char.toNat = (q.body ++ [q.final]).map UInt8.toNat := by
  have hwritable : q.params.Writable := q.isSome_text?.mp (by rw [ht]; rfl)
  have hparam : ∀ v ∈ q.params, ((match v with | some n => Text.decimal n | none => "").toList).map Char.toNat =
      (printed v).map UInt8.toNat := by
    intro v hv
    cases v with
    | none => rfl
    | some n =>
      have hn : ¬n < 0 := Int.not_lt.mpr (h.nonneg n hv)
      have habs : n.natAbs = n.toNat := by omega
      simp only [Text.decimal, hn, if_false, String.toList_ofList, habs, printed, codes_numeral]
  obtain ⟨params, hparams, rfl⟩ := Option.map_eq_some_iff.mp ht
  have hcodes : params.toList.map Char.toNat = ([0x3b].intercalate (q.params.map printed)).map UInt8.toNat := by
    rw [Params.text?_of_writable hwritable] at hparams
    rw [← Option.some.inj hparams]
    simp only [String.toList_intercalate, map_intercalate, List.map_map]
    exact congrArg _ (List.map_congr_left hparam)
  have hfinal : (Char.ofNat q.final.toNat).toNat = q.final.toNat := by
    have := q.final.toNat_lt
    exact Utf8.toNat_ofNat (.inl (by omega))
  have htext : ("ESC[" ++ (if q.isPrivate then "?" else "") ++ params ++
      String.singleton (Char.ofNat q.final.toNat)).toList =
      "ESC[".toList ++ ((if q.isPrivate then "?" else "").toList ++ params.toList ++
        [Char.ofNat q.final.toNat]) := by
    simp
  have hlength : "ESC[".toList.length = 4 := rfl
  simp only [htext, ← hlength, List.take_left, List.drop_left, true_and, List.map_append, hcodes, body, bodyOf,
    List.map_cons, hfinal, List.map_nil, List.append_cancel_right_eq]
  cases q.isPrivate with
  | false => rfl
  | true => rfl

end

namespace Partial

/-- A permissive parser is what the bytes of a body make of a new one. -/
def Begun (p : Partial) : Prop := ∃ body : List UInt8, (∀ b ∈ body, continues b = true) ∧ p = body.foldl extend {}

theorem begun_empty : Begun {} := ⟨[], by simp, rfl⟩

variable {maxLength : Option Int}

theorem Begun.push {p : Partial} (h : Begun p) (b : UInt8) :
    Begun (p.push false maxLength b).parser ∧
      ∀ q, (p.push false maxLength b).answer = some (.ok q) → Readable q := by
  obtain ⟨body, hbody, rfl⟩ := h
  by_cases hroom : ∀ n ∈ maxLength, ((body.foldl extend {}).length : Int) < n
  · cases hb : continues b with
    | true =>
      simp only [push_continues _ hroom hb, Progress.parser, Progress.answer]
      refine ⟨⟨body ++ [b], ?_, by simp⟩, by simp⟩
      intro c hc
      rcases List.mem_append.mp hc with hc | hc
      · exact hbody c hc
      · exact List.mem_singleton.mp hc ▸ hb
    | false =>
      simp only [push_final _ hroom hb, complete_extend hbody, Progress.parser, Progress.answer]
      refine ⟨begun_empty, fun q hq ↦ ?_⟩
      obtain rfl : ofBody body b = q := by simpa using hq
      exact readable_ofBody body hb
  · obtain ⟨n, hn, hlong⟩ : ∃ n ∈ maxLength, n ≤ ((body.foldl extend {}).length : Int) := by
      simpa using hroom
    simp only [push_tooLong _ false hn hlong, Progress.parser, Progress.answer]
    exact ⟨begun_empty, by simp⟩

theorem Begun.readable {p : Partial} (h : Begun p) {bytes : List UInt8} {q : Sequence}
    (hq : some (.ok q) ∈ (pushAll false maxLength bytes p).1) : Readable q := by
  induction bytes generalizing p with
  | nil => simp [pushAll] at hq
  | cons b bytes ih =>
    obtain ⟨hparser, hanswer⟩ := @Begun.push maxLength p h b
    simp only [pushAll, List.mem_cons] at hq
    rcases hq with hq | hq
    · exact hanswer q hq.symm
    · exact ih hparser hq

end Partial

open Partial

/-- A permissive parser answers one of some bytes with the sequence. -/
def Returned (q : Sequence) : Prop :=
  ∃ (maxLength : Option Int) (bytes : List UInt8), some (.ok q) ∈ (pushAll false maxLength bytes {}).1

theorem Readable.settles {q : Sequence} (h : Readable q) : Settles false q.body q.final (.ok q) := by
  have hsettles : Settles false q.body q.final (.ok (ofBody q.body q.final)) :=
    settles_complete (canonical_body q).goes_on h.final nofun
  simpa only [h.ofBody_body] using hsettles

theorem returned_iff (q : Sequence) : Returned q ↔ Readable q := by
  constructor
  · rintro ⟨maxLength, bytes, hq⟩
    exact begun_empty.readable hq
  · intro h
    refine ⟨none, q.body ++ [q.final], ?_⟩
    simp only [h.settles.within none nofun]
    simp

/-- A canonical body is printed again as it is, so a sequence that it is read as has no other one. -/
theorem Canonical.eq_body {q : Sequence} {bs : List UInt8} (h : Canonical bs) (hfinal : continues q.final = false)
    (hread : some (.ok q) ∈ (pushAll false none (bs ++ [q.final]) {}).1) : bs = q.body := by
  have hsettles : Settles false bs q.final (.ok (ofBody bs q.final)) := settles_complete h.goes_on hfinal nofun
  simp only [hsettles.within none nofun, List.mem_append, List.mem_replicate, reduceCtorEq, and_false, false_or,
    List.mem_singleton, Option.some.injEq, Except.ok.injEq] at hread
  have hprinted := h.body_ofBody q.final
  simp only [← hread] at hprinted
  exact hprinted.symm

/-- Readable sequences of one text are one sequence. -/
theorem Readable.eq_of_text {q q' : Sequence} (h : Readable q) (h' : Readable q') {t : String} (ht : q.text? = some t)
    (ht' : q'.text? = some t) : q' = q := by
  have hcodes := (h.text_codes ht).2
  have hcodes' := (h'.text_codes ht').2
  have hbytes : q'.body ++ [q'.final] = q.body ++ [q.final] := by
    apply List.map_injective_iff.mpr (fun a b ↦ UInt8.toNat_inj.mp)
    simp only [← hcodes', ← hcodes]
  obtain ⟨hbody, hfinals⟩ := List.append_inj' hbytes rfl
  have hfinal : q'.final = q.final := (List.cons.inj hfinals).1
  calc
    q' = ofBody q'.body q'.final := h'.ofBody_body.symm
    _ = ofBody q.body q.final := by simp only [hbody, hfinal]
    _ = q := h.ofBody_body

/-- What is printed is read as the sequence that it is printed from. It is in canonical form, the only such form of
that sequence, and no other sequence has the same text. What is not printed is a sequence with a parameter of too many
digits. -/
theorem text_faithful {q : Sequence} (hq : Returned q) :
    (¬q.params.Writable → q.text? = none) ∧
    (q.params.Writable → ∃ text body, q.text? = some text ∧ text.toList.take 4 = "ESC[".toList ∧
      (text.toList.drop 4).map Char.toNat = (body ++ [q.final]).map UInt8.toNat ∧
      pushAll false none (body ++ [q.final]) {} = (List.replicate body.length none ++ [some (.ok q)], {}) ∧
      Canonical body ∧
      (∀ bs, Canonical bs → some (.ok q) ∈ (pushAll false none (bs ++ [q.final]) {}).1 → bs = body) ∧
      ∀ q', Returned q' → q'.text? = some text → q' = q) := by
  have hreadable := (returned_iff q).mp hq
  constructor
  · intro hlong
    rwa [← q.isSome_text?, Option.not_isSome_iff_eq_none] at hlong
  · intro hshort
    obtain ⟨t, ht⟩ := Option.isSome_iff_exists.mp (q.isSome_text?.mpr hshort)
    obtain ⟨hintro, hcodes⟩ := hreadable.text_codes ht
    refine ⟨t, q.body, ht, hintro, hcodes, hreadable.settles.within none nofun, canonical_body q, ?_, ?_⟩
    · intro bs hbs hread
      exact hbs.eq_body hreadable.final hread
    · intro q' hq' htext
      exact hreadable.eq_of_text ((returned_iff q').mp hq') ht htext

/-- An omitted parameter, a marker behind it and a number with a zero in front, read and printed. -/
theorem text_faithful_of_loose_body :
    let q : Sequence := ⟨[none, some 7], 0x48, true⟩
    some (.ok q) ∈ (pushAll false (some 6) [0x3b, 0x20, 0x3f, 0x30, 0x37, 0x48] {}).1 ∧ q.params.Writable ∧
      q.text? = some "ESC[?;7H" ∧
      pushAll false none [0x3f, 0x3b, 0x37, 0x48] {} = ([none, none, none, some (.ok q)], {}) ∧
      ∀ q', Returned q' → q'.text? = some "ESC[?;7H" → q' = q := by
  intro q
  have hanswer : some (.ok q) ∈ (pushAll false (some 6) [0x3b, 0x20, 0x3f, 0x30, 0x37, 0x48] {}).1 := by decide
  have htext : q.text? = some "ESC[?;7H" := by decide +kernel
  have hshort : q.params.Writable := q.isSome_text?.mp (by rw [htext]; rfl)
  obtain ⟨-, hprinted⟩ := text_faithful ⟨some 6, _, hanswer⟩
  obtain ⟨text, body, ht, -, hcodes, hread, -, -, hunique⟩ := hprinted hshort
  obtain rfl : "ESC[?;7H" = text := Option.some.inj (htext.symm.trans ht)
  have hbytes : body ++ [q.final] = [0x3f, 0x3b, 0x37] ++ [q.final] := by
    apply List.map_injective_iff.mpr (fun a b ↦ UInt8.toNat_inj.mp)
    simp only [← hcodes]
    decide
  obtain rfl : body = [0x3f, 0x3b, 0x37] := List.append_cancel_right hbytes
  exact ⟨hanswer, hshort, htext, hread, hunique⟩

/-- The number with a one and 4300 zeros is read, and is not printed. -/
theorem text?_eq_none_of_many_digits :
    let q : Sequence := ⟨[some (Nat.pow 10 4300)], 0x6d, false⟩
    pushAll false none (q.body ++ [0x6d]) {} = (List.replicate q.body.length none ++ [some (.ok q)], {}) ∧
      q.text? = none := by
  intro q
  have hreadable : Readable q := by
    refine ⟨by decide, nofun, fun n hn ↦ ?_⟩
    obtain rfl : n = Nat.pow 10 4300 := Option.some.inj (List.mem_singleton.mp hn)
    exact Int.natCast_nonneg _
  have hlong : ¬q.params.Writable := fun h ↦ absurd (h (Nat.pow 10 4300) List.mem_cons_self) (by decide +kernel)
  refine ⟨hreadable.settles.within none nofun, ?_⟩
  rwa [← q.isSome_text?, Option.not_isSome_iff_eq_none] at hlong

end TermCapture.Sequence
