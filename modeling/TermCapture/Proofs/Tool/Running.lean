import TermCapture.Grid.Json
import TermCapture.Proofs.Folder.Writing
import TermCapture.Proofs.Session.Reading
import TermCapture.Tool

namespace TermCapture.Tool

/-- An encoder has a document for every screen but those whose width does not fit into 64 bits. -/
structure Encodes (encode : Grid.Encoder) : Prop where
  refuses : ∀ (l : Grid.Options) (s : Screen), UInt64.size ≤ s.width → ∃ e, encode l s.grid = .error e
  serializes : ∀ (l : Grid.Options) (s : Screen), s.width < UInt64.size → ∃ text, encode l s.grid = .ok text

theorem encodes_json : Encodes Grid.json where
  refuses _ _ hw := ⟨_, if_pos hw⟩
  serializes _ _ hw := ⟨_, if_neg (Nat.not_le_of_lt hw)⟩

/-- What stops a run without an exit status: a number or a path that is blank, a character that is written behind
more blanks than can be asked for, and in JSON a screen whose width does not fit into 64 bits. -/
inductive Unhandled (o : Options) (input : Except FileError (List UInt8)) : Prop
  | number (hc : o.config = .error .blankNumber)
  | overflow {cfg : Config} {bs : List UInt8} (hc : o.config = .ok cfg) (hi : input = .ok bs)
      (hf : (cfg.decode bs).fault = some .overflow)
  | width {cfg : Config} {bs : List UInt8} (hc : o.config = .ok cfg) (hi : input = .ok bs)
      (hn : (cfg.decode bs).fault = none) (hf : o.format = .given .json) (hw : UInt64.size ≤ cfg.width)
  | path {cfg : Config} {bs : List UInt8} (hc : o.config = .ok cfg) (hi : input = .ok bs)
      (hn : (cfg.decode bs).fault = none) (hf : o.format ≠ .blank) (ho : o.output = some .blank)

/-- The text stands on the standard stream or in the file that was asked for, and nothing else has changed. -/
inductive Delivered (folder : Folder) (text : String) (r : Report) : Option (Setting String) → Prop
  | printed {output : Option (Setting String)} (ho : ∀ s ∈ output, s = .given standardStream)
      (hp : r.printed = text) (hf : r.folder = folder) : Delivered folder text r output
  | written {path : String} (ho : path ≠ standardStream) (hp : r.printed = "")
      (hf : folder.Written path text.toUTF8.toList r.folder) : Delivered folder text r (some (.given path))

/-- A run delivers the whole text that its input is converted to, or fails and leaves everything as it was. -/
inductive Clean (encode : Grid.Encoder) (o : Options) (stdin : List UInt8) (folder : Folder) (r : Report) : Prop
  | delivered {text : String} (hc : (convert encode o (readInput o stdin folder)).result = pure text)
      (hs : r.status = 0) (hd : Delivered folder text r o.output)
  | unconverted {f : Failure} (hc : (convert encode o (readInput o stdin folder)).result = throw f)
      (hs : r.status = 1) (hp : r.printed = "") (hf : r.folder = folder)
  | unwritable {text path : String} {e : FileError}
      (hc : (convert encode o (readInput o stdin folder)).result = pure text) (ho : o.output = some (.given path))
      (hne : path ≠ standardStream) (hw : folder.write path text.toUTF8.toList = .error e)
      (hs : r.status = 1) (hp : r.printed = "") (hf : r.folder = folder)

variable {encode : Grid.Encoder} {o : Options} {input : Except FileError (List UInt8)}

theorem document_cases (h : Encodes encode) (o : Options) (s : Screen) :
    (o.format = .blank ∧ document encode o s = throw .blankFormat) ∨
      (o.format = .given .json ∧ UInt64.size ≤ s.width ∧ ∃ a, document encode o s = ExceptT.lift (.error a)) ∨
      (o.format ≠ .blank ∧ ¬(o.format = .given .json ∧ UInt64.size ≤ s.width) ∧
        ∃ text, document encode o s = pure text) := by
  unfold document
  cases o.format with
  | blank => exact .inl ⟨rfl, rfl⟩
  | given format =>
    refine .inr ?_
    cases format with
    | html => exact .inr ⟨by simp, by simp, _, rfl⟩
    | text => exact .inr ⟨by simp, by simp, _, rfl⟩
    | json =>
      by_cases hw : UInt64.size ≤ s.width
      · obtain ⟨e, hjson⟩ := h.refuses {} s hw
        rw [hjson]
        exact .inl ⟨rfl, hw, _, rfl⟩
      · obtain ⟨text, hjson⟩ := h.serializes {} s (Nat.lt_of_not_le hw)
        rw [hjson]
        exact .inr ⟨by simp, fun h ↦ hw h.2, text, rfl⟩

/-- Every fault of a text is reported but one. -/
theorem refuse_cases {f : Fault} (h : f ≠ .noSuchLine) :
    (f = .overflow ∧ refuse f = ExceptT.lift (.error (.fault f))) ∨ (f ≠ .overflow ∧ refuse f = throw (.fault f)) := by
  cases f with
  | noSuchLine => exact absurd rfl h
  | overflow => exact .inl ⟨rfl, rfl⟩
  | _ => exact .inr ⟨nofun, rfl⟩

/-- Settings that can be used are stopped by their text or behind it, if at all. -/
theorem Unhandled.decoded (h : Unhandled o input) {cfg : Config} (hc : o.config = .ok cfg) :
    ∃ bs, input = .ok bs ∧ ∀ f, (cfg.decode bs).fault = some f → f = .overflow := by
  cases h with
  | number h => cases hc.symm.trans h
  | overflow h hi hf =>
    cases hc.symm.trans h
    exact ⟨_, hi, fun f hf' ↦ Option.some.inj (hf'.symm.trans hf)⟩
  | width h hi hn | path h hi hn =>
    cases hc.symm.trans h
    exact ⟨_, hi, fun f hf ↦ by cases hn.symm.trans hf⟩

theorem unhandled_iff {cfg : Config} {bs : List UInt8} (hc : o.config = .ok cfg)
    (hn : (cfg.decode bs).fault = none) : Unhandled o (.ok bs) ↔
      (o.format = .given .json ∧ UInt64.size ≤ cfg.width) ∨ (o.format ≠ .blank ∧ o.output = some .blank) := by
  constructor
  · rintro (h | ⟨h, ⟨⟩, hf⟩ | ⟨h, -, -, hf, hw⟩ | ⟨-, -, -, hf, ho⟩)
    · cases hc.symm.trans h
    · cases hc.symm.trans h
      cases hn.symm.trans hf
    · cases hc.symm.trans h
      exact .inl ⟨hf, hw⟩
    · exact .inr ⟨hf, ho⟩
  · rintro (⟨hf, hw⟩ | ⟨hf, ho⟩)
    · exact .width hc rfl hn hf hw
    · exact .path hc rfl hn hf ho

/-- An input is converted to a text or fails, unless the run does not get that far. -/
theorem convert_cases (h : Encodes encode) (o : Options) (input : Except FileError (List UInt8)) :
    (Unhandled o input ∧ ∃ a, (convert encode o input).result = ExceptT.lift (.error a)) ∨
      (¬Unhandled o input ∧ ∃ f, (convert encode o input).result = throw f) ∨
      ((Unhandled o input ↔ o.output = some .blank) ∧ ∃ text, (convert encode o input).result = pure text) := by
  unfold convert
  cases hc : o.config with
  | error e =>
    cases e with
    | blankNumber => exact .inl ⟨.number hc, _, rfl⟩
    | config e =>
      refine .inr (.inl ⟨?_, _, rfl⟩)
      rintro (h | h | h | h) <;> cases hc.symm.trans h
  | ok cfg =>
    cases input with
    | error e =>
      refine .inr (.inl ⟨fun h ↦ ?_, _, rfl⟩)
      obtain ⟨bs, hi, -⟩ := h.decoded hc
      cases hi
    | ok bs =>
      dsimp only
      cases hn : (cfg.decode bs).fault with
      | some f =>
        have hline : f ≠ .noSuchLine := by
          rintro rfl
          exact Session.decode_noSuchLine cfg bs hn
        obtain ⟨rfl, he⟩ | ⟨hf, he⟩ := refuse_cases hline
        · exact .inl ⟨.overflow hc rfl hn, _, he⟩
        · refine .inr (.inl ⟨fun h ↦ ?_, _, he⟩)
          obtain ⟨_, ⟨⟩, hover⟩ := h.decoded hc
          exact hf (hover f hn)
      | none =>
        have hwidth := (Session.decode_kept cfg bs).width_eq
        rw [unhandled_iff hc hn]
        obtain ⟨hf, he⟩ | ⟨hf, hw, a, he⟩ | ⟨hf, hw, text, he⟩ :=
          document_cases h o (cfg.decode bs).session.screen
        · refine .inr (.inl ⟨?_, _, he⟩)
          rintro (⟨h, -⟩ | ⟨h, -⟩)
          · cases hf.symm.trans h
          · exact h hf
        · exact .inl ⟨.inl ⟨hf, hwidth ▸ hw⟩, a, he⟩
        · rw [hwidth] at hw
          refine .inr (.inr ⟨?_, text, he⟩)
          constructor
          · rintro (h | ⟨-, h⟩)
            · exact absurd h hw
            · exact h
          · exact fun h ↦ .inr ⟨hf, h⟩

section

variable {stdin : List UInt8} {folder : Folder}

theorem runOptions_aborted {a : Abort}
    (h : (convert encode o (readInput o stdin folder)).result >>= deliver o folder = ExceptT.lift (.error a)) :
    runOptions encode o stdin folder = .error a := by
  unfold runOptions
  dsimp only
  rw [h]
  rfl

theorem runOptions_failed {f : Failure}
    (h : (convert encode o (readInput o stdin folder)).result >>= deliver o folder = throw f) :
    ∃ log, runOptions encode o stdin folder = .ok { status := 1, log := log, folder := folder } := by
  unfold runOptions
  dsimp only
  rw [h]
  exact ⟨_, rfl⟩

theorem runOptions_delivered {printed : String} {folder' : Folder}
    (h : (convert encode o (readInput o stdin folder)).result >>= deliver o folder = pure (printed, folder')) :
    ∃ log, runOptions encode o stdin folder = .ok { printed := printed, log := log, folder := folder' } := by
  unfold runOptions
  dsimp only
  rw [h]
  exact ⟨_, rfl⟩

/-- A text is delivered, or its file cannot be written. -/
theorem clean_of_text {text : String} (h : (convert encode o (readInput o stdin folder)).result = pure text)
    (ho : o.output ≠ some .blank) :
    ∃ r, runOptions encode o stdin folder = .ok r ∧ Clean encode o stdin folder r := by
  have hstream : deliver o folder text = pure (text, folder) → (∀ s ∈ o.output, s = .given standardStream) →
      ∃ r, runOptions encode o stdin folder = .ok r ∧ Clean encode o stdin folder r := by
    intro hd hs
    obtain ⟨log, he⟩ := runOptions_delivered (by rw [h, pure_bind, hd])
    exact ⟨_, he, .delivered h rfl (.printed hs rfl rfl)⟩
  cases hout : o.output with
  | none =>
    refine hstream ?_ (by simp [hout])
    rw [deliver, hout]
  | some s =>
    cases s with
    | blank => exact absurd hout ho
    | given path =>
      by_cases hpath : path = standardStream
      · refine hstream ?_ (by simp [hout, hpath])
        rw [deliver, hout]
        exact if_pos hpath
      · cases hw : folder.write path text.toUTF8.toList with
        | ok folder' =>
          have hd : deliver o folder text = pure ("", folder') := by
            rw [deliver, hout]
            dsimp only
            rw [if_neg hpath, hw]
          obtain ⟨log, he⟩ := runOptions_delivered (by rw [h, pure_bind, hd])
          refine ⟨_, he, .delivered h rfl ?_⟩
          rw [hout]
          exact .written hpath rfl (Folder.written_of_write hw)
        | error e =>
          have hd : deliver o folder text = throw (.file e) := by
            rw [deliver, hout]
            dsimp only
            rw [if_neg hpath, hw]
          obtain ⟨log, he⟩ := runOptions_failed (by rw [h, pure_bind, hd])
          exact ⟨_, he, .unwritable h hout hpath hw rfl rfl rfl⟩

end

/-- A run fails cleanly or delivers its whole text, unless it is stopped by what it does not handle. -/
theorem clean_iff (hencode : Encodes encode) (o : Options) (stdin : List UInt8) (folder : Folder) :
    (∃ r, runOptions encode o stdin folder = .ok r ∧ Clean encode o stdin folder r) ↔
      ¬Unhandled o (readInput o stdin folder) := by
  have habort : ∀ {a}, runOptions encode o stdin folder = .error a →
      ¬∃ r, runOptions encode o stdin folder = .ok r ∧ Clean encode o stdin folder r := by
    rintro a ha ⟨r, hr, -⟩
    cases ha.symm.trans hr
  obtain ⟨hu, a, h⟩ | ⟨hu, f, h⟩ | ⟨hu, text, h⟩ := convert_cases hencode o (readInput o stdin folder)
  · refine iff_of_false (habort (a := a) (runOptions_aborted ?_)) (not_not_intro hu)
    rw [h]
    rfl
  · refine iff_of_true ?_ hu
    obtain ⟨log, he⟩ := @runOptions_failed encode o stdin folder f (by rw [h]; rfl)
    exact ⟨_, he, .unconverted h rfl rfl rfl⟩
  · rw [hu]
    by_cases ho : o.output = some .blank
    · refine iff_of_false (habort (a := .blankPath) (runOptions_aborted ?_)) (not_not_intro ho)
      rw [h, pure_bind, deliver, ho]
    · exact iff_of_true (clean_of_text h ho) ho

/-- The widest screen that has a document. -/
theorem clean_iff_at_the_widest :
    let o : Options := { format := .given .json, width := .given 18446744073709551615 }
    Encodes Grid.json ∧ ¬Unhandled o (readInput o [0x61] ⟨[]⟩) ∧
      ∃ r, runOptions Grid.json o [0x61] ⟨[]⟩ = .ok r ∧ Clean Grid.json o [0x61] ⟨[]⟩ r := by
  intro o
  have hhandled : ¬Unhandled o (readInput o [0x61] ⟨[]⟩) := by
    have hinput : readInput o [0x61] ⟨[]⟩ = .ok [0x61] := rfl
    have hconfig : o.config = .ok (.ofLimits 18446744073709551615 false .cga (.page .cp437) .glyph
      .noLimit .noLimit .noLimit) := rfl
    rw [hinput, unhandled_iff hconfig (by decide +kernel)]
    rintro (⟨-, hw⟩ | ⟨-, ho⟩)
    · exact absurd hw (by decide +kernel)
    · cases ho
  exact ⟨encodes_json, hhandled, (clean_iff encodes_json o [0x61] ⟨[]⟩).mpr hhandled⟩

instance decidableEqExcept {α β : Type} [DecidableEq α] [DecidableEq β] : DecidableEq (Except α β)
  | .ok a, .ok b => decidable_of_iff (a = b) (Except.ok.injEq a b ▸ Iff.rfl)
  | .error a, .error b => decidable_of_iff (a = b) (Except.error.injEq a b ▸ Iff.rfl)
  | .ok _, .error _ | .error _, .ok _ => isFalse nofun

/-- A command line can ask for the first width that does not fit, and without any options a text can move the cursor
too far. -/
theorem aborts_at_wide_json :
    run .known Grid.json ["-f", "json", "-w", "18446744073709551616"] [0x61] ⟨[]⟩ =
        .error (.grid ⟨"Integer exceeds 64-bit range"⟩) ∧
      run .known Grid.json [] "\x1b[100000000000000000000Ca".toUTF8.toList ⟨[]⟩ = .error (.fault .overflow) := by
  decide +kernel

end TermCapture.Tool
