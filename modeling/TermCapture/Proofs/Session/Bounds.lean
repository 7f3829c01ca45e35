import TermCapture.Proofs.Screen.Bounds
import TermCapture.Proofs.Session.Steps

namespace TermCapture

namespace Config

abbrev Bounded (cfg : Config) : Screen → Prop :=
  Screen.Bounded cfg.width (cfg.maxLines.map Int.ofNat) (cfg.maxColumns.map Int.ofNat)

abbrev Ready (cfg : Config) : Screen → Prop :=
  Screen.Ready cfg.width (cfg.maxLines.map Int.ofNat) (cfg.maxColumns.map Int.ofNat)

abbrev Safe (cfg : Config) : Outcome Screen → Prop :=
  Screen.Safe cfg.width (cfg.maxLines.map Int.ofNat) (cfg.maxColumns.map Int.ofNat)

/-- The line limit is short enough to be named where it is exceeded. -/
def NamesLimit (cfg : Config) : Prop := ∀ n ∈ cfg.maxLines, Text.Writable n

theorem NamesLimit.writable {cfg : Config} (h : cfg.NamesLimit) : ∀ k ∈ cfg.maxLines.map Int.ofNat, Text.Writable k := by
  intro k hk
  obtain ⟨n, hn, rfl⟩ := Option.map_eq_some_iff.mp hk
  exact h n hn

theorem namesLimit_of_writable {cfg : Config} {k : Int} (hk : k ∈ cfg.maxLines.map Int.ofNat) (hw : Text.Writable k) :
    cfg.NamesLimit := by
  intro n hn
  have hnk : (n : Int) = k := Option.mem_unique (Option.mem_map_of_mem Int.ofNat hn) hk
  rwa [hnk]

end Config

/-- A fault that stands for a line limit that has too many digits. -/
def Fault.Unnamed (f : Fault) : Prop := ∃ n, f = .wordless (.lineLimit n)

/-- A step keeps the limits, and the screen is ready for more unless the session is over or the step
ran into the line limit, which is about to end it. -/
structure Step.Safe (cfg : Config) (r : Step) : Prop where
  bounded : cfg.Bounded r.session.screen
  noSuchLine : r.fault ≠ some .noSuchLine
  unnamed : ∀ f, r.fault = some f → f.Unnamed → ¬cfg.NamesLimit
  ready : (∀ n, r.fault ≠ some (Fault.lineLimit n).raised) → r.session.finished = false → cfg.Ready r.session.screen

theorem Config.Safe.unnamed {cfg : Config} {o : Outcome Screen} (h : cfg.Safe o) :
    ∀ f, o.fault = some f → f.Unnamed → ¬cfg.NamesLimit := by
  rintro _ hf ⟨n, rfl⟩ hnames
  obtain ⟨k, hk, hlong⟩ := Screen.Safe.unnamed h n hf
  exact hlong (hnames.writable k hk)

namespace Session

variable {cfg : Config}

structure Bounded (cfg : Config) (s : Session) : Prop where
  bounded : cfg.Bounded s.screen
  ready : s.finished = false → cfg.Ready s.screen

theorem start_bounded (cfg : Config) : (start cfg).Bounded cfg := by
  have hL : ∀ n ∈ cfg.maxLines.map Int.ofNat, 0 < n := by
    intro n hn
    obtain ⟨k, hk, rfl⟩ := Option.map_eq_some_iff.mp hn
    exact Int.ofNat_lt.mpr (cfg.maxLines_pos k hk)
  have hw : Screen.widthOf cfg.width = cfg.width := by
    have := cfg.width_pos
    rw [Screen.widthOf, if_neg (by omega), Int.toNat_natCast]
  have hr : Screen.Ready _ _ (cfg.maxColumns.map Int.ofNat) _ :=
    Screen.empty_ready (Config.widthOf_pos cfg.width) hL
  rw [hw] at hr
  exact ⟨hr.toBounded, fun _ ↦ hr⟩

theorem safe_of_ready {s : Session} (h : cfg.Ready s.screen) (notes : List Note) :
    Step.Safe cfg ⟨s, none, notes⟩ :=
  ⟨h.toBounded, by simp, by simp, fun _ _ ↦ h⟩

theorem report_safe {s : Session} (h : cfg.Ready s.screen) {f : Fault} (hf : f.isOfInput = true) :
    Step.Safe cfg (s.report cfg f) := by
  rw [report]
  split
  · refine ⟨h.toBounded, ?_, ?_, fun _ _ ↦ h⟩
    · rintro ⟨⟩
      cases hf
    · rintro _ ⟨⟩ ⟨n, rfl⟩
      cases hf
  · exact safe_of_ready h _

theorem onScreen_safe {s : Session} {f : Screen → Outcome Screen} (h : cfg.Safe (f s.screen)) :
    Step.Safe cfg (s.onScreen f) :=
  ⟨h.bounded, h.noSuchLine, Config.Safe.unnamed h, fun hn _ ↦ h.ready hn⟩

theorem put_safe {s : Session} (h : cfg.Ready s.screen) (b : UInt8) : Step.Safe cfg (s.put cfg b) := by
  rw [put_eq]
  exact onScreen_safe (h.writeAll _ _)

theorem close_safe {s : Session} (h : s.Bounded cfg) : Step.Safe cfg (s.close cfg) := by
  have hw : s.finished = false → cfg.Safe (s.flushed cfg) := fun hf ↦ (h.ready hf).writeAll _ _
  obtain hf | ⟨hf, f, ho, hc⟩ | ⟨hf, hc⟩ := close_cases cfg s
  · rw [close_finished hf]
    exact ⟨h.bounded, by simp, by simp, fun _ hn ↦ h.ready hn⟩
  · rw [close_stopped hf ho hc, ← ho]
    exact ⟨(hw hf).bounded, (hw hf).noSuchLine, Config.Safe.unnamed (hw hf), fun hn _ ↦ (hw hf).ready hn⟩
  · rw [close_done hf hc]
    exact ⟨(hw hf).bounded, by simp, by simp, by simp⟩

theorem control_safe {s : Session} (h : cfg.Ready s.screen) (b : UInt8) :
    Step.Safe cfg (s.control cfg b) := by
  rw [control]
  split_ifs
  · exact safe_of_ready h _
  · exact onScreen_safe h.newline
  · have hc := close_safe (s := s) ⟨h.toBounded, fun _ ↦ h⟩
    exact ⟨hc.bounded, hc.noSuchLine, hc.unnamed, hc.ready⟩
  · split
    · exact onScreen_safe (h.write _ _)
    · exact put_safe h b
    · exact report_safe h rfl

theorem isOfInput_of_isRefusal {f : Fault} (h : f.isRefusal = true) : f.isOfInput = true := by
  cases f with
  | parameterCount | unsupportedMode => rfl
  | _ => cases h

theorem command_safe {s : Session} (h : cfg.Ready s.screen) (c : Command) (ps : Params) :
    Step.Safe cfg (s.command cfg c ps) := by
  obtain hf | ⟨f, hf, hr, hc | ⟨hc, rfl⟩⟩ := command_cases cfg s c ps
  · rw [command_accepted hf]
    exact onScreen_safe (h.perform c ps)
  · rw [command_refused hf hr hc]
    exact report_safe h (isOfInput_of_isRefusal hr)
  · rw [command_row hf hr hc]
    have hm : cfg.Safe (s.screen.moveToRow ps) := h.moveToRow ps
    exact ⟨hm.bounded, hm.noSuchLine, Config.Safe.unnamed hm, fun hn _ ↦ hm.ready hn⟩

theorem dispatch_safe {s : Session} (h : cfg.Ready s.screen) (q : Sequence) :
    Step.Safe cfg (s.dispatch cfg q) := by
  obtain ⟨-, he⟩ | ⟨-, -, he⟩ | ⟨-, -, -, he⟩ | ⟨-, c, -, he⟩ := dispatch_cases cfg s q
  · rw [he]
    exact safe_of_ready h _
  · rw [he]
    exact ⟨h.toBounded, by simp, by simp, fun _ _ ↦ h⟩
  · rw [he]
    exact report_safe h rfl
  · rw [he]
    exact command_safe h c _

theorem perform_safe {s : Session} (h : cfg.Ready s.screen) {t : Token}
    (ht : ∀ f, t = .fault f → f.isOfInput = true) : Step.Safe cfg (s.perform cfg t) := by
  cases t with
  | byte b =>
    simp only [perform]
    split
    · exact put_safe h b
    · exact control_safe h b
  | sequence q =>
    have hd := dispatch_safe h q
    exact ⟨hd.bounded, hd.noSuchLine, hd.unnamed, hd.ready⟩
  | fault f => exact report_safe h (ht f rfl)

/-- The limit that is exceeded ends the session, if it can be named. -/
theorem settle_safe {r : Step} (h : Step.Safe cfg r) :
    (settle cfg r).fault ≠ some .noSuchLine ∧
      (∀ f, (settle cfg r).fault = some f → f.Unnamed → ¬cfg.NamesLimit) ∧
      ((∀ f, (settle cfg r).fault = some f → ¬f.Unnamed) → (settle cfg r).session.Bounded cfg) := by
  obtain ⟨hn, he⟩ | ⟨n, -, he⟩ := settle_cases cfg r
  · rw [he]
    refine ⟨h.noSuchLine, h.unnamed, fun hnamed ↦ ⟨h.bounded, h.ready fun n hf ↦ ?_⟩⟩
    obtain hr | ⟨-, hr⟩ := (Fault.lineLimit n).raised_cases
    · exact hn n (hf.trans (congrArg some hr))
    · exact hnamed _ hf ⟨n, hr⟩
  · rw [he]
    refine ⟨?_, ?_, fun _ ↦ ⟨h.bounded, by simp⟩⟩
    · dsimp only
      split <;> simp
    · rintro _ hf ⟨k, rfl⟩
      dsimp only at hf
      split at hf <;> cases hf

/-- A token that is a fault is a fault of the input. -/
theorem isOfInput_of_next {strict : Bool} {maxLength : Option Int} {t t' : Tokenizer} {b : UInt8} {token : Token}
    (h : t.next strict maxLength b = (t', some token)) : ∀ f, token = .fault f → f.isOfInput = true := by
  rintro f rfl
  obtain ⟨_, rfl⟩ | ⟨_, rfl⟩ | ⟨_, rfl⟩ := Tokenizer.next_fault h <;> rfl

theorem push_safe {s : Session} (h : s.Bounded cfg) (b : UInt8) :
    (s.push cfg b).fault ≠ some .noSuchLine ∧
      (∀ f, (s.push cfg b).fault = some f → f.Unnamed → ¬cfg.NamesLimit) ∧
      ((∀ f, (s.push cfg b).fault = some f → ¬f.Unnamed) → (s.push cfg b).session.Bounded cfg) := by
  obtain ⟨-, he⟩ | ⟨-, t, -, he⟩ | ⟨hf, t, token, ht, he⟩ := push_cases cfg s b
  · rw [he]
    exact ⟨by simp, by simp, fun _ ↦ h⟩
  · rw [he]
    exact ⟨by simp, by simp, fun _ ↦ ⟨h.bounded, h.ready⟩⟩
  · rw [he]
    exact settle_safe (perform_safe (s := { s with tokenizer := t, offset := s.offset + 1 }) (h.ready hf)
      (isOfInput_of_next ht))

/-- No byte runs into a line limit that has too many digits to be named. -/
def Named (cfg : Config) : List UInt8 → Session → Prop
  | [], _ => True
  | b :: bs, s => (∀ f, (s.push cfg b).fault = some f → ¬f.Unnamed) ∧ Named cfg bs (s.push cfg b).session

theorem pushAll_bounded {s : Session} (h : s.Bounded cfg) {bs : List UInt8} (hnamed : Named cfg bs s) :
    (pushAll cfg bs s).Bounded cfg := by
  induction bs generalizing s with
  | nil => exact h
  | cons b bs ih => exact ih ((push_safe h b).2.2 hnamed.1) hnamed.2

theorem named_of_namesLimit (hcfg : cfg.NamesLimit) {s : Session} (h : s.Bounded cfg) (bs : List UInt8) :
    Named cfg bs s := by
  induction bs generalizing s with
  | nil => trivial
  | cons b bs ih =>
    have hnamed : ∀ f, (s.push cfg b).fault = some f → ¬f.Unnamed :=
      fun f hf hu ↦ (push_safe h b).2.1 f hf hu hcfg
    exact ⟨hnamed, ih ((push_safe h b).2.2 hnamed)⟩

/-- In the states that bytes lead to, the cursor is on a line where the session goes on. -/
theorem row_lt_of_namesLimit (hcfg : cfg.NamesLimit) (bs : List UInt8)
    (hf : (pushAll cfg bs (start cfg)).finished = false) :
    (pushAll cfg bs (start cfg)).screen.cursor.row < (pushAll cfg bs (start cfg)).screen.lines.size := by
  have hnamed := named_of_namesLimit hcfg (start_bounded cfg) bs
  exact ((pushAll_bounded (start_bounded cfg) hnamed).ready hf).row_lt

end Session

end TermCapture
