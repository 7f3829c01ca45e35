import TermCapture.Preview
import TermCapture.Proofs.Session.Contained

namespace TermCapture.Preview

variable {registry : Charset.Registry} {width : Int} {strict : Bool} {palette : Palette} {charset : Charset}

theorem config_unlimited (width : Int) (strict : Bool) (palette : Palette) (charset : Charset) :
    (config width strict palette charset).unlimited = Convert.artConfig width strict palette charset := rfl

theorem requested_of_named {name : Option String} (h : Charset.named registry name = .ok charset) :
    Charset.requested registry name = .ok charset := by
  cases name with
  | none =>
    cases h
    rfl
  | some name =>
    rw [Charset.requested, h]
    rfl

/-- An upload that is not too large is refused for the fault of its text alone. -/
theorem decode_eq {name : Option String} {paletteName : String} {body : List UInt8}
    (hcharset : Charset.named registry name = .ok charset) (hpalette : Palette.named paletteName = .ok palette)
    (hlength : body.length ≤ maxUploadBytes) :
    decode registry body width paletteName name strict =
      match ((config width strict palette charset).decode body).fault with
      | some f => refuse f
      | none => pure (palette, ((config width strict palette charset).decode body).session) := by
  rw [decode, if_neg (by omega), requested_of_named hcharset, hpalette]
  rfl

/-- Limits that a text does not reach change nothing but themselves, in a session that is stopped by a fault as
well. A preview of such a text has an answer, whatever the names of charsets stand for: the document that the text
is converted to, or a refusal of its content exactly when the conversion fails. -/
theorem unreached_limits {cfg : Config} {bs : List UInt8} (h : cfg.Contains bs) :
    (cfg.decode bs).unlimited = cfg.unlimited.decode bs ∧
    ∀ (registry : Charset.Registry) (width : Int) (strict : Bool) (palette : Palette) (charset : Charset)
      (paletteName : String) (name : Option String), cfg = config width strict palette charset →
      Palette.named paletteName = .ok palette → Charset.named registry name = .ok charset →
      bs.length ≤ maxUploadBytes →
      let document := Convert.toHtml bs width strict palette charset
      ∃ answer, (decode registry bs width paletteName name strict).run = .ok answer ∧
        answer.map (fun a ↦ (Markup.html a.1).render a.2.screen) = document.mapError .fault ∧
        ((∃ e, answer = .error e ∧ e.status = 422) ↔ ∃ f, document = .error f) := by
  have hrun := Config.decode_unlimited h
  refine ⟨hrun, ?_⟩
  rintro registry width strict palette charset paletteName name rfl hpalette hcharset hlength
  have hinput : ∀ f, ((config width strict palette charset).decode bs).fault = some f → f.isOfInput = true :=
    fun f ↦ h.isOfInput ⟨maxSequenceLength, rfl, by decide⟩ ⟨maxColumns, rfl, by decide⟩
  dsimp only
  rw [decode_eq hcharset hpalette hlength, Convert.toHtml, Config.screen, ← config_unlimited, ← hrun]
  generalize (config width strict palette charset).decode bs = r at hinput ⊢
  obtain ⟨s, _ | f, notes⟩ := r
  · exact ⟨.ok (palette, s), rfl, rfl, by simp [Step.unlimited, Except.map]⟩
  · refine ⟨.error (.fault f), ?_, rfl, fun _ ↦ ⟨f, rfl⟩, fun _ ↦ ⟨.fault f, rfl, rfl⟩⟩
    dsimp only
    rw [refuse, if_pos (hinput f rfl)]
    rfl

/-- The screen may be full to its last row and column, and a sequence as long as the limit. For the previews, half
of a sequence that strict reading refuses. -/
theorem unreached_limits_at_the_edge :
    let cfg : Config := { width := 4, maxSequenceLength := some 3, maxLines := some 2, maxColumns := some 4 }
    let bs : List UInt8 := [0x41, 0x0a, 0x1b, 0x5b, 0x30, 0x33, 0x43, 0x1b, 0x5b, 0x33]
    let preview := config 80 true .cga .utf8
    let upload : List UInt8 := [0x41, 0x1b, 0x5b, 0x3b, 0x48]
    (cfg.Contains bs ∧ (cfg.decode bs).unlimited = cfg.unlimited.decode bs) ∧
    (preview.Contains upload ∧ Palette.named "cga" = .ok .cga ∧
      Charset.named .known none = .ok .utf8 ∧ upload.length ≤ maxUploadBytes ∧
      ∃ answer, (decode .known upload 80 "cga" none true).run = .ok answer ∧
        answer.map (fun a ↦ (Markup.html a.1).render a.2.screen) =
          (Convert.toHtml upload 80 true .cga .utf8).mapError .fault ∧
        ∃ e, answer = .error e ∧ e.status = 422) := by
  intro cfg bs preview upload
  have hbs : cfg.Contains bs := by decide +kernel
  have hupload : preview.Contains upload := by decide +kernel
  have hpalette : Palette.named "cga" = .ok .cga := by decide +kernel
  have hcharset : Charset.named .known none = .ok .utf8 := rfl
  obtain ⟨-, hpreview⟩ := unreached_limits hupload
  obtain ⟨answer, hrun, hdocument, hstatus⟩ :=
    hpreview .known 80 true .cga .utf8 "cga" none rfl hpalette hcharset (by decide)
  refine ⟨⟨hbs, (unreached_limits hbs).1⟩, hupload, hpalette, hcharset, by decide, answer, hrun, hdocument, ?_⟩
  exact hstatus.mpr ⟨.missingParameter 0, by decide +kernel⟩

end TermCapture.Preview
