import TermCapture.Proofs.Charset.Newline
import TermCapture.Proofs.Markup.Rendering
import TermCapture.Proofs.Screen.Cells
import TermCapture.Proofs.Session.Reading

namespace TermCapture

/-- A cell whose colors are bytes and whose character has a property. -/
def Cell.Shows (P : Char → Prop) (c : Cell) : Prop := c.style.InRange ∧ P c.char

namespace Session

variable {cfg : Config} {s : Session} {P : Char → Prop}

/-- All that a session shows and will show are characters with a property, in colors that are bytes. -/
structure Shows (P : Char → Prop) (s : Session) : Prop where
  cells : s.screen.Holds (Cell.Shows P)
  style : s.style.InRange
  pending : ∀ p ∈ s.pending, p.Wide

theorem onScreen_shows (h : s.Shows P) {f : Screen → Outcome Screen}
    (hf : (f s.screen).state.Holds (Cell.Shows P)) : (s.onScreen f).session.Shows P :=
  ⟨hf, h.style, h.pending⟩

variable (hblank : P ' ')

include hblank

theorem blank_shows : Cell.blank.Shows P := ⟨Style.default_inRange, hblank⟩

theorem start_shows (cfg : Config) : (start cfg).Shows P :=
  ⟨Screen.empty_holds (blank_shows hblank) _ _ _, Style.default_inRange, nofun⟩

section

variable (h : s.Shows P)

include h

theorem act_shows {a : Action} (ha : ∀ c st, a ≠ .write c st) : (s.onScreen (·.act a)).session.Shows P :=
  onScreen_shows h (h.cells.act (blank_shows hblank) fun c st he ↦ absurd he (ha c st))

theorem writeAll_shows {cs : List Char} (hcs : ∀ c ∈ cs, P c) :
    (s.screen.writeAll s.style cs).state.Holds (Cell.Shows P) :=
  h.cells.writeAll (blank_shows hblank) fun c hc ↦ ⟨h.style, hcs c hc⟩

variable (hcharset : cfg.charset.Yields P)

include hcharset

theorem put_shows {b : UInt8} (hb : b ≠ 0x0a) : (s.put cfg b).session.Shows P := by
  obtain ⟨hchars, hpending⟩ := hcharset.decode h.pending hb
  rw [put_eq, onScreen_eq]
  exact ⟨writeAll_shows hblank h hchars, h.style, hpending⟩

theorem flushed_shows : (s.flushed cfg).state.Holds (Cell.Shows P) :=
  writeAll_shows hblank h (hcharset.flush s.pending)

theorem close_shows : (s.close cfg).session.Shows P := by
  obtain hf | ⟨hf, f, ho, hc⟩ | ⟨hf, hc⟩ := close_cases cfg s
  · rw [close_finished hf]
    exact ⟨h.cells, h.style, h.pending⟩
  · rw [close_stopped hf ho hc]
    exact ⟨flushed_shows hblank h hcharset, h.style, nofun⟩
  · rw [close_done hf hc]
    exact ⟨flushed_shows hblank h hcharset, h.style, nofun⟩

theorem control_shows (b : UInt8) : (s.control cfg b).session.Shows P := by
  -- the byte of a line break moves the cursor and never reaches the charset, not even as a glyph
  rw [control]
  split_ifs with _ hlf
  · exact h
  · exact act_shows hblank h (a := .newline) (by simp)
  · exact close_shows hblank h hcharset
  · split
    · refine onScreen_shows h (h.cells.act (blank_shows hblank) (a := .write ' ' s.style) ?_)
      rintro c st ⟨⟩
      exact ⟨h.style, hblank⟩
    · exact put_shows hblank h hcharset hlf
    · rw [report_session]
      exact h

omit hcharset in
theorem command_shows (c : Command) (ps : Params) : (s.command cfg c ps).session.Shows P := by
  obtain hf | ⟨f, hf, hr, hc | ⟨hc, rfl⟩⟩ := command_cases cfg s c ps
  · rw [command_accepted hf]
    exact act_shows hblank h (a := .command c ps) (by simp)
  · rw [command_refused hf hr hc, report_session]
    exact h
  · rw [command_row hf hr hc]
    exact act_shows hblank h (a := .row ps) (by simp)

omit hcharset in
theorem dispatch_shows (q : Sequence) : (s.dispatch cfg q).session.Shows P := by
  obtain ⟨-, he⟩ | ⟨-, -, he⟩ | ⟨-, -, -, he⟩ | ⟨-, c, -, he⟩ := dispatch_cases cfg s q
  · rw [he]
    exact h
  · rw [he]
    exact ⟨h.cells, Rendition.apply_inRange _ _ h.style, h.pending⟩
  · rw [he, report_session]
    exact h
  · rw [he]
    exact command_shows hblank h c _

theorem perform_shows (t : Token) : (s.perform cfg t).session.Shows P := by
  cases t with
  | byte b =>
    rw [perform]
    split
    · refine put_shows hblank h hcharset ?_
      rintro rfl
      contradiction
    · exact control_shows hblank h hcharset b
  | sequence q => exact dispatch_shows hblank h q
  | fault f =>
    rw [perform, report_session]
    exact h

theorem push_shows (b : UInt8) : (s.push cfg b).session.Shows P := by
  obtain ⟨-, he⟩ | ⟨-, t, -, he⟩ | ⟨-, t, token, -, he⟩ := push_cases cfg s b
  · rw [he]
    exact h
  · rw [he]
    exact ⟨h.cells, h.style, h.pending⟩
  · rw [he]
    have hmoved : Shows P { s with tokenizer := t, offset := s.offset + 1 } := ⟨h.cells, h.style, h.pending⟩
    have hr : (perform cfg { s with tokenizer := t, offset := s.offset + 1 } token).session.Shows P :=
      perform_shows hblank hmoved hcharset token
    rw [settle_session]
    exact ⟨hr.cells, hr.style, hr.pending⟩

theorem pushAll_shows (bs : List UInt8) : (pushAll cfg bs s).Shows P := by
  induction bs generalizing s with
  | nil => exact h
  | cons b bs ih => exact ih (push_shows hblank h hcharset b)

end

/-- What a text leaves shows such characters, also where a fault stops it. -/
theorem decode_shows (hcharset : cfg.charset.Yields P) (bs : List UInt8) : (cfg.decode bs).session.Shows P := by
  obtain ⟨as, -, he⟩ := decode_cases cfg bs
  have h : (pushAll cfg as (start cfg)).Shows P := pushAll_shows hblank (start_shows hblank cfg) hcharset as
  obtain he | he := he
  · rw [he]
    exact h
  · rw [he]
    exact close_shows hblank h hcharset

omit hblank

/-- The markup of a decoded text is one element around one line of markup for every line of the screen, each
with one span for every run. Reading it gives back the styles and texts of the runs, taking its tags out gives
back the text of the screen, and nothing in a text ends a tag, an attribute or a line. A charset is one that reads
its own byte alone as a line break, as all do that are known by a name. -/
theorem html_reads_back :
    (∀ name cs, Charset.named .known name = .ok cs → cs.KeepsLines) ∧
    ∀ cfg : Config, cfg.charset.KeepsLines → ∀ (p : Palette) (bs : List UInt8),
    let s := (cfg.decode bs).session.screen
    let m := Markup.html p
    m.render s = "<div style=\"" ++ Markup.frame p ++ "\">" ++
      "\n".intercalate (s.runs.map fun rs ↦ String.join (rs.map fun r ↦
        "<span style=\"" ++ m.style r.style ++ "\">" ++ String.ofList (Markup.escapeHtml r.chars) ++
          "</span>")) ++ "</div>" ∧
    Markup.IsStyle (Markup.frame p).toList ∧
    (∀ rs ∈ s.runs, ∀ r ∈ rs,
      Markup.IsStyle (m.style r.style).toList ∧ Html.Inert (Markup.escapeHtml r.chars)) ∧
    Html.document? (m.render s).toList = some ⟨(Markup.frame p).toList,
      s.runs.map fun rs ↦ rs.map fun r ↦ ⟨(m.style r.style).toList, r.chars⟩⟩ ∧
    Html.unescape (Html.stripTags false (m.render s).toList) = s.text.toList ∧
    Markup.text.render s = s.text := by
  refine ⟨fun name cs ↦ Charset.known_keepsLines, fun cfg hcharset p bs ↦ ?_⟩
  intro s m
  have hshows : (cfg.decode bs).session.Shows (· ≠ '\n') := decode_shows (by decide) hcharset.yields bs
  have hruns : ∀ rs ∈ s.runs, ∀ r ∈ rs, r.Readable := by
    intro rs hrs
    obtain ⟨l, hl, rfl⟩ := List.mem_map.mp hrs
    refine Markup.runs_readable fun c hc ↦ ?_
    obtain ⟨hstyle, hchar⟩ := hshows.cells.of_mem (Array.mem_toList_iff.mp hl) hc
    exact ⟨hstyle, hchar⟩
  refine ⟨?_, Markup.frame_isStyle p, ?_, ?_, ?_, Markup.render_text s⟩
  · rw [Markup.render_html, Markup.lines, Screen.runs, List.map_map]
    refine congrArg (fun lines ↦ _ ++ "\n".intercalate lines ++ _) (List.map_congr_left fun l _ ↦ ?_)
    exact congrArg String.join (List.map_congr_left fun r _ ↦ Markup.run_html p r.style r.chars)
  · intro rs hrs r hr
    have h := hruns rs hrs r hr
    exact ⟨Markup.style_isStyle p h.style, Html.escape_inert h.text⟩
  · exact Markup.document?_render p hruns (decode_kept cfg bs).lines_pos
  · rw [Markup.stripTags_render p hruns, Html.unescape_escape]

/-- A tag of the text itself, behind a sequence that sets its color and around a character of code page 437. -/
theorem html_reads_back_of_tags :
    let cfg : Config := { charset := .page .cp437 }
    let bs : List UInt8 := [0x1b, 0x5b, 0x33, 0x31, 0x6d, 0x3c, 0x62, 0x3e, 0x82, 0x0a, 0x26]
    let s := (cfg.decode bs).session.screen
    let written := ((Markup.html .cga).render s).toList
    cfg.charset.KeepsLines ∧ Html.unescape (Html.stripTags false written) = ['<', 'b', '>', 'é', '\n', '&'] ∧
      (Html.document? written).map (fun d ↦ d.lines.map (List.map Html.Span.text)) =
        some [[['<', 'b', '>', 'é']], [['&']]] := by
  intro cfg bs s written
  obtain ⟨-, hreads⟩ := html_reads_back
  have hcharset : cfg.charset.KeepsLines := CodePage.ofHigh_keepsLines (by decide) _
  obtain ⟨-, -, -, hdocument, htext, -⟩ := hreads cfg hcharset .cga bs
  have hchars : s.text.toList = ['<', 'b', '>', 'é', '\n', '&'] := by decide +kernel
  have hruns : s.runs.map (List.map Run.chars) = [[['<', 'b', '>', 'é']], [['&']]] := by decide +kernel
  refine ⟨hcharset, htext.trans hchars, ?_⟩
  rw [hdocument, Option.map_some, List.map_map, ← hruns]
  exact congrArg some (List.map_congr_left fun rs _ ↦ List.map_map)

end Session

end TermCapture
