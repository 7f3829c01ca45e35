import TermCapture.Proofs.Color.Range
import TermCapture.Proofs.Markup.Reader
import TermCapture.Proofs.Run.Grouping

namespace TermCapture

open Html

/-- A cell that can be read back: its colors are bytes, and its character does not end a line. -/
structure Cell.Readable (c : Cell) : Prop where
  style : c.style.InRange
  char : c.char ≠ '\n'

structure Run.Readable (r : Run) : Prop where
  style : r.style.InRange
  text : '\n' ∉ r.chars

theorem Text.mem_digits (n : Nat) : ∀ c ∈ digits 16 n, c ∈ hexDigits := by
  induction n using Nat.strong_induction_on with
  | _ n ih =>
    by_cases hn : n < 16
    · rw [digits, Nat.toDigits_of_lt_base hn]
      simpa using digitChar_mem n hn
    · have hlast := digitChar_mem (n % 16) (Nat.mod_lt n (by decide))
      rw [digits, Nat.toDigits_of_base_le (by decide) (Nat.le_of_not_lt hn)]
      intro c hc
      obtain hc | hc := List.mem_append.mp hc
      · exact ih (n / 16) (Nat.div_lt_self (by omega) (by decide)) c hc
      · obtain rfl := List.mem_singleton.mp hc
        exact hlast

theorem Text.hexadecimal_plain (width : Nat) (n : Int) : Plain (hexadecimal width n) := by
  have hall : Plain hexDigits := by decide
  have hdigits : Plain (digits 16 n.natAbs) := fun c hc ↦ hall c (mem_digits _ c hc)
  have hpadded : ∀ k, Plain (List.replicate k '0' ++ digits 16 n.natAbs) := by
    intro k
    refine Plain.append (fun c hc ↦ ?_) hdigits
    obtain rfl := List.eq_of_mem_replicate hc
    decide
  unfold hexadecimal
  dsimp only
  split
  · exact @Plain.append ['-'] _ (by decide) (hpadded _)
  · exact hpadded _

theorem Color.hex_plain (c : Color) : Plain c.hex.toList := by
  have hdigits : Plain c.hexDigits := by
    unfold hexDigits
    dsimp only
    split
    all_goals
      intro d hd
      obtain ⟨v, -, hd⟩ := List.mem_flatMap.mp hd
      exact Text.hexadecimal_plain _ _ d hd
  rw [hex, String.toList_ofList]
  exact @Plain.append ['#'] _ (by decide) hdigits

namespace Markup

/-- A color, and possibly a color behind the text and a line under it. -/
def IsStyle (cs : List Char) : Prop :=
  ∃ color behind line, Color.IsHex color ∧
    (behind = [] ∨ ∃ c, Color.IsHex c ∧ behind = "background-color:".toList ++ c ++ ";".toList) ∧
    (line = [] ∨ line = "text-decoration:underline;".toList) ∧
    cs = "color:".toList ++ color ++ ";".toList ++ behind ++ line

/-- Whatever the colors are, escaping changes nothing in their rules. -/
theorem rules_plain (l : Look) : Plain (rules l).toList := by
  have hrule : ∀ (property : String) (c : Color), Plain property.toList →
      Plain (property ++ c.hex ++ ";").toList := by
    intro property c hproperty
    rw [String.toList_append, String.toList_append]
    exact (hproperty.append c.hex_plain).append (by decide)
  have hbehind : Plain ((l.background.map backgroundRule).getD "").toList := by
    cases l.background with
    | none => decide
    | some c => exact hrule _ c (by decide)
  have hline : Plain (if l.underline then "text-decoration:underline;" else "").toList := by
    cases l.underline <;> decide
  rw [rules, String.toList_append, String.toList_append]
  exact ((hrule _ l.foreground (by decide)).append hbehind).append hline

theorem rules_isStyle {l : Look} (h : l.InRange) : IsStyle (rules l).toList := by
  have hbehind : ((l.background.map backgroundRule).getD "").toList = [] ∨ ∃ c, Color.IsHex c ∧
      ((l.background.map backgroundRule).getD "").toList = "background-color:".toList ++ c ++ ";".toList := by
    have hrange := h.background
    generalize l.background = b at hrange ⊢
    cases b with
    | none => exact .inl rfl
    | some c =>
      refine .inr ⟨c.hex.toList, Color.hex_isHex (hrange c rfl), ?_⟩
      exact (String.toList_append ..).trans (congrArg (· ++ _) (String.toList_append ..))
  have hline : (if l.underline then "text-decoration:underline;" else "").toList = [] ∨
      (if l.underline then "text-decoration:underline;" else "").toList =
        "text-decoration:underline;".toList := by
    cases l.underline with
    | false => exact .inl rfl
    | true => exact .inr rfl
  refine ⟨l.foreground.hex.toList, _, _, Color.hex_isHex h.foreground, hbehind, hline, ?_⟩
  rw [rules, foregroundRule, String.toList_append, String.toList_append, String.toList_append,
    String.toList_append]

variable (p : Palette)

theorem style_isStyle {s : Style} (h : s.InRange) : IsStyle ((html p).style s).toList :=
  rules_isStyle (s.look_inRange p h)

theorem style_plain (s : Style) : Plain ((html p).style s).toList := rules_plain _

theorem span_plain : Plain "span".toList := by decide

/-- The style of the element around the lines. -/
def frame : String := foregroundRule p.defaultForeground ++ backgroundRule p.defaultBackground

theorem rules_frame : rules ⟨p.defaultForeground, some p.defaultBackground, false⟩ = frame p := String.append_empty

theorem frame_isStyle : IsStyle (frame p).toList := by
  rw [← rules_frame]
  exact rules_isStyle ⟨p.base_inRange 7, by rintro c ⟨⟩; exact p.base_inRange 0⟩

theorem frame_plain : Plain (frame p).toList := by
  rw [← rules_frame]
  exact rules_plain _

theorem run_html (s : Style) (cs : List Char) : (html p).run s cs =
    "<span style=\"" ++ (html p).style s ++ "\">" ++ String.ofList (escapeHtml cs) ++ "</span>" := by
  rw [run, (style_plain p s).escape, String.ofList_toList]

theorem render_html (s : Screen) : (html p).render s =
    "<div style=\"" ++ frame p ++ "\">" ++ "\n".intercalate ((html p).lines s) ++ "</div>" := by
  rw [frame, ← String.append_assoc]
  rfl

theorem toList_run (s : Style) (cs rest : List Char) : ((html p).run s cs).toList ++ rest =
    '<' :: (tag "span" ((html p).style s).toList ++
      '>' :: (escapeHtml cs ++ '<' :: ("/span".toList ++ '>' :: rest))) := by
  have hopen : "<span style=\"".toList = '<' :: ("span".toList ++ " style=".toList ++ ['"']) := rfl
  have hclose : "</span>".toList = '<' :: ("/span".toList ++ ['>']) := rfl
  have hend : "\">".toList = ['"', '>'] := rfl
  have htext : (String.ofList (escapeHtml cs)).toList = escapeHtml cs := String.toList_ofList
  rw [run_html, String.toList_append, String.toList_append, String.toList_append, String.toList_append,
    hopen, hclose, hend, htext, tag]
  simp only [List.append_assoc, List.cons_append, List.nil_append]

def span (r : Run) : Span := ⟨((html p).style r.style).toList, r.chars⟩

/-- A line, run by run. -/
def written (rs : List Run) : List Char := rs.flatMap fun r ↦ ((html p).run r.style r.chars).toList

theorem toList_line (l : Line) : ((html p).line l).toList = written p l.runs := by
  rw [line, String.toList_join, List.flatMap_map]
  rfl

section

variable {r : Run} (h : r.Readable) (rest : List Char)

include h

theorem spans?_run : spans? (pieces (((html p).run r.style r.chars).toList ++ rest)) =
    (spans? (pieces rest)).map (span p r :: ·) := by
  have hstyle := style_plain p r.style
  have htag := fun c hc ↦ mem_tag (c := c) span_plain hstyle hc
  have htext := escape_inert h.text
  have hpieces : pieces (((html p).run r.style r.chars).toList ++ rest) =
      [] :: tag "span" ((html p).style r.style).toList :: escapeHtml r.chars :: "/span".toList ::
        pieces rest := by
    rw [toList_run, ← List.nil_append ('<' :: _), pieces_append List.not_mem_nil List.not_mem_nil (.inl rfl),
      pieces_append (fun hm ↦ (htag _ hm).1 rfl) (fun hm ↦ (htag _ hm).2.1 rfl) (.inr rfl),
      pieces_append htext.lt htext.gt (.inl rfl), pieces_append (by decide) (by decide) (.inr rfl)]
  rw [hpieces, spans?, if_pos rfl, style?_tag span_plain hstyle, unescape_escape]
  cases spans? (pieces rest) <;> rfl

theorem newline_not_mem_run : '\n' ∉ ((html p).run r.style r.chars).toList := by
  have hstyle := style_plain p r.style
  have hrun := toList_run p r.style r.chars []
  rw [List.append_nil] at hrun
  rw [hrun]
  simp only [List.mem_cons, List.mem_append, not_or]
  exact ⟨by decide, fun hm ↦ (mem_tag span_plain hstyle hm).2.2 rfl, by decide, (escape_inert h.text).newline,
    by decide, by decide, by decide, List.not_mem_nil⟩

theorem stripTags_run : stripTags false (((html p).run r.style r.chars).toList ++ rest) =
    escapeHtml r.chars ++ stripTags false rest := by
  have hstyle := style_plain p r.style
  rw [toList_run, stripTags_tag fun hm ↦ (mem_tag span_plain hstyle hm).2.1 rfl,
    stripTags_text (escape_inert h.text).lt, stripTags_tag (by decide)]

end

section

variable {rs : List Run} (h : ∀ r ∈ rs, r.Readable)

include h

theorem spans?_written : spans? (pieces (written p rs)) = some (rs.map (span p)) := by
  induction rs with
  | nil => rfl
  | cons r rs ih =>
    have hrest := ih fun r' hr' ↦ h r' (List.mem_cons_of_mem r hr')
    rw [written, List.flatMap_cons, spans?_run p (h r List.mem_cons_self)]
    exact congrArg (Option.map _) hrest

theorem newline_not_mem_written : '\n' ∉ written p rs := by
  intro hm
  obtain ⟨r, hr, hm⟩ := List.mem_flatMap.mp hm
  exact newline_not_mem_run p (h r hr) hm

theorem stripTags_written (rest : List Char) :
    stripTags false (written p rs ++ rest) = escapeHtml (rs.flatMap Run.chars) ++ stripTags false rest := by
  induction rs with
  | nil => rfl
  | cons r rs ih =>
    have hrest := ih fun r' hr' ↦ h r' (List.mem_cons_of_mem r hr')
    rw [written, List.flatMap_cons, List.append_assoc, stripTags_run p (h r List.mem_cons_self),
      List.flatMap_cons, escape_append, List.append_assoc]
    exact congrArg (_ ++ ·) hrest

end

theorem chars_runs (l : Line) : l.runs.flatMap Run.chars = l.toList.map Cell.char := by
  have hcells : ∀ r : Run, r.cells.map Cell.char = r.chars := fun r ↦ by
    simp only [Run.cells, List.map_map, Function.comp_def, List.map_id']
  rw [← l.expand_runs, Run.expand, List.map_flatMap]
  exact List.flatMap_congr fun r _ ↦ (hcells r).symm

/-- A run has the style and the characters of cells of its line. -/
theorem runs_readable {l : Line} (h : ∀ c ∈ l, c.Readable) : ∀ r ∈ l.runs, r.Readable := by
  intro r hr
  have hcell : ∀ c ∈ r.chars, (⟨c, r.style⟩ : Cell).Readable := by
    intro c hc
    have hmem : (⟨c, r.style⟩ : Cell) ∈ Run.expand l.runs :=
      List.mem_flatMap.mpr ⟨r, hr, List.mem_map_of_mem hc⟩
    rw [l.expand_runs] at hmem
    exact h _ (Array.mem_toList_iff.mp hmem)
  obtain ⟨c, hc⟩ := List.exists_mem_of_ne_nil r.chars (l.runs_maximal.chars_ne_nil r hr)
  exact ⟨(hcell c hc).style, fun hn ↦ (hcell _ hn).char rfl⟩

theorem toList_text (s : Screen) :
    s.text.toList = ['\n'].intercalate (s.runs.map fun rs ↦ rs.flatMap Run.chars) := by
  have hline : ∀ l : Line, l.text.toList = l.runs.flatMap Run.chars := by
    intro l
    rw [chars_runs]
    exact String.toList_ofList
  rw [Screen.text, String.toList_intercalate, Screen.runs, List.map_map, List.map_map]
  exact congrArg _ (List.map_congr_left fun l _ ↦ hline l)

/-- Without markup, a screen is its text. -/
theorem render_text (s : Screen) : text.render s = s.text := by
  have hline : ∀ l : Line, text.line l = l.text := by
    intro l
    have hchars : (text.line l).toList = l.runs.flatMap Run.chars := by
      rw [line, String.toList_join, List.flatMap_map]
      exact List.flatMap_congr fun r _ ↦ String.toList_ofList
    rw [← String.ofList_toList (s := text.line l), hchars, chars_runs]
    rfl
  have hlines : text.lines s = s.lines.toList.map Line.text := List.map_congr_left fun l _ ↦ hline l
  rw [render, hlines]
  rfl

theorem toList_render (s : Screen) : ((html p).render s).toList =
    '<' :: (tag "div" (frame p).toList ++
      '>' :: (['\n'].intercalate (s.runs.map (written p)) ++ "</div>".toList)) := by
  have hopen : "<div style=\"".toList = '<' :: ("div".toList ++ " style=".toList ++ ['"']) := rfl
  have hend : "\">".toList = ['"', '>'] := rfl
  have hbreak : "\n".toList = ['\n'] := rfl
  have hlines : ((html p).lines s).map String.toList = s.runs.map (written p) := by
    rw [lines, Screen.runs, List.map_map, List.map_map]
    exact List.map_congr_left fun l _ ↦ toList_line p l
  rw [render_html, String.toList_append, String.toList_append, String.toList_append, String.toList_append,
    String.toList_intercalate, hopen, hend, hbreak, hlines, tag]
  simp only [List.append_assoc, List.cons_append, List.nil_append]

section

variable {rss : List (List Run)} (h : ∀ rs ∈ rss, ∀ r ∈ rs, r.Readable)

include h

theorem spans?_lines : (rss.map (written p)).mapM (fun line ↦ spans? (pieces line)) =
    some (rss.map fun rs ↦ rs.map (span p)) := by
  induction rss with
  | nil => rfl
  | cons rs rss ih =>
    obtain ⟨hrs, hrss⟩ := List.forall_mem_cons.mp h
    rw [List.map_cons, List.mapM_cons, spans?_written p hrs, ih hrss]
    rfl

theorem stripTags_lines (rest : List Char) :
    stripTags false (['\n'].intercalate (rss.map (written p)) ++ rest) =
      escapeHtml (['\n'].intercalate (rss.map fun rs ↦ rs.flatMap Run.chars)) ++ stripTags false rest := by
  induction rss with
  | nil => rfl
  | cons rs rss ih =>
    obtain ⟨hrs, hrss⟩ := List.forall_mem_cons.mp h
    cases rss with
    | nil =>
      simp only [List.map_cons, List.map_nil, List.intercalate_singleton]
      exact stripTags_written p hrs rest
    | cons rs' rss =>
      have hrest := ih hrss
      simp only [List.map_cons, List.intercalate_cons_cons, List.append_assoc, escape_append] at hrest ⊢
      rw [stripTags_written p hrs]
      exact congrArg (fun t ↦ _ ++ '\n' :: t) hrest

end

section

variable {s : Screen} (h : ∀ rs ∈ s.runs, ∀ r ∈ rs, r.Readable)

include h

theorem document?_render (hs : 0 < s.lines.size) : document? ((html p).render s).toList =
    some ⟨(frame p).toList, s.runs.map fun rs ↦ rs.map (span p)⟩ := by
  have hframe := frame_plain p
  -- no style ends a tag, so the first tag ends where the document wrote its end
  have hin : ∀ c ∈ tag "div" (frame p).toList, (c != '>') = true :=
    fun c hc ↦ bne_iff_ne.mpr (mem_tag (by decide) hframe hc).2.1
  have htag : ∀ rest, (tag "div" (frame p).toList ++ '>' :: rest).takeWhile (· != '>') =
      tag "div" (frame p).toList := by
    intro rest
    rw [List.takeWhile_append_of_pos hin]
    exact List.append_nil _
  have hrest : ∀ rest, ((tag "div" (frame p).toList ++ '>' :: rest).dropWhile (· != '>')).drop 1 = rest := by
    intro rest
    rw [List.dropWhile_append_of_pos hin]
    rfl
  have hbody : ∀ body : List Char, (body ++ "</div>".toList).dropSuffix? "</div>".toList = some body :=
    fun body ↦ List.dropSuffix?_eq_some_iff.mpr ⟨_, rfl, BEq.rfl⟩
  have hsplit : (['\n'].intercalate (s.runs.map (written p))).splitOn '\n' = s.runs.map (written p) := by
    refine List.splitOn_intercalate '\n' ?_ ?_
    · intro cs hcs
      obtain ⟨rs, hrs, rfl⟩ := List.mem_map.mp hcs
      exact newline_not_mem_written p (h rs hrs)
    · rw [Screen.runs, List.map_map, Ne, List.map_eq_nil_iff, Array.toList_eq_nil_iff, ← Array.size_eq_zero_iff]
      omega
  rw [toList_render, document?, htag, hrest, style?_tag (by decide) hframe, hbody]
  simp only [Option.bind_eq_bind, Option.bind_some, hsplit, spans?_lines p h]
  rfl

theorem stripTags_render : stripTags false ((html p).render s).toList = escapeHtml s.text.toList := by
  have hframe := frame_plain p
  rw [toList_render, stripTags_tag fun hm ↦ (mem_tag (by decide) hframe hm).2.1 rfl, stripTags_lines p h,
    toList_text]
  exact List.append_nil _

end

end Markup

end TermCapture
