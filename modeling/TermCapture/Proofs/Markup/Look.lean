import TermCapture.Proofs.Color.Notation

namespace TermCapture

namespace Palette

variable (p : Palette)

/-- A base color is brightened to the bright one of its slot, and any other color stays. -/
inductive Brightens : Color → Color → Prop
  | slot (i : Fin 8) : Brightens (p.base i) (p.bright i)
  | other {c : Color} (h : ∀ i, p.base i ≠ c) : Brightens c c

/-- How the foreground is shown, bold or not. A missing one is white. -/
inductive ShowsForeground : (bold : Bool) → Option Color → Color → Prop
  | plain (c : Color) : ShowsForeground false (some c) c
  | missing : ShowsForeground false none p.defaultForeground
  | bold {c c' : Color} (h : p.Brightens c c') : ShowsForeground true (some c) c'
  | boldMissing : ShowsForeground true none p.brightWhite

theorem base_injective : Function.Injective p.base := by
  have h : ∀ i j, p.base i = p.base j → i = j := by
    cases p <;> decide
  exact fun i j ↦ h i j

theorem brighten_base (i : Fin 8) : p.brighten (p.base i) = p.bright i := by
  unfold brighten
  split
  · rename_i slot hfind
    have hslot : p.base slot = p.base i := by simpa using List.find?_some hfind
    rw [p.base_injective hslot]
  · rename_i hfind
    have hnone := List.find?_eq_none.mp hfind i (List.mem_finRange i)
    simp only [decide_true, not_true_eq_false] at hnone

theorem brighten_other {c : Color} (h : ∀ i, p.base i ≠ c) : p.brighten c = c := by
  have hfind : ((List.finRange 8).find? fun slot ↦ p.base slot = c) = none := by
    simpa using h
  rw [brighten, hfind]

theorem brightens_iff {c c' : Color} : p.Brightens c c' ↔ c' = p.brighten c := by
  constructor
  · rintro (i | h)
    · exact (p.brighten_base i).symm
    · exact (p.brighten_other h).symm
  · rintro rfl
    by_cases h : ∃ i, p.base i = c
    · obtain ⟨i, rfl⟩ := h
      rw [p.brighten_base]
      exact .slot i
    · rw [p.brighten_other fun i hi ↦ h ⟨i, hi⟩]
      exact .other fun i hi ↦ h ⟨i, hi⟩

end Palette

/-- What a style shows under a palette. -/
structure Style.Shows (p : Palette) (s : Style) (l : Look) : Prop where
  foreground : p.ShowsForeground s.bold
    (if s.inverse then some (s.background.getD p.defaultBackground) else s.foreground) l.foreground
  background : l.background = if s.inverse then some (s.foreground.getD p.defaultForeground) else s.background
  underline : l.underline = s.underline

theorem Palette.showsForeground_iff (p : Palette) {bold : Bool} {f : Option Color} {c : Color} :
    p.ShowsForeground bold f c ↔
      c = if bold then (f.map p.brighten).getD p.brightWhite else f.getD p.defaultForeground := by
  constructor
  · rintro (_ | _ | h | _)
    · rfl
    · rfl
    · exact p.brightens_iff.mp h
    · rfl
  · rintro rfl
    cases bold with
    | false =>
      cases f with
      | none => exact .missing
      | some c => exact .plain c
    | true =>
      cases f with
      | none => exact .boldMissing
      | some c => exact .bold (p.brightens_iff.mpr rfl)

theorem Style.shows_iff (p : Palette) (s : Style) (l : Look) : s.Shows p l ↔ l = s.look p := by
  have hlook : s.look p = {
      foreground :=
        let f := if s.inverse then some (s.background.getD p.defaultBackground) else s.foreground
        if s.bold then (f.map p.brighten).getD p.brightWhite else f.getD p.defaultForeground
      background := if s.inverse then some (s.foreground.getD p.defaultForeground) else s.background
      underline := s.underline } := by
    unfold look
    cases s.inverse <;> rfl
  rw [hlook]
  constructor
  · rintro ⟨hforeground, hbackground, hunderline⟩
    obtain ⟨f, b, u⟩ := l
    cases p.showsForeground_iff.mp hforeground
    cases hbackground
    cases hunderline
    rfl
  · rintro rfl
    exact ⟨p.showsForeground_iff.mpr rfl, rfl, rfl⟩

/-- A rule of a style. -/
inductive Declaration
  | color (c : Color)
  | background (c : Color)
  | underline
  deriving DecidableEq, Repr

namespace Declaration

def name : Declaration → String
  | .color _ => "color"
  | .background _ => "background-color"
  | .underline => "text-decoration"

def value : Declaration → String
  | .color c | .background c => c.hex
  | .underline => "underline"

def written (d : Declaration) : List Char := d.name.toList ++ ':' :: d.value.toList

def text (d : Declaration) : String := d.name ++ ":" ++ d.value ++ ";"

theorem toList_text (d : Declaration) : d.text.toList = d.written ++ [';'] := by
  have hcolon : ":".toList = [':'] := by decide
  have hsemicolon : ";".toList = [';'] := by decide
  simp only [text, written, String.toList_append, hcolon, hsemicolon, List.append_assoc, List.cons_append,
    List.nil_append]

def readColor? (value : List Char) : Option Color := (Color.ofHex (String.ofList value)).toOption

def ofNameValue? (name value : List Char) : Option Declaration :=
  if name = "color".toList then (readColor? value).map color
  else if name = "background-color".toList then (readColor? value).map background
  else if name = "text-decoration".toList ∧ value = "underline".toList then some underline
  else none

/-- Reads a rule that stood before a semicolon. -/
def read? (cs : List Char) : Option Declaration :=
  match cs.splitOn ':' with
  | [name, value] => ofNameValue? name value
  | _ => none

/-- Reads what stands between the semicolons, the last of which ends the text. -/
def readAll? : List (List Char) → Option (List Declaration)
  | [[]] => some []
  | cs :: rest => do
    let d ← read? cs
    let ds ← readAll? rest
    return d :: ds
  | [] => none

/-- A rule whose color has channels that are bytes. -/
def InRange : Declaration → Prop
  | .color c | .background c => c.InRange
  | .underline => True

theorem readColor?_hex {c : Color} (h : c.InRange) : readColor? c.hex.toList = some c := by
  rw [readColor?, String.ofList_toList, Color.ofHex_hex h]
  rfl

/-- The marks that end the name and the value of a rule. -/
def IsMark (c : Char) : Prop := c = ':' ∨ c = ';'

theorem not_mem_of_isMark {x : Char} (hx : IsMark x) {cs : List Char} (hcolon : ':' ∉ cs) (hsemicolon : ';' ∉ cs) :
    x ∉ cs := by
  obtain rfl | rfl := hx
  · exact hcolon
  · exact hsemicolon

theorem not_mem_name (d : Declaration) {x : Char} (hx : IsMark x) : x ∉ d.name.toList := by
  have hcolor : ':' ∉ "color".toList ∧ ';' ∉ "color".toList := by decide
  have hbackground : ':' ∉ "background-color".toList ∧ ';' ∉ "background-color".toList := by decide
  have hdecoration : ':' ∉ "text-decoration".toList ∧ ';' ∉ "text-decoration".toList := by decide
  cases d with
  | color c => exact not_mem_of_isMark hx hcolor.1 hcolor.2
  | background c => exact not_mem_of_isMark hx hbackground.1 hbackground.2
  | underline => exact not_mem_of_isMark hx hdecoration.1 hdecoration.2

theorem not_mem_hex {c : Color} (h : c.InRange) {x : Char} (hx : IsMark x) : x ∉ c.hex.toList := by
  obtain ⟨ds, he, -, hds⟩ := Color.hex_isHex h
  have hdigits : x ∉ Text.hexDigits := not_mem_of_isMark hx (by decide) (by decide)
  have hhash : x ∉ ['#'] := not_mem_of_isMark hx (by decide) (by decide)
  rw [he]
  intro hm
  obtain hm | hm := List.mem_cons.mp hm
  · exact hhash (List.mem_singleton.mpr hm)
  · exact hdigits (hds x hm)

section

variable {d : Declaration} (h : d.InRange)

include h

theorem not_mem_value {x : Char} (hx : IsMark x) : x ∉ d.value.toList := by
  have hunderline : ':' ∉ "underline".toList ∧ ';' ∉ "underline".toList := by decide
  cases d with
  | color c | background c => exact not_mem_hex h hx
  | underline => exact not_mem_of_isMark hx hunderline.1 hunderline.2

theorem ofNameValue?_name_value : ofNameValue? d.name.toList d.value.toList = some d := by
  have hbackground : "background-color".toList ≠ "color".toList := by decide
  have hdecoration : "text-decoration".toList ≠ "color".toList := by decide
  have hdecoration' : "text-decoration".toList ≠ "background-color".toList := by decide
  cases d with
  | color c =>
    change ofNameValue? "color".toList c.hex.toList = _
    rw [ofNameValue?, if_pos rfl, readColor?_hex h, Option.map_some]
  | background c =>
    change ofNameValue? "background-color".toList c.hex.toList = _
    rw [ofNameValue?, if_neg hbackground, if_pos rfl, readColor?_hex h, Option.map_some]
  | underline =>
    change ofNameValue? "text-decoration".toList "underline".toList = _
    rw [ofNameValue?, if_neg hdecoration, if_neg hdecoration', if_pos ⟨rfl, rfl⟩]

theorem read?_written : read? d.written = some d := by
  have hsplit : d.written.splitOn ':' = [d.name.toList, d.value.toList] := by
    rw [written, List.splitOn_append_cons_self_of_not_mem (d.not_mem_name (.inl rfl)),
      List.splitOn_eq_singleton (not_mem_value h (.inl rfl))]
  rw [read?, hsplit]
  exact ofNameValue?_name_value h

theorem semicolon_not_mem : ';' ∉ d.written := by
  simp only [written, List.mem_append, List.mem_cons, not_or]
  exact ⟨d.not_mem_name (.inr rfl), by decide, not_mem_value h (.inr rfl)⟩

end

def writtenAll (ds : List Declaration) : List Char := ds.flatMap fun d ↦ d.text.toList

theorem writtenAll_singleton (d : Declaration) : writtenAll [d] = d.text.toList := List.flatMap_singleton ..

theorem readAll?_writtenAll {ds : List Declaration} (h : ∀ d ∈ ds, d.InRange) :
    readAll? ((writtenAll ds).splitOn ';') = some ds := by
  induction ds with
  | nil => rfl
  | cons d ds ih =>
    obtain ⟨hd, hds⟩ := List.forall_mem_cons.mp h
    have hsplit : (writtenAll (d :: ds)).splitOn ';' = d.written :: (writtenAll ds).splitOn ';' := by
      rw [writtenAll, List.flatMap_cons, toList_text, List.append_assoc]
      exact List.splitOn_append_cons_self_of_not_mem (semicolon_not_mem hd) _
    rw [hsplit, readAll?, read?_written hd, ih hds]
    · rfl
    · exact fun _ hnil ↦ absurd hnil (List.splitOn_ne_nil _ _)

end Declaration

namespace Look

def declarations (l : Look) : List Declaration :=
  .color l.foreground :: ((l.background.map .background).toList ++ if l.underline then [.underline] else [])

/-- The look of rules in their order. -/
def ofDeclarations? : List Declaration → Option Look
  | [.color f] => some ⟨f, none, false⟩
  | [.color f, .underline] => some ⟨f, none, true⟩
  | [.color f, .background b] => some ⟨f, some b, false⟩
  | [.color f, .background b, .underline] => some ⟨f, some b, true⟩
  | _ => none

/-- Reads a style back. -/
def ofStyle? (style : String) : Option Look :=
  (Declaration.readAll? (style.toList.splitOn ';')).bind ofDeclarations?

theorem ofDeclarations?_declarations (l : Look) : ofDeclarations? l.declarations = some l := by
  obtain ⟨f, _ | b, _ | _⟩ := l <;> rfl

theorem InRange.declarations {l : Look} (h : l.InRange) : ∀ d ∈ l.declarations, d.InRange := by
  obtain ⟨f, b, u⟩ := l
  intro d hd
  obtain rfl | hd := List.mem_cons.mp hd
  · exact h.foreground
  · obtain hd | hd := List.mem_append.mp hd
    · obtain ⟨c, hc, rfl⟩ := Option.map_eq_some_iff.mp (Option.mem_toList.mp hd)
      exact h.background c hc
    · cases u with
      | false => cases hd
      | true =>
        obtain rfl := List.mem_singleton.mp hd
        trivial

theorem toList_rules (l : Look) : (Markup.rules l).toList = Declaration.writtenAll l.declarations := by
  obtain ⟨f, b, u⟩ := l
  have hforeground : Markup.foregroundRule f = (Declaration.color f).text := by
    have hname : "color:" = "color" ++ ":" := by decide
    unfold Markup.foregroundRule
    rw [hname]
    rfl
  have hbackground : ((b.map Markup.backgroundRule).getD "").toList =
      Declaration.writtenAll (b.map .background).toList := by
    cases b with
    | none => rfl
    | some c =>
      have hname : "background-color:" = "background-color" ++ ":" := by decide
      have hrule : Markup.backgroundRule c = (Declaration.background c).text := by
        unfold Markup.backgroundRule
        rw [hname]
        rfl
      simp only [Option.map_some, Option.getD_some, hrule, Option.toList_some, Declaration.writtenAll_singleton]
  have hunderline : (if u then "text-decoration:underline;" else "").toList =
      Declaration.writtenAll (if u then [.underline] else []) := by
    cases u with
    | false => rfl
    | true =>
      have hrule : "text-decoration:underline;" = Declaration.underline.text := by decide
      simp only [if_true, hrule, Declaration.writtenAll_singleton]
  simp only [Markup.rules, String.toList_append, hforeground, hbackground, hunderline]
  simp only [declarations, Declaration.writtenAll, List.flatMap_cons, List.flatMap_append, List.append_assoc]

theorem ofStyle?_rules {l : Look} (h : l.InRange) : ofStyle? (Markup.rules l) = some l := by
  rw [ofStyle?, toList_rules, Declaration.readAll?_writtenAll h.declarations]
  exact l.ofDeclarations?_declarations

end Look

namespace Markup

/-- A style can be read back as the look that it shows. So two styles are written alike exactly where they show
the same. -/
theorem style_eq_iff (p : Palette) {a b : Style} (ha : a.InRange) (hb : b.InRange) :
    (∃ l, a.Shows p l) ∧ (∀ l, Look.ofStyle? ((html p).style a) = some l ↔ a.Shows p l) ∧
      ((html p).style a = (html p).style b ↔ ∃ l, a.Shows p l ∧ b.Shows p l) := by
  have hread : ∀ {s : Style}, s.InRange → Look.ofStyle? ((html p).style s) = some (s.look p) :=
    fun hs ↦ Look.ofStyle?_rules (Style.look_inRange p hs)
  refine ⟨⟨a.look p, (a.shows_iff p _).mpr rfl⟩, fun l ↦ ?_, ?_, ?_⟩
  · rw [hread ha, a.shows_iff p, Option.some.injEq, eq_comm]
  · intro h
    have hlook : a.look p = b.look p := by
      have hread' := hread hb
      rw [← h, hread ha] at hread'
      exact Option.some.inj hread'
    exact ⟨a.look p, (a.shows_iff p _).mpr rfl, (b.shows_iff p _).mpr hlook⟩
  · rintro ⟨l, hal, hbl⟩
    have hlook : a.look p = b.look p := ((a.shows_iff p l).mp hal).symm.trans ((b.shows_iff p l).mp hbl)
    exact congrArg rules hlook

/-- Default text in inverse video is written like text whose colors are the defaults the other way round. -/
theorem style_eq_iff_of_inverse :
    let a : Style := { inverse := true, underline := true }
    let b : Style := { foreground := some ⟨0, 0, 0⟩, background := some ⟨170, 170, 170⟩, underline := true }
    a.InRange ∧ b.InRange ∧ (html .cga).style a = (html .cga).style b ∧
      Look.ofStyle? ((html .cga).style a) = some ⟨⟨0, 0, 0⟩, some ⟨170, 170, 170⟩, true⟩ := by
  intro a b
  have ha : a.InRange := ⟨nofun, nofun⟩
  have hb : b.InRange := ⟨by rintro c ⟨⟩; decide, by rintro c ⟨⟩; decide⟩
  obtain ⟨-, hread, hiff⟩ := style_eq_iff .cga ha hb
  have hal : a.Shows .cga ⟨⟨0, 0, 0⟩, some ⟨170, 170, 170⟩, true⟩ := ⟨.plain _, rfl, rfl⟩
  have hbl : b.Shows .cga ⟨⟨0, 0, 0⟩, some ⟨170, 170, 170⟩, true⟩ := ⟨.plain _, rfl, rfl⟩
  exact ⟨ha, hb, hiff.mpr ⟨_, hal, hbl⟩, (hread _).mpr hal⟩

end Markup

end TermCapture
