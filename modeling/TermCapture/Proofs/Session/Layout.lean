import Mathlib.Algebra.GroupWithZero.Nat
import TermCapture.Proofs.Session.Bounds
import TermCapture.Proofs.Session.Typing

namespace TermCapture

namespace Screen

variable {α : Type} {w : Nat} {cs ds : List α}

/-- The rows that a paragraph takes: the full ones, and one for what is left, which can be nothing. -/
def wrap (w : Nat) (cs : List α) : List (List α) :=
  (List.range (cs.length / w + 1)).map fun i ↦ (cs.drop (i * w)).take w

theorem wrap_length (w : Nat) (cs : List α) : (wrap w cs).length = cs.length / w + 1 := by
  rw [wrap, List.length_map, List.length_range]

theorem wrap_of_lt (h : cs.length < w) : wrap w cs = [cs] := by
  rw [wrap, Nat.div_eq_of_lt h]
  simpa using List.take_of_length_le (Nat.le_of_lt h)

theorem wrap_append (hw : 0 < w) (h : cs.length = w) : wrap w (cs ++ ds) = cs :: wrap w ds := by
  have hrows : (cs ++ ds).length / w = ds.length / w + 1 := by
    rw [List.length_append, h, Nat.add_div_left _ hw]
  have hdrop : ∀ i, (cs ++ ds).drop ((i + 1) * w) = ds.drop (i * w) := by
    intro i
    have hlength : (i + 1) * w = cs.length + i * w := by
      rw [h, Nat.succ_mul, Nat.add_comm]
    rw [hlength, List.drop_length_add_append]
  rw [wrap, hrows, List.range_succ_eq_map, List.map_cons, List.map_map, Nat.zero_mul, List.drop_zero,
    List.take_left' h]
  exact congrArg (cs :: ·) (List.map_congr_left fun i _ ↦ congrArg (List.take w) (hdrop i))

theorem wrap_concat (hw : 0 < w) (cs : List α) :
    ∃ full last, wrap w cs = full ++ [last] ∧ full.map List.length = .replicate (cs.length / w) w ∧
      last.length = cs.length % w := by
  refine ⟨_, _, by rw [wrap, List.range_succ, List.map_append, List.map_singleton], ?_, ?_⟩
  · rw [List.map_map, List.eq_replicate_iff]
    refine ⟨by simp, fun n hn ↦ ?_⟩
    obtain ⟨i, hi, rfl⟩ := List.mem_map.mp hn
    have hle : (i + 1) * w ≤ cs.length :=
      (Nat.mul_le_mul_right w (List.mem_range.mp hi)).trans (Nat.div_mul_le_self _ _)
    rw [Nat.succ_mul] at hle
    simp only [Function.comp_apply, List.length_take, List.length_drop]
    omega
  · have hrest := Nat.div_add_mod' cs.length w
    have hlt := Nat.mod_lt cs.length hw
    simp only [List.length_take, List.length_drop]
    omega

theorem wrap_lengths (hw : 0 < w) (cs : List α) :
    (wrap w cs).map List.length = .replicate (cs.length / w) w ++ [cs.length % w] := by
  obtain ⟨full, last, he, hfull, hlast⟩ := wrap_concat hw cs
  rw [he, List.map_append, hfull, List.map_singleton, hlast]

theorem wrap_flatten (hw : 0 < w) (cs : List α) : (wrap w cs).flatten = cs := by
  induction hn : cs.length using Nat.strong_induction_on generalizing cs with
  | _ n ih =>
    by_cases h : cs.length < w
    · simp [wrap_of_lt h]
    · have htake : (cs.take w).length = w := List.length_take_of_le (Nat.le_of_not_lt h)
      have hdrop : (cs.drop w).length < n := by
        rw [List.length_drop]
        omega
      rw [← List.take_append_drop w cs, wrap_append hw htake, List.flatten_cons, ih _ hdrop _ rfl]

theorem flatMap_wrap_flatten (hw : 0 < w) (ps : List (List α)) : (ps.flatMap (wrap w)).flatten = ps.flatten := by
  induction ps with
  | nil => rfl
  | cons p ps ih => rw [List.flatMap_cons, List.flatten_append, wrap_flatten hw, ih, List.flatten_cons]

/-- The rows of paragraphs that the cells `begun` come before. -/
def rows (w : Nat) (begun : List α) (ps : List (List α)) : List (List α) :=
  (ps.modifyHead (begun ++ ·)).flatMap (wrap w)

theorem rows_nil (w : Nat) (ps : List (List α)) : rows w [] ps = ps.flatMap (wrap w) := by
  cases ps <;> rfl

theorem rows_character (c : α) (ps : List (List α)) :
    rows w cs (ps.modifyHead (c :: ·)) = rows w (cs ++ [c]) ps := by
  cases ps with
  | nil => rfl
  | cons q qs => simp [rows]

theorem rows_break (h : cs.length < w) (ps : List (List α)) : rows w cs ([] :: ps) = cs :: rows w [] ps := by
  rw [rows, List.modifyHead_cons, List.append_nil, List.flatMap_cons, wrap_of_lt h, rows_nil]
  rfl

theorem rows_full (hw : 0 < w) (h : cs.length = w) {ps : List (List α)} (hps : ps ≠ []) :
    rows w cs ps = cs :: rows w [] ps := by
  obtain ⟨q, qs, rfl⟩ := List.exists_cons_of_ne_nil hps
  rw [rows, List.modifyHead_cons, List.flatMap_cons, wrap_append hw h, rows_nil]
  rfl

/-- The rows of all paragraphs end with what is left of the last one. -/
theorem flatMap_wrap_concat (hw : 0 < w) {ps : List (List α)} {p : List α} (hp : ps.getLast? = some p)
    {above : List (List α)} {last : List α} (h : above ++ [last] = ps.flatMap (wrap w)) :
    last.length = p.length % w := by
  obtain ⟨ps, rfl⟩ := List.getLast?_eq_some_iff.mp hp
  obtain ⟨full, rest, he, -, hrest⟩ := wrap_concat hw p
  rw [List.flatMap_append, List.flatMap_singleton, he, ← List.append_assoc] at h
  obtain ⟨-, hlast⟩ := List.append_inj' h rfl
  rw [(List.cons.inj hlast).1, hrest]

end Screen

/-- A character of plain text. -/
def CodePage.cell (p : CodePage) (b : UInt8) : Cell := ⟨p.char b, {}⟩

/-- The bytes that plain text consists of. -/
def PlainByte (b : UInt8) : Prop := 0x20 ≤ b ∨ b = 0x0a ∨ b = 0x0d ∨ b = 0x00

instance : DecidablePred PlainByte := fun _ ↦ inferInstanceAs (Decidable (_ ∨ _))

/-- Plain text without the bytes that it drops, cut at the ends of lines. -/
def paragraphs (bs : List UInt8) : List (List UInt8) := (bs.filter fun b ↦ b ≠ 0x0d ∧ b ≠ 0x00).splitOn 0x0a

theorem paragraphs_ne_nil (bs : List UInt8) : paragraphs bs ≠ [] := List.splitOn_ne_nil _ _

theorem paragraphs_dropped {b : UInt8} (hb : b = 0x0d ∨ b = 0x00) (bs : List UInt8) :
    paragraphs (b :: bs) = paragraphs bs := by
  rw [paragraphs, List.filter_cons_of_neg]
  · rfl
  · obtain rfl | rfl := hb <;> decide

theorem paragraphs_break (bs : List UInt8) : paragraphs (0x0a :: bs) = [] :: paragraphs bs := by
  rw [paragraphs, List.filter_cons_of_pos (by decide), List.splitOn, List.splitOnP_cons_eq_if_modifyHead]
  rfl

theorem paragraphs_character {b : UInt8} (hb : 0x20 ≤ b) (bs : List UInt8) :
    paragraphs (b :: bs) = (paragraphs bs).modifyHead (b :: ·) := by
  have hne : ∀ c : UInt8, c < 0x20 → b ≠ c := fun c hc ↦ (UInt8.ne_of_lt (UInt8.lt_of_lt_of_le hc hb)).symm
  rw [paragraphs, List.filter_cons_of_pos, List.splitOn, List.splitOnP_cons_eq_if_modifyHead, if_neg]
  · rfl
  · simpa using hne 0x0a (by decide)
  · exact decide_eq_true ⟨hne 0x0d (by decide), hne 0x00 (by decide)⟩

theorem paragraphs_flatten {bs : List UInt8} (hbs : ∀ b ∈ bs, PlainByte b) :
    (paragraphs bs).flatten = bs.filter (0x20 ≤ ·) := by
  induction bs with
  | nil => rfl
  | cons b bs ih =>
    specialize ih fun c hc ↦ hbs c (List.mem_cons_of_mem b hc)
    obtain hb | rfl | hb := hbs b List.mem_cons_self
    · obtain ⟨q, qs, hq⟩ := List.exists_cons_of_ne_nil (paragraphs_ne_nil bs)
      rw [hq] at ih
      rw [paragraphs_character hb, List.filter_cons_of_pos (by simpa using hb), hq, ← ih]
      rfl
    · rw [paragraphs_break, List.filter_cons_of_neg (by decide), ← ih]
      rfl
    · rw [paragraphs_dropped hb, List.filter_cons_of_neg, ih]
      obtain rfl | rfl := hb <;> decide

namespace Session

/-- A session in the middle of plain text, with the cursor behind the cells of the last line. -/
structure Plain (s : Session) (above : List Line) (last : Line) : Prop where
  finished : s.finished = false
  tokenizer : s.tokenizer = .ground
  style : s.style = {}
  screen : s.screen.AtEnd above last
  room : last.size < s.screen.width

variable {cfg : Config} {s : Session} {above : List Line} {last : Line} {p : CodePage}

theorem Plain.dropped (cfg : Config) (h : s.Plain above last) {b : UInt8} (hb : b = 0x0d ∨ b = 0x00) :
    ∃ t, s.push cfg b = ⟨t, none, []⟩ ∧ t.Plain above last ∧ t.screen.width = s.screen.width := by
  have hcontrol : (s.moved .ground (s.offset + 1)).perform cfg (.byte b) =
      ⟨s.moved .ground (s.offset + 1), none, []⟩ := by
    obtain rfl | rfl := hb <;> rfl
  have hescape : b ≠ 0x1b := by
    obtain rfl | rfl := hb <;> decide
  rw [push_ground h.finished h.tokenizer hescape, hcontrol, settle_of_none rfl]
  exact ⟨_, rfl, ⟨h.finished, rfl, h.style, h.screen, h.room⟩, rfl⟩

theorem Plain.newline (cfg : Config) (h : s.Plain above last) :
    ∃ t, s.push cfg 0x0a = ⟨t, none, []⟩ ∧ t.Plain (above ++ [last]) #[] ∧ t.screen.width = s.screen.width := by
  obtain ⟨screen, hscreen, hatEnd, hwidth⟩ := h.screen.newline
  refine ⟨_, push_newline h.finished h.tokenizer hscreen, ⟨h.finished, rfl, h.style, hatEnd, ?_⟩, hwidth⟩
  rw [hwidth]
  exact Nat.zero_lt_of_lt h.room

/-- A character goes behind the others, and the line is left if it is full then. -/
theorem Plain.character (hc : cfg.charset = .page p) (h : s.Plain above last) {b : UInt8} (hb : 0x20 ≤ b) :
    ∃ t, s.push cfg b = ⟨t, none, []⟩ ∧ t.screen.width = s.screen.width ∧
      if last.size + 1 < s.screen.width then t.Plain above (last.push (p.cell b))
      else t.Plain (above ++ [last.push (p.cell b)]) #[] := by
  have hwrite : ∀ screen, s.screen.write (p.char b) {} = ⟨screen, none⟩ →
      Screen.writeAll s.style (cfg.charset.decode s.pending b).1 s.screen = ⟨screen, none⟩ := by
    intro screen hscreen
    rw [hc, Charset.decode, Screen.writeAll, h.style, hscreen]
    rfl
  split_ifs with hw
  · obtain ⟨screen, hscreen, hatEnd, hwidth⟩ := h.screen.write hw (p.char b) {}
    have hpush := push_text h.finished h.tokenizer hb (hwrite screen hscreen)
    refine ⟨_, hpush, hwidth, h.finished, rfl, h.style, hatEnd, ?_⟩
    rwa [Array.size_push, hwidth]
  · obtain ⟨screen, hscreen, hatEnd, hwidth⟩ := h.screen.write_full (Nat.le_of_not_lt hw) (p.char b) {}
    have hpush := push_text h.finished h.tokenizer hb (hwrite screen hscreen)
    refine ⟨_, hpush, hwidth, h.finished, rfl, h.style, hatEnd, ?_⟩
    rw [hwidth]
    exact Nat.zero_lt_of_lt h.room

open Screen (wrap rows)

theorem map_paragraphs_character {α : Type} (f : UInt8 → α) {b : UInt8} (hb : 0x20 ≤ b) (bs : List UInt8) :
    (paragraphs (b :: bs)).map (List.map f) = ((paragraphs bs).map (List.map f)).modifyHead (f b :: ·) := by
  obtain ⟨q, qs, hq⟩ := List.exists_cons_of_ne_nil (paragraphs_ne_nil bs)
  rw [paragraphs_character hb, hq]
  rfl

theorem feed_plain (hc : cfg.charset = .page p) (h : s.Plain above last) {bs : List UInt8}
    (hbs : ∀ b ∈ bs, PlainByte b) :
    ∃ above' last', (s.feed cfg bs).fault = none ∧ (s.feed cfg bs).session.Plain above' last' ∧
      (above' ++ [last']).map Array.toList =
        above.map Array.toList ++ rows s.screen.width last.toList ((paragraphs bs).map (List.map p.cell)) := by
  -- a byte goes from the first paragraph of the rest to the last line, which is a row once it is left
  induction bs generalizing s above last with
  | nil =>
    have hrows : rows s.screen.width last.toList [[]] = [last.toList] := Screen.rows_break h.room []
    refine ⟨above, last, rfl, h, ?_⟩
    rw [List.map_append, List.map_singleton, ← hrows]
    rfl
  | cons b bs ih =>
    have hbs' : ∀ c ∈ bs, PlainByte c := fun c hc ↦ hbs c (List.mem_cons_of_mem b hc)
    have hpos : 0 < s.screen.width := Nat.zero_lt_of_lt h.room
    obtain hb | rfl | hb := hbs b List.mem_cons_self
    · obtain ⟨t, hpush, hwidth, ht⟩ := h.character hc hb
      have hrows : rows s.screen.width last.toList ((paragraphs (b :: bs)).map (List.map p.cell)) =
          rows s.screen.width (last.push (p.cell b)).toList ((paragraphs bs).map (List.map p.cell)) := by
        rw [map_paragraphs_character p.cell hb, Screen.rows_character, Array.toList_push]
      rw [hrows, ← hwidth]
      split_ifs at ht with hw
      · rw [feed_of_push hpush ht.finished]
        exact ih ht hbs'
      · have hfull : (last.push (p.cell b)).toList.length = t.screen.width := by
          have hroom := h.room
          rw [Array.length_toList, Array.size_push]
          omega
        obtain ⟨above', last', hfault, hplain, hlines⟩ := ih ht hbs'
        rw [feed_of_push hpush ht.finished]
        refine ⟨above', last', hfault, hplain, ?_⟩
        rw [hlines, Screen.rows_full (hwidth ▸ hpos) hfull (by simpa using paragraphs_ne_nil bs), List.map_append,
          List.append_assoc]
        rfl
    · obtain ⟨t, hpush, ht, hwidth⟩ := h.newline cfg
      obtain ⟨above', last', hfault, hplain, hlines⟩ := ih ht hbs'
      rw [feed_of_push hpush ht.finished]
      refine ⟨above', last', hfault, hplain, ?_⟩
      rw [hlines, paragraphs_break, hwidth, List.map_cons, List.map_nil, Screen.rows_break h.room, List.map_append,
        List.append_assoc]
      rfl
    · obtain ⟨t, hpush, ht, hwidth⟩ := h.dropped cfg hb
      rw [feed_of_push hpush ht.finished, paragraphs_dropped hb, ← hwidth]
      exact ih ht hbs'

section

variable (hc : cfg.charset = .page p) (hlines : cfg.maxLines = none) {bs : List UInt8}
  (hbs : ∀ b ∈ bs, PlainByte b)

include hc hlines hbs

theorem decode_plain :
    ∃ above last, (cfg.decode bs).fault = none ∧ (cfg.decode bs).session.screen.AtEnd above last ∧
      (above ++ [last]).map Array.toList = ((paragraphs bs).map (List.map p.cell)).flatMap (wrap cfg.width) := by
  have hwidth : (start cfg).screen.width = cfg.width := (start_bounded cfg).bounded.width_eq
  have hstart : (start cfg).Plain [] #[] := by
    refine ⟨rfl, rfl, rfl, ⟨?_, rfl, rfl, rfl⟩, ?_⟩
    · rw [start, hlines]
      rfl
    · rw [hwidth]
      exact cfg.width_pos
  obtain ⟨above, last, hfault, hplain, hrows⟩ := feed_plain hc hstart hbs
  have hflushed : ((start cfg).feed cfg bs).session.flushed cfg = ⟨((start cfg).feed cfg bs).session.screen, none⟩ := by
    rw [flushed, hc]
    rfl
  have hout := decode_of_open hfault
  rw [close_outcome hplain.finished, hflushed] at hout
  have hscreen : (cfg.decode bs).session.screen = _ := congrArg (fun o ↦ o.2.1) hout
  refine ⟨above, last, congrArg Prod.fst hout, hscreen ▸ hplain.screen, ?_⟩
  rw [hrows, hwidth, Screen.rows_nil]
  rfl

/-- Plain text is laid out without loss: a paragraph of `n` characters takes `n / width` full rows and one with the
rest, even if there is none, and the cursor stands behind the last character. -/
theorem plain_text_layout :
    let lines := (cfg.decode bs).session.screen.lines.toList.map Array.toList
    let cursor := (cfg.decode bs).session.screen.cursor
    (cfg.decode bs).fault = none ∧
      lines = ((paragraphs bs).map (List.map p.cell)).flatMap (wrap cfg.width) ∧
      (∀ cs : List Cell, (wrap cfg.width cs).flatten = cs ∧ (wrap cfg.width cs).map List.length =
        .replicate (cs.length / cfg.width) cfg.width ++ [cs.length % cfg.width]) ∧
      lines.length = ((paragraphs bs).map fun l ↦ l.length / cfg.width + 1).sum ∧
      cursor.row + 1 = lines.length ∧
      (∃ l, (paragraphs bs).getLast? = some l ∧ cursor.column = l.length % cfg.width) ∧
      lines.flatten = (bs.filter (0x20 ≤ ·)).map p.cell := by
  intro lines cursor
  obtain ⟨above, last, hfault, hatEnd, hrows⟩ := decode_plain hc hlines hbs
  have hlines : lines = (above ++ [last]).map Array.toList := congrArg (List.map Array.toList) hatEnd.lines
  rw [hlines, hrows]
  refine ⟨hfault, rfl, fun cs ↦ ⟨Screen.wrap_flatten cfg.width_pos cs, Screen.wrap_lengths cfg.width_pos cs⟩,
    ?_, ?_, ?_, ?_⟩
  · rw [List.length_flatMap, List.map_map]
    refine congrArg List.sum (List.map_congr_left fun l _ ↦ ?_)
    rw [Function.comp_apply, Screen.wrap_length, List.length_map]
  · rw [← hrows, List.length_map, List.length_append, List.length_singleton]
    exact congrArg (· + 1) hatEnd.row
  · refine ⟨_, List.getLast?_eq_some_getLast (paragraphs_ne_nil bs), ?_⟩
    generalize hl : (paragraphs bs).getLast (paragraphs_ne_nil bs) = l
    have hlast : ((paragraphs bs).map (List.map p.cell)).getLast? = some (l.map p.cell) := by
      rw [List.getLast?_map, List.getLast?_eq_some_getLast (paragraphs_ne_nil bs), hl]
      rfl
    rw [List.map_append] at hrows
    have hlength := Screen.flatMap_wrap_concat cfg.width_pos hlast hrows
    rwa [Array.length_toList, List.length_map, ← hatEnd.column] at hlength
  · rw [Screen.flatMap_wrap_flatten cfg.width_pos, ← List.map_flatten, paragraphs_flatten hbs]

end

/-- Two paragraphs fill their last row, so that an empty one comes behind it. -/
theorem plain_text_layout_of_full_rows :
    let cfg : Config := { width := 3, charset := .page .cp437, maxColumns := some 1 }
    let bs : List UInt8 :=
      [0x61, 0x62, 0x63, 0x0d, 0x0a, 0x64, 0x00, 0x82, 0x65, 0x66, 0x67, 0x68, 0x0a, 0x69]
    let texts : List (List Char) := [['a', 'b', 'c'], [], ['d', 'é', 'e'], ['f', 'g', 'h'], [], ['i']]
    (∀ b ∈ bs, PlainByte b) ∧ (paragraphs bs).map List.length = [3, 6, 1] ∧
      ((cfg.decode bs).session.screen.lines.toList.map Array.toList).map (List.map Cell.char) = texts ∧
      (cfg.decode bs).session.screen.cursor.row = 5 ∧ (cfg.decode bs).session.screen.cursor.column = 1 := by
  intro cfg bs texts
  have hbs : ∀ b ∈ bs, PlainByte b := by decide +kernel
  have hlast : (paragraphs bs).getLast? = some [0x69] := by decide +kernel
  have hsum : ((paragraphs bs).map fun l ↦ l.length / cfg.width + 1).sum = 6 := by decide +kernel
  have hrows : (((paragraphs bs).map (List.map CodePage.cp437.cell)).flatMap (wrap 3)).map (List.map Cell.char) =
      texts := by decide +kernel
  obtain ⟨-, hlines, -, hcount, hrow, ⟨l, hl, hcolumn⟩, -⟩ := @plain_text_layout cfg _ rfl rfl bs hbs
  obtain rfl : l = [0x69] := Option.some.inj (hl.symm.trans hlast)
  refine ⟨hbs, by decide +kernel, ?_, ?_, ?_⟩
  · rw [hlines]
    exact hrows
  · rw [hcount, hsum] at hrow
    exact Nat.succ.inj hrow
  · rw [hcolumn]
    rfl

end Session

end TermCapture
