import Mathlib.Data.List.Infix
import TermCapture.Markup

namespace TermCapture

namespace Html

/-- The text that an escaped one stands for. -/
def unescape : List Char → List Char
  | '&' :: 'a' :: 'm' :: 'p' :: ';' :: cs => '&' :: unescape cs
  | '&' :: 'l' :: 't' :: ';' :: cs => '<' :: unescape cs
  | '&' :: 'g' :: 't' :: ';' :: cs => '>' :: unescape cs
  | '&' :: 'q' :: 'u' :: 'o' :: 't' :: ';' :: cs => '"' :: unescape cs
  | '&' :: '#' :: 'x' :: '2' :: '7' :: ';' :: cs => '\'' :: unescape cs
  | c :: cs => c :: unescape cs
  | [] => []

/-- What is left of a text without its tags. -/
def stripTags : (inTag : Bool) → List Char → List Char
  | _, [] => []
  | false, c :: cs => if c = '<' then stripTags true cs else c :: stripTags false cs
  | true, c :: cs => stripTags (c != '>') cs

structure Span where
  style : List Char
  text : List Char
  deriving DecidableEq, Repr

/-- The style of the element around the lines, and the spans of every line. -/
structure Document where
  style : List Char
  lines : List (List Span)
  deriving DecidableEq, Repr

/-- The style of a tag that has this attribute and no other one. -/
def style? (element : String) (tag : List Char) : Option (List Char) :=
  match tag.splitOn '"' with
  | [name, value, []] => if name = element.toList ++ " style=".toList then some (unescape value) else none
  | _ => none

/-- What stands between the angle brackets. -/
def pieces (cs : List Char) : List (List Char) := cs.splitOnP fun c ↦ c == '<' || c == '>'

/-- Spans one behind the other, with no text between them and no tag in theirs. -/
def spans? : List (List Char) → Option (List Span)
  | [[]] => some []
  | [] :: tag :: text :: close :: rest =>
    if close = "/span".toList then do
      let style ← style? "span" tag
      let spans ← spans? rest
      return ⟨style, unescape text⟩ :: spans
    else none
  | _ => none

def document? : List Char → Option Document
  | '<' :: cs => do
    let style ← style? "div" (cs.takeWhile (· != '>'))
    let body ← ((cs.dropWhile (· != '>')).drop 1).dropSuffix? "</div>".toList
    let lines ← (body.splitOn '\n').mapM fun line ↦ spans? (pieces line)
    return ⟨style, lines⟩
  | _ => none

/-- A text that ends no text, tag, attribute or line. -/
def Inert (cs : List Char) : Prop := ∀ c ∈ cs, c ≠ '<' ∧ c ≠ '>' ∧ c ≠ '"' ∧ c ≠ '\n'

/-- A text that is written as it is. -/
def Plain (cs : List Char) : Prop := ∀ c ∈ cs, Markup.escapeChar c = [c] ∧ c ≠ '\n'

instance : DecidablePred Inert := List.decidableBAll _

instance : DecidablePred Plain := List.decidableBAll _

section

variable {cs : List Char} (h : Inert cs)

include h

theorem Inert.lt : '<' ∉ cs := fun hm ↦ (h _ hm).1 rfl

theorem Inert.gt : '>' ∉ cs := fun hm ↦ (h _ hm).2.1 rfl

theorem Inert.quot : '"' ∉ cs := fun hm ↦ (h _ hm).2.2.1 rfl

theorem Inert.newline : '\n' ∉ cs := fun hm ↦ (h _ hm).2.2.2 rfl

end

theorem Plain.append {as bs : List Char} (ha : Plain as) (hb : Plain bs) : Plain (as ++ bs) := by
  intro c hc
  obtain hc | hc := List.mem_append.mp hc
  · exact ha c hc
  · exact hb c hc

open Markup (escapeChar escapeHtml)

theorem escape_append (as bs : List Char) : escapeHtml (as ++ bs) = escapeHtml as ++ escapeHtml bs :=
  List.flatMap_append

theorem Plain.escape {cs : List Char} (h : Plain cs) : escapeHtml cs = cs := by
  induction cs with
  | nil => rfl
  | cons c cs ih =>
    have htail : escapeHtml cs = cs := ih fun d hd ↦ h d (List.mem_cons_of_mem c hd)
    rw [escapeHtml, List.flatMap_cons, (h c List.mem_cons_self).1]
    exact congrArg (c :: ·) htail

theorem escapeChar_inert {c : Char} (h : c ≠ '\n') : Inert (escapeChar c) := by
  unfold escapeChar
  split
  · decide
  · decide
  · decide
  · decide
  · decide
  · rename_i hlt hgt hquot _
    intro d hd
    rw [List.mem_singleton] at hd
    subst hd
    exact ⟨hlt, hgt, hquot, h⟩

theorem escape_inert {cs : List Char} (h : '\n' ∉ cs) : Inert (escapeHtml cs) := by
  intro d hd
  obtain ⟨c, hc, hd⟩ := List.mem_flatMap.mp hd
  refine escapeChar_inert ?_ d hd
  rintro rfl
  exact h hc

theorem Plain.inert {cs : List Char} (h : Plain cs) : Inert cs := by
  have hescape : Inert (escapeHtml cs) := escape_inert fun hm ↦ (h _ hm).2 rfl
  rwa [h.escape] at hescape

theorem unescape_cons {c : Char} (h : c ≠ '&') (cs : List Char) : unescape (c :: cs) = c :: unescape cs := by
  rw [unescape] <;> exact fun _ hc ↦ absurd hc h

theorem unescape_escape_append (cs rest : List Char) :
    unescape (escapeHtml cs ++ rest) = cs ++ unescape rest := by
  induction cs with
  | nil => rfl
  | cons c cs ih =>
    have hchar : ∀ t, unescape (escapeChar c ++ t) = c :: unescape t := by
      intro t
      unfold escapeChar
      split
      · rfl
      · rfl
      · rfl
      · rfl
      · rfl
      · rename_i hamp _ _ _ _
        exact unescape_cons hamp t
    rw [escapeHtml, List.flatMap_cons, List.append_assoc, hchar]
    exact congrArg (c :: ·) ih

theorem unescape_escape (cs : List Char) : unescape (escapeHtml cs) = cs := by
  have := unescape_escape_append cs []
  rwa [List.append_nil, unescape, List.append_nil] at this

theorem pieces_append {cs : List Char} (hlt : '<' ∉ cs) (hgt : '>' ∉ cs) {c : Char} (hc : c = '<' ∨ c = '>')
    (rest : List Char) : pieces (cs ++ c :: rest) = cs :: pieces rest := by
  refine List.splitOnP_append_cons_of_forall_mem ?_ c ?_ rest
  · intro d hd
    have hd' : d ≠ '<' ∧ d ≠ '>' := ⟨fun he ↦ hlt (he ▸ hd), fun he ↦ hgt (he ▸ hd)⟩
    simp [hd']
  · simpa using hc

theorem stripTags_text {cs : List Char} (h : '<' ∉ cs) (rest : List Char) :
    stripTags false (cs ++ rest) = cs ++ stripTags false rest := by
  induction cs with
  | nil => rfl
  | cons c cs ih =>
    have hc : c ≠ '<' := fun he ↦ h (he ▸ List.mem_cons_self)
    rw [List.cons_append, stripTags, if_neg hc, ih fun hm ↦ h (List.mem_cons_of_mem c hm)]
    rfl

theorem stripTags_tag {tag : List Char} (h : '>' ∉ tag) (rest : List Char) :
    stripTags false ('<' :: (tag ++ '>' :: rest)) = stripTags false rest := by
  have hinside : stripTags true (tag ++ '>' :: rest) = stripTags false rest := by
    induction tag with
    | nil => rfl
    | cons c tag ih =>
      have hc : (c != '>') = true := by
        rw [bne_iff_ne]
        exact fun he ↦ h (he ▸ List.mem_cons_self)
      rw [List.cons_append, stripTags, hc, ih fun hm ↦ h (List.mem_cons_of_mem c hm)]
  exact hinside

/-- A tag with a style and no other attribute. -/
def tag (element : String) (style : List Char) : List Char :=
  element.toList ++ " style=".toList ++ '"' :: (style ++ ['"'])

section

variable {element : String} (he : Plain element.toList) {style : List Char} (h : Plain style)

include he h

theorem mem_tag {c : Char} (hc : c ∈ tag element style) : c ≠ '<' ∧ c ≠ '>' ∧ c ≠ '\n' := by
  have hinert : ∀ {cs : List Char}, Plain cs → c ∈ cs → c ≠ '<' ∧ c ≠ '>' ∧ c ≠ '\n' := by
    intro cs hcs hc
    obtain ⟨hlt, hgt, -, hnewline⟩ := hcs.inert c hc
    exact ⟨hlt, hgt, hnewline⟩
  have hquot : c = '"' → c ≠ '<' ∧ c ≠ '>' ∧ c ≠ '\n' := by
    rintro rfl
    decide
  obtain hc | hc := List.mem_append.mp hc
  · exact hinert (he.append (by decide)) hc
  · obtain hc | hc := List.mem_cons.mp hc
    · exact hquot hc
    · obtain hc | hc := List.mem_append.mp hc
      · exact hinert h hc
      · exact hquot (List.mem_singleton.mp hc)

theorem style?_tag : style? element (tag element style) = some style := by
  have hstyle : unescape style = style := by
    have := unescape_escape style
    rwa [h.escape] at this
  have hname : Plain (element.toList ++ " style=".toList) := he.append (by decide)
  rw [style?, tag, List.splitOn_append_cons_self_of_not_mem hname.inert.quot,
    List.splitOn_append_cons_self_of_not_mem h.inert.quot]
  exact (if_pos rfl).trans (congrArg some hstyle)

end

end Html

end TermCapture
