import Mathlib.Data.List.TakeWhile
import TermCapture.Sequence

namespace TermCapture

/-- The words of a text: a byte of its own, a control sequence, an escape with another byte behind it, and
an escape or a sequence that the end of the text cuts short. -/
inductive Lexeme
  | byte (b : UInt8)
  | sequence (body : List UInt8) (final : UInt8)
  | escape (b : UInt8)
  | cut
  deriving DecidableEq, Repr

namespace Lexeme

/-- How a text is cut into words from the left. A body goes on as long as it can. -/
inductive Cutting : List UInt8 → List Lexeme → Prop
  | nil : Cutting [] []
  | byte {b bs ls} (hb : b ≠ 0x1b) (h : Cutting bs ls) : Cutting (b :: bs) (.byte b :: ls)
  | escape {b bs ls} (hb : b ≠ 0x5b) (h : Cutting bs ls) : Cutting (0x1b :: b :: bs) (.escape b :: ls)
  | sequence {body final bs ls} (hbody : ∀ b ∈ body, Sequence.continues b = true)
      (hfinal : Sequence.continues final = false) (h : Cutting bs ls) :
      Cutting (0x1b :: 0x5b :: (body ++ final :: bs)) (.sequence body final :: ls)
  | cutEscape : Cutting [0x1b] [.cut]
  | cutSequence {body} (hbody : ∀ b ∈ body, Sequence.continues b = true) :
      Cutting (0x1b :: 0x5b :: body) [.cut]

theorem length_lt_of_dropWhile {b c final : UInt8} {bs rest : List UInt8}
    (h : bs.dropWhile Sequence.continues = final :: rest) : rest.length < (b :: c :: bs).length := by
  have hle := List.length_dropWhile_le Sequence.continues bs
  rw [h] at hle
  simp only [List.length_cons] at hle ⊢
  omega

def lex : List UInt8 → List Lexeme
  | [] => []
  | b :: bs =>
    if b ≠ 0x1b then .byte b :: lex bs
    else match bs with
      | [] => [.cut]
      | c :: bs =>
        if c ≠ 0x5b then .escape c :: lex bs
        else match _h : bs.dropWhile Sequence.continues with
          | [] => [.cut]
          | final :: rest => .sequence (bs.takeWhile Sequence.continues) final :: lex rest
  termination_by bs => bs.length
  decreasing_by
    · simp
    · simp only [List.length_cons]
      omega
    · exact length_lt_of_dropWhile _h

theorem cutting_lex (bs : List UInt8) : Cutting bs (lex bs) := by
  fun_induction lex bs with
  | case1 => exact .nil
  | case2 b bs hb ih => exact .byte hb ih
  | case3 b hb =>
    rw [Decidable.not_not.mp hb]
    exact .cutEscape
  | case4 b hb c bs hc ih =>
    rw [Decidable.not_not.mp hb]
    exact .escape hc ih
  | case5 b hb c bs hc h =>
    rw [Decidable.not_not.mp hb, Decidable.not_not.mp hc]
    exact .cutSequence (List.dropWhile_eq_nil_iff.mp h)
  | case6 b hb c bs hc final rest h ih =>
    have hfinal := List.head_dropWhile_not Sequence.continues (l := bs) (by simp [h])
    simp only [h, List.head_cons] at hfinal
    have hbs := List.takeWhile_append_dropWhile (p := Sequence.continues) (l := bs)
    rw [h] at hbs
    rw [Decidable.not_not.mp hb, Decidable.not_not.mp hc]
    conv => lhs; rw [← hbs]
    exact .sequence (fun c hc ↦ List.mem_takeWhile_imp hc) hfinal ih

theorem Cutting.eq_lex {bs : List UInt8} {ls : List Lexeme} (h : Cutting bs ls) : ls = lex bs := by
  induction h with
  | nil => unfold lex; rfl
  | byte hb h ih =>
    unfold lex
    rw [if_pos hb, ih]
  | escape hb h ih =>
    unfold lex
    rw [if_neg (by decide)]
    dsimp only
    rw [if_pos hb, ih]
  | @sequence body final bs ls hbody hfinal h ih =>
    have hdrop : (body ++ final :: bs).dropWhile Sequence.continues = final :: bs := by
      rw [List.dropWhile_append_of_pos hbody, List.dropWhile_cons_of_neg (by simp [hfinal])]
    have htake : (body ++ final :: bs).takeWhile Sequence.continues = body := by
      rw [List.takeWhile_append_of_pos hbody, List.takeWhile_cons_of_neg (by simp [hfinal]), List.append_nil]
    unfold lex
    rw [if_neg (by decide)]
    dsimp only
    rw [if_neg (by decide)]
    split
    · rename_i h
      rw [hdrop] at h
      cases h
    · rename_i h
      rw [hdrop] at h
      cases h
      rw [htake, ih]
  | cutEscape => unfold lex; rfl
  | @cutSequence body hbody =>
    unfold lex
    rw [if_neg (by decide)]
    dsimp only
    rw [if_neg (by decide)]
    split
    · rfl
    · rename_i h
      rw [List.dropWhile_eq_nil_iff.mpr hbody] at h
      cases h

end Lexeme

end TermCapture
