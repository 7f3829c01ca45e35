import TermCapture.Proofs.Charset.Streaming
import TermCapture.Proofs.Screen.Typing
import TermCapture.Proofs.Session.Closing

namespace TermCapture

namespace Utf8

/-- A byte that a session takes, to which the end of a line is none of the bytes of a character. -/
def take (pending : Option Pending) (b : UInt8) : List Char × Option Pending :=
  if b = 0x0a then (['\n'], pending) else next pending b

/-- The characters of the bytes that a session takes. -/
def typed : Option Pending → List UInt8 → List Char
  | pending, [] => flush pending
  | pending, b :: bs => (take pending b).1 ++ typed (take pending b).2 bs

theorem take_length (pending : Option Pending) (b : UInt8) :
    (take pending b).1.length + (flush (take pending b).2).length ≤ (flush pending).length + 1 := by
  unfold take
  split_ifs
  · exact Nat.le_of_eq (Nat.add_comm _ _)
  · exact next_length pending b

/-- No line ends where a character is not complete. -/
def Unbroken (pending : Option Pending) (bs : List UInt8) : Prop :=
  ∀ as, as ++ [0x0a] <+: bs → held pending as = none

theorem unbroken_cons {pending : Option Pending} {b : UInt8} {bs : List UInt8} (hb : b = 0x0a → pending = none) :
    Unbroken pending (b :: bs) ↔ Unbroken (next pending b).2 bs := by
  refine ⟨fun h as has ↦ h (b :: as) (List.cons_prefix_cons.mpr ⟨rfl, has⟩), fun h as has ↦ ?_⟩
  cases as with
  | nil =>
    obtain ⟨rfl, -⟩ := List.cons_prefix_cons.mp has
    exact hb rfl
  | cons a as =>
    obtain ⟨rfl, has'⟩ := List.cons_prefix_cons.mp has
    exact h as has'

theorem typed_eq_stream_iff {pending : Option Pending} (hp : ∀ q ∈ pending, ∃ p, Opens p q) (bs : List UInt8) :
    typed pending bs = stream pending bs ↔ Unbroken pending bs := by
  induction bs generalizing pending with
  | nil => simp [typed, stream, Unbroken]
  | cons b bs ih =>
    rw [typed, stream]
    by_cases hb : b = 0x0a
    · subst hb
      cases pending with
      | none =>
        have hread : next none 0x0a = (['\n'], none) := by decide
        have htake : take none 0x0a = (['\n'], none) := rfl
        rw [unbroken_cons fun _ ↦ rfl, htake, hread, List.append_cancel_left_eq]
        exact ih (by simp)
      | some q =>
        -- the session writes the end of the line first, the bytes say that what is pending comes first
        obtain ⟨p, hopens⟩ := hp q rfl
        have htake : take (some q) 0x0a = (['\n'], some q) := rfl
        have hread : next (some q) 0x0a = restart q 0x0a := hopens.next_of_lt (by decide)
        refine iff_of_false (fun he ↦ ?_) fun h ↦ ?_
        · rw [htake, hread, restart] at he
          cases q <;> cases (List.cons.inj he).1
        · cases h [] (List.cons_prefix_cons.mpr ⟨rfl, List.nil_prefix⟩)
    · have htake : take pending b = next pending b := if_neg hb
      rw [unbroken_cons fun h ↦ absurd h hb, htake, List.append_cancel_left_eq]
      exact ih (next_opened hp)

end Utf8

namespace Session

/-- A session that has taken the characters `cs` and has room for `n` more in its line. -/
structure Typed (s : Session) (cs : List Char) (n : Nat) : Prop where
  finished : s.finished = false
  tokenizer : s.tokenizer = .ground
  screen : s.screen.Typed cs
  room : s.screen.cursor.column + (Utf8.flush s.pending).length + n < s.screen.width

variable {cfg : Config} {s : Session} {cs : List Char}

theorem push_text (hf : s.finished = false) (ht : s.tokenizer = .ground) {b : UInt8} (hb : 0x20 ≤ b)
    {screen : Screen}
    (h : Screen.writeAll s.style (cfg.charset.decode s.pending b).1 s.screen = ⟨screen, none⟩) :
    s.push cfg b = ⟨{ s with
      tokenizer := .ground
      offset := s.offset + 1
      pending := (cfg.charset.decode s.pending b).2
      screen := screen }, none, []⟩ := by
  have hescape : b ≠ 0x1b := by
    rintro rfl
    exact absurd hb (by decide)
  have hperform : (s.moved .ground (s.offset + 1)).perform cfg (.byte b) = ⟨{ s with
      tokenizer := .ground
      offset := s.offset + 1
      pending := (cfg.charset.decode s.pending b).2
      screen := screen }, none, []⟩ := by
    rw [perform, if_pos hb, put_eq, onScreen_eq]
    dsimp only [moved]
    rw [h]
  rw [push_ground hf ht hescape, hperform, settle_of_none rfl]

theorem push_newline (hf : s.finished = false) (ht : s.tokenizer = .ground) {screen : Screen}
    (h : s.screen.newline = ⟨screen, none⟩) :
    s.push cfg 0x0a = ⟨{ s with tokenizer := .ground, offset := s.offset + 1, screen := screen }, none, []⟩ := by
  have hperform : (s.moved .ground (s.offset + 1)).perform cfg (.byte 0x0a) =
      ⟨{ s with tokenizer := .ground, offset := s.offset + 1, screen := screen }, none, []⟩ := by
    change (s.moved .ground (s.offset + 1)).onScreen (·.newline) = _
    rw [onScreen_eq]
    dsimp only [moved]
    rw [h]
  rw [push_ground hf ht (by decide), hperform, settle_of_none rfl]

theorem push_typed (hc : cfg.charset = .utf8) {n : Nat} (h : s.Typed cs (n + 1)) {b : UInt8}
    (hb : 0x20 ≤ b ∨ b = 0x0a) :
    ∃ t, s.push cfg b = ⟨t, none, []⟩ ∧ t.pending = (Utf8.take s.pending b).2 ∧
      t.Typed (cs ++ (Utf8.take s.pending b).1) n := by
  have hroom := h.room
  have hlength := Utf8.take_length s.pending b
  obtain hb | rfl := hb
  · have hline : b ≠ 0x0a := by
      rintro rfl
      exact absurd hb (by decide)
    have htake : Utf8.take s.pending b = cfg.charset.decode s.pending b := by
      rw [hc]
      exact if_neg hline
    rw [htake] at hlength ⊢
    obtain ⟨hfault, htyped, hcolumn, hwidth⟩ := @Screen.Typed.writeAll _ _ h.screen (cfg.charset.decode s.pending b).1
      (by omega) s.style
    have hpush := push_text h.finished h.tokenizer hb (Outcome.eq_of_none hfault)
    refine ⟨_, hpush, rfl, h.finished, rfl, htyped, ?_⟩
    dsimp only
    rw [hcolumn, hwidth]
    omega
  · obtain ⟨hfault, htyped, hcolumn, hwidth⟩ := h.screen.newline
    have hpush : s.push cfg 0x0a = _ := push_newline h.finished h.tokenizer (Outcome.eq_of_none hfault)
    refine ⟨_, hpush, rfl, h.finished, rfl, htyped, ?_⟩
    dsimp only
    rw [hcolumn, hwidth]
    omega

theorem feed_typed (hc : cfg.charset = .utf8) {bs : List UInt8} (h : s.Typed cs bs.length)
    (hbs : ∀ b ∈ bs, 0x20 ≤ b ∨ b = 0x0a) :
    let t := (s.feed cfg bs).session
    (s.feed cfg bs).fault = none ∧ t.finished = false ∧ (t.flushed cfg).fault = none ∧
      (t.flushed cfg).state.Typed (cs ++ Utf8.typed s.pending bs) := by
  induction bs generalizing s cs with
  | nil =>
    obtain ⟨hfault, htyped, -⟩ := @Screen.Typed.writeAll _ _ h.screen (Utf8.flush s.pending) h.room s.style
    have hflushed : s.flushed cfg = Screen.writeAll s.style (Utf8.flush s.pending) s.screen := by
      rw [flushed, hc]
      rfl
    rw [← hflushed] at hfault htyped
    rw [feed_nil]
    exact ⟨rfl, h.finished, hfault, htyped⟩
  | cons b bs ih =>
    obtain ⟨t, hpush, hpending, ht⟩ := push_typed hc h (hbs b List.mem_cons_self)
    obtain ⟨hfault, hfinished, hflushed, htyped⟩ := ih ht fun c hc ↦ hbs c (List.mem_cons_of_mem b hc)
    rw [feed_of_push hpush ht.finished]
    refine ⟨hfault, hfinished, hflushed, ?_⟩
    rwa [hpending, List.append_assoc] at htyped

section

variable (hc : cfg.charset = .utf8) (hlines : cfg.maxLines = none) {bs : List UInt8}
  (hbs : ∀ b ∈ bs, 0x20 ≤ b ∨ b = 0x0a) (hw : bs.length < (start cfg).screen.width)

include hc hlines hbs hw

theorem decode_typed :
    (cfg.decode bs).fault = none ∧
      (cfg.decode bs).session.screen.text = String.ofList (Utf8.typed none bs) := by
  have hstart : (start cfg).Typed [] bs.length := by
    refine ⟨rfl, rfl, ?_, ?_⟩
    · rw [start, hlines]
      exact Screen.empty_typed _ _
    · rwa [← Nat.zero_add bs.length] at hw
  obtain ⟨hfault, hfinished, hflushed, htyped⟩ := feed_typed hc hstart hbs
  have hout := decode_of_open hfault
  rw [close_outcome hfinished, hflushed] at hout
  have hscreen : (cfg.decode bs).session.screen = _ := congrArg (fun o ↦ o.2.1) hout
  refine ⟨congrArg Prod.fst hout, ?_⟩
  rw [hscreen, ← String.ofList_toList (s := Screen.text _), htyped.text]
  rfl

/-- The text of the screen is that of the bytes, with what is no character replaced, exactly if no line ends within
a character: what is pending there is written on the next line, together with bytes that go on with it. -/
theorem text_eq_decoded_iff {cs : List Char} (hcs : Utf8.Decodes bs cs) :
    (cfg.decode bs).fault = none ∧
      ((cfg.decode bs).session.screen.text = String.ofList cs ↔ Utf8.Unbroken none bs) := by
  obtain ⟨hfault, htext⟩ := decode_typed hc hlines hbs hw
  refine ⟨hfault, ?_⟩
  rw [htext, String.ofList_inj, hcs.eq_stream]
  exact Utf8.typed_eq_stream_iff (by simp) bs

end

/-- A line ends behind a character, and the next one ends within one. -/
theorem text_eq_decoded_iff_of_two_lines :
    let cfg : Config := { width := 8 }
    let bs : List UInt8 := [0xc3, 0xa9, 0x0a, 0xe2, 0x82]
    Utf8.Decodes bs ['é', '\n', '\ufffd'] ∧ bs.length < (start cfg).screen.width ∧
      (cfg.decode bs).session.screen.text = "é\n\ufffd" := by
  intro cfg bs
  have hcs : Utf8.Decodes bs ['é', '\n', '\ufffd'] := Utf8.decodes_iff.mpr (by decide)
  have hbs : ∀ b ∈ bs, 0x20 ≤ b ∨ b = 0x0a := by simp [bs]
  have hunbroken : Utf8.Unbroken none bs := by
    rw [Utf8.unbroken_cons (by decide), Utf8.unbroken_cons (by decide), Utf8.unbroken_cons (by decide),
      Utf8.unbroken_cons (by decide), Utf8.unbroken_cons (by decide)]
    simp [Utf8.Unbroken]
  obtain ⟨-, htext⟩ := @text_eq_decoded_iff cfg rfl rfl bs hbs (by decide) _ hcs
  exact ⟨hcs, by decide, htext.mpr hunbroken⟩

/-- A line ends within a character, which goes on in the next one. -/
theorem text_ne_decoded :
    let cfg : Config := {}
    let bs : List UInt8 := [0xc3, 0x0a, 0xa9]
    Utf8.Decodes bs ['\ufffd', '\n', '\ufffd'] ∧ (cfg.decode bs).session.screen.text = "\né" ∧
      "\né" ≠ String.ofList ['\ufffd', '\n', '\ufffd'] := by
  exact ⟨Utf8.decodes_iff.mpr (by decide), by decide +kernel, by decide⟩

end Session

end TermCapture
