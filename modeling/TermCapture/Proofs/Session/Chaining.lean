import TermCapture.Proofs.Session.Steps

namespace TermCapture

/-- What a step leaves, without its notes. -/
def Step.result (r : Step) : Outcome Session := ⟨r.session, r.fault⟩

/-- Goes on behind a step, unless a fault stops it or the session is finished. -/
def Step.andThen (r : Step) (f : Session → Step) : Step :=
  if r.fault.isSome || r.session.finished then r
  else ⟨(f r.session).session, (f r.session).fault, r.notes ++ (f r.session).notes⟩

theorem Step.andThen_of_fault {r : Step} {e : Fault} (h : r.fault = some e) (f : Session → Step) :
    r.andThen f = r := by
  rw [andThen, h]
  rfl

theorem Step.andThen_of_finished {r : Step} (h : r.session.finished = true) (f : Session → Step) :
    r.andThen f = r := by
  rw [andThen, h, Bool.or_true]
  rfl

theorem Step.andThen_of_open {r : Step} (h : r.fault = none) (hf : r.session.finished = false) (f : Session → Step) :
    r.andThen f = ⟨(f r.session).session, (f r.session).fault, r.notes ++ (f r.session).notes⟩ := by
  rw [andThen, h, hf]
  rfl

theorem Step.fault_of_andThen {r : Step} {f : Session → Step} (h : (r.andThen f).fault = none) : r.fault = none := by
  obtain ⟨s, _ | e, notes⟩ := r
  · rfl
  · cases h

theorem Step.andThen_assoc (r : Step) (f g : Session → Step) :
    (r.andThen f).andThen g = r.andThen fun s ↦ (f s).andThen g := by
  obtain ⟨s, _ | e, notes⟩ := r
  · cases hf : s.finished with
    | true =>
      have hstop := @andThen_of_finished ⟨s, none, notes⟩ hf
      rw [hstop, hstop, hstop]
    | false =>
      have hopen := @andThen_of_open ⟨s, none, notes⟩ rfl hf
      rw [hopen, hopen]
      unfold andThen
      split
      · rfl
      · rw [List.append_assoc]
  · rfl

namespace Session

variable {cfg : Config} {s : Session}

theorem feedFrom_log (bs : List UInt8) (s : Session) (log : List Note) :
    s.feedFrom cfg bs log =
      ⟨(s.feed cfg bs).session, (s.feed cfg bs).fault, log.reverse ++ (s.feed cfg bs).notes⟩ := by
  induction bs generalizing s log with
  | nil => simp [feed, feedFrom]
  | cons b bs ih =>
    unfold feed feedFrom
    dsimp only
    split
    · simp [List.reverseAux_eq]
    · rw [ih, ih _ ((s.push cfg b).notes.reverseAux [])]
      simp [List.reverseAux_eq]

theorem feed_nil (cfg : Config) (s : Session) : s.feed cfg [] = ⟨s, none, []⟩ := rfl

theorem feed_cons (cfg : Config) (s : Session) (b : UInt8) (bs : List UInt8) :
    s.feed cfg (b :: bs) = (s.push cfg b).andThen (·.feed cfg bs) := by
  rw [feed, feedFrom, Step.andThen]
  split
  · simp [List.reverseAux_eq]
  · rw [feedFrom_log]
    simp [List.reverseAux_eq]

theorem feed_of_push {t : Session} {b : UInt8} (h : s.push cfg b = ⟨t, none, []⟩) (hf : t.finished = false)
    (bs : List UInt8) : s.feed cfg (b :: bs) = t.feed cfg bs := by
  rw [feed_cons, h, Step.andThen_of_open rfl hf]
  rfl

theorem feed_singleton (cfg : Config) (s : Session) (b : UInt8) : s.feed cfg [b] = s.push cfg b := by
  rw [feed_cons]
  obtain ⟨t, _ | f, notes⟩ := s.push cfg b
  · cases hf : t.finished with
    | true => exact Step.andThen_of_finished (r := ⟨t, none, notes⟩) hf _
    | false => rw [Step.andThen_of_open (r := ⟨t, none, notes⟩) rfl hf, feed_nil, List.append_nil]
  · rfl

theorem feed_append (cfg : Config) (s : Session) (as bs : List UInt8) :
    s.feed cfg (as ++ bs) = (s.feed cfg as).andThen (·.feed cfg bs) := by
  induction as generalizing s with
  | nil =>
    rw [List.nil_append, feed_nil]
    cases hf : s.finished with
    | true =>
      rw [Step.andThen_of_finished (r := ⟨s, none, []⟩) hf]
      exact feedFrom_finished hf bs []
    | false => exact (Step.andThen_of_open (r := ⟨s, none, []⟩) rfl hf (·.feed cfg bs)).symm
  | cons a as ih =>
    rw [List.cons_append, feed_cons, feed_cons, Step.andThen_assoc]
    congr 1
    exact funext ih

theorem result_feed_cons (cfg : Config) (s : Session) (b : UInt8) (bs : List UInt8) :
    (s.feed cfg (b :: bs)).result = (s.push cfg b).result.andThen fun t ↦ (t.feed cfg bs).result := by
  rw [feed_cons]
  generalize s.push cfg b = r
  obtain ⟨t, _ | f, notes⟩ := r
  · cases hf : t.finished with
    | true =>
      rw [Step.andThen_of_finished hf]
      exact (congrArg Step.result (feedFrom_finished hf bs [])).symm
    | false =>
      rw [Step.andThen_of_open rfl hf]
      rfl
  · rfl

theorem result_read (cfg : Config) (s : Session) (bs : List UInt8) :
    (s.read cfg bs).result = (s.feed cfg bs).result.andThen fun t ↦ (t.close cfg).result := by
  rw [read]
  dsimp only
  obtain ⟨t, _ | f, notes⟩ := s.feed cfg bs <;> rfl

theorem result_read_nil (cfg : Config) (s : Session) : (s.read cfg []).result = (s.close cfg).result :=
  result_read cfg s []

theorem result_read_cons (cfg : Config) (s : Session) (b : UInt8) (bs : List UInt8) :
    (s.read cfg (b :: bs)).result = (s.push cfg b).result.andThen fun t ↦ (t.read cfg bs).result := by
  rw [result_read, result_feed_cons]
  obtain ⟨t, _ | f, notes⟩ := s.push cfg b
  · exact (result_read cfg t bs).symm
  · rfl

/-- A finished session reads nothing, and only a sequence that was begun is dropped. -/
theorem result_read_finished (h : s.finished = true) (bs : List UInt8) :
    (s.read cfg bs).result = ⟨{ s with tokenizer := .ground }, none⟩ := by
  rw [result_read, feed, feedFrom_finished h]
  exact congrArg Step.result (close_finished h)

/-- A stretch of bytes none of which raises a fault. -/
inductive Glides (cfg : Config) : List UInt8 → Session → Session → Prop
  | nil (s : Session) : Glides cfg [] s s
  | cons {b : UInt8} {bs : List UInt8} {s t u : Session} :
      (s.push cfg b).result = ⟨t, none⟩ → Glides cfg bs t u → Glides cfg (b :: bs) s u

namespace Glides

variable {as bs : List UInt8} {t u : Session}

theorem one {b : UInt8} (h : (s.push cfg b).result = ⟨t, none⟩) : Glides cfg [b] s t := .cons h (.nil t)

theorem append (h : Glides cfg as s t) (h' : Glides cfg bs t u) : Glides cfg (as ++ bs) s u := by
  induction h with
  | nil => exact h'
  | cons hpush _ ih => exact .cons hpush (ih h')

theorem pushAll_eq (h : Glides cfg bs s t) : pushAll cfg bs s = t := by
  induction h with
  | nil => rfl
  | cons hpush _ ih =>
    rw [pushAll_cons, ← ih]
    exact congrArg (pushAll cfg _ ·.state) hpush

theorem read_eq (h : Glides cfg as s t) (bs : List UInt8) :
    (s.read cfg (as ++ bs)).result = (t.read cfg bs).result := by
  induction h with
  | nil => rfl
  | cons hpush _ ih =>
    rw [List.cons_append, result_read_cons, hpush]
    exact ih

theorem of_finished (h : s.finished = true) (bs : List UInt8) : Glides cfg bs s s := by
  induction bs with
  | nil => exact .nil s
  | cons b bs ih => exact .cons (congrArg Step.result (push_finished h b)) ih

/-- Either no byte raises a fault, or the first one that does decides what a text comes to that begins so. -/
theorem or_stops (cfg : Config) (as : List UInt8) (s : Session) :
    (∃ t, Glides cfg as s t) ∨ ∃ o, ∀ bs, (s.read cfg (as ++ bs)).result = o := by
  induction as generalizing s with
  | nil => exact .inl ⟨s, .nil s⟩
  | cons b as ih =>
    obtain ⟨t, _ | f, hpush⟩ : ∃ t f, (s.push cfg b).result = ⟨t, f⟩ := ⟨_, _, rfl⟩
    · obtain ⟨u, h⟩ | ⟨o, h⟩ := ih t
      · exact .inl ⟨u, .cons hpush h⟩
      · refine .inr ⟨o, fun bs ↦ ?_⟩
        rw [List.cons_append, result_read_cons, hpush]
        exact h bs
    · refine .inr ⟨⟨t, some f⟩, fun bs ↦ ?_⟩
      rw [List.cons_append, result_read_cons, hpush]
      rfl

end Glides

end Session

end TermCapture
