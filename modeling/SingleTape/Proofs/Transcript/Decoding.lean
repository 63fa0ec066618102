import SingleTape.Proofs.Execution.Soundness
import SingleTape.Proofs.Source.Vocabulary
import SingleTape.Script

/-!
Transcripts can be read back. A symbol stands in its line as it is and may be any byte, a line feed
included, so that a transcript is not taken apart at its line feeds. It is taken apart from the
front: the first bytes tell the kind of the event, and each field ends where its own bytes end.
-/

namespace SingleTape

open Engine

namespace Text

/-- Bytes of a class are told from what follows them if that begins with another byte. -/
theorem run_append_inj {p : UInt8 → Bool} {t u r s : Text} (ht : ∀ b ∈ t, p b)
    (hu : ∀ b ∈ u, p b) (hr : EndsRun p r) (hs : EndsRun p s) (h : t ++ r = u ++ s) :
    t = u ∧ r = s := by
  have htake := congrArg (List.takeWhile p) h
  have hdrop := congrArg (List.dropWhile p) h
  rw [List.takeWhile_append_of_pos ht, List.takeWhile_append_of_pos hu, takeWhile_of_endsRun hr,
    takeWhile_of_endsRun hs, List.append_nil, List.append_nil] at htake
  rw [List.dropWhile_append_of_pos ht, List.dropWhile_append_of_pos hu, dropWhile_of_endsRun hr,
    dropWhile_of_endsRun hs] at hdrop
  exact ⟨htake, hdrop⟩

theorem endsRun_append {p : UInt8 → Bool} {t : Text} (h : t.head?.any (!p ·)) (r : Text) :
    EndsRun p (t ++ r) := by
  cases t with
  | nil => cases h
  | cons b t =>
    intro x hx
    obtain rfl : b = x := by simpa using hx
    simpa using h

theorem ofNat_append_inj {m n : Nat} {r s : Text} (hr : EndsRun isDigit r)
    (hs : EndsRun isDigit s) (h : ofNat m ++ r = ofNat n ++ s) : m = n ∧ r = s := by
  obtain ⟨hdigits, hrest⟩ := run_append_inj (fun _ => isDigit_of_mem_ofNat)
    (fun _ => isDigit_of_mem_ofNat) hr hs h
  exact ⟨ofNat_inj.1 hdigits, hrest⟩

/-- A numeral without a sign begins with a digit. -/
theorem ofNat_append_ne_minus (n : Nat) (r s : Text) : ofNat n ++ r ≠ 45 :: s := by
  cases hn : ofNat n with
  | nil => exact absurd hn (ofNat_ne_nil n)
  | cons b t =>
    have hb : isDigit b := isDigit_of_mem_ofNat (n := n) (by simp [hn])
    intro h
    obtain rfl : b = 45 := (List.cons.inj h).1
    exact absurd hb (by decide)

theorem ofInt_append_inj {i j : Int} {r s : Text} (hr : EndsRun isDigit r)
    (hs : EndsRun isDigit s) (h : ofInt i ++ r = ofInt j ++ s) : i = j ∧ r = s := by
  cases i with
  | ofNat m =>
    cases j with
    | ofNat n =>
      obtain ⟨rfl, hrest⟩ := ofNat_append_inj hr hs h
      exact ⟨rfl, hrest⟩
    | negSucc n => exact absurd h (ofNat_append_ne_minus m r _)
  | negSucc m =>
    cases j with
    | ofNat n => exact absurd h.symm (ofNat_append_ne_minus n s _)
    | negSucc n =>
      obtain ⟨hsucc, hrest⟩ := ofNat_append_inj hr hs (List.cons.inj h).2
      exact ⟨congrArg Int.negSucc (Nat.succ.inj hsucc), hrest⟩

end Text

/-- The first letter tells the moves apart that mean something. -/
theorem Move.name_append_inj {m n : Move} {r s : Text} (hm : m.isValid) (hn : n.isValid)
    (h : m.name ++ r = n.name ++ s) : m = n ∧ r = s := by
  have hfirst : m.name.head? = n.name.head? := by
    have hhead := congrArg List.head? h
    cases m <;> cases n <;> exact hhead
  obtain rfl : m = n := by
    cases m <;> cases n <;>
      first | rfl | exact absurd hfirst (by decide) | exact absurd hm Bool.false_ne_true |
        exact absurd hn Bool.false_ne_true
  exact ⟨rfl, List.append_cancel_left h⟩

/-- The bytes with which the lines of a kind of events begin. -/
def EventKind.opening : EventKind → Text
  | .start => "step s"
  | .stop => "step e"
  | .tape => "tape c"
  | .head => "head m"

theorem EventKind.opening_inj {k k' : EventKind} (h : k.opening = k'.opening) : k = k' := by
  cases k <;> cases k' <;> first | rfl | exact absurd h (by decide)

namespace Event

/-- The states are words and the moves mean something; symbols and positions are any. -/
def Legible : Event → Prop
  | stepStart q _ => q.IsWord
  | stepEnd q _ m => q.IsWord ∧ m.isValid
  | tapeChanged _ => True
  | headMoved _ _ => True

instance : (e : Event) → Decidable e.Legible
  | stepStart q _ => inferInstanceAs (Decidable q.IsWord)
  | stepEnd q _ m => inferInstanceAs (Decidable (q.IsWord ∧ m.isValid))
  | tapeChanged _ => instDecidableTrue
  | headMoved _ _ => instDecidableTrue

/-- What a step of a machine that was read announces. -/
theorem legible_of_next {source : Text} {M : Machine} (hM : Machine.ofSource source = .ok M)
    {c : Config} {t : Transition} (ht : c.next M = .ok t) :
    (stepStart t.next t.write).Legible ∧ (stepEnd t.next t.write t.move).Legible := by
  have hvalid := (Machine.plain_of_ofSource hM).valid
  obtain ⟨hallows, -⟩ := Config.allows_of_next hvalid ht
  have hword := Machine.isWord_of_mem_states hM hallows.next_mem
  exact ⟨hword, hword, hallows.move_valid⟩

theorem take_line_append (e : Event) (r : Text) : (e.line ++ r).take 6 = e.kind.opening := by
  cases e <;> rfl

theorem kind_eq_of_line_append {e f : Event} {r s : Text} (h : e.line ++ r = f.line ++ s) :
    e.kind = f.kind := by
  apply EventKind.opening_inj
  rw [← take_line_append e r, h, take_line_append f s]

theorem line_ne_nil (e : Event) : e.line ≠ [] := by
  intro h
  have hopening := e.take_line_append []
  rw [h] at hopening
  have hnonempty : e.kind.opening ≠ [] := by cases e <;> exact List.cons_ne_nil _ _
  exact hnonempty hopening.symm

variable {q p : State} {a b : Symbol} {m n : Move} {r s : Text}

theorem stepStart_line_append_inj (hq : q.IsWord) (hp : p.IsWord)
    (h : (stepStart q a).line ++ r = (stepStart p b).line ++ s) :
    stepStart q a = stepStart p b ∧ r = s := by
  simp only [line, List.append_assoc] at h
  obtain ⟨rfl, hrest⟩ := Text.run_append_inj hq.2 hp.2 (Text.endsRun_append rfl _)
    (Text.endsRun_append rfl _) (List.append_cancel_left h)
  obtain ⟨hbyte, hend⟩ := List.cons.inj (List.append_cancel_left hrest)
  obtain rfl : a = b := congrArg Symbol.mk hbyte
  exact ⟨rfl, List.append_cancel_left hend⟩

theorem stepEnd_line_append_inj (hq : q.IsWord) (hp : p.IsWord) (hm : m.isValid) (hn : n.isValid)
    (h : (stepEnd q a m).line ++ r = (stepEnd p b n).line ++ s) :
    stepEnd q a m = stepEnd p b n ∧ r = s := by
  simp only [line, List.append_assoc] at h
  obtain ⟨rfl, hrest⟩ := Text.run_append_inj hq.2 hp.2 (Text.endsRun_append rfl _)
    (Text.endsRun_append rfl _) (List.append_cancel_left h)
  obtain ⟨hbyte, hmove⟩ := List.cons.inj (List.append_cancel_left hrest)
  obtain ⟨rfl, hend⟩ := Move.name_append_inj hm hn (List.append_cancel_left hmove)
  obtain rfl : a = b := congrArg Symbol.mk hbyte
  exact ⟨rfl, List.append_cancel_left hend⟩

theorem tapeChanged_line_append_inj {i j : Int}
    (h : (tapeChanged i).line ++ r = (tapeChanged j).line ++ s) :
    tapeChanged i = tapeChanged j ∧ r = s := by
  simp only [line, List.append_assoc] at h
  obtain ⟨rfl, hrest⟩ := Text.ofInt_append_inj (Text.endsRun_append rfl _)
    (Text.endsRun_append rfl _) (List.append_cancel_left h)
  exact ⟨rfl, List.append_cancel_left hrest⟩

theorem headMoved_line_append_inj {i j i' j' : Int}
    (h : (headMoved i j).line ++ r = (headMoved i' j').line ++ s) :
    headMoved i j = headMoved i' j' ∧ r = s := by
  simp only [line, List.append_assoc] at h
  obtain ⟨rfl, hrest⟩ := Text.ofInt_append_inj (Text.endsRun_append rfl _)
    (Text.endsRun_append rfl _) (List.append_cancel_left h)
  obtain ⟨rfl, hend⟩ := Text.ofInt_append_inj (Text.endsRun_append rfl _)
    (Text.endsRun_append rfl _) (List.append_cancel_left hrest)
  exact ⟨rfl, List.append_cancel_left hend⟩

/-- The first line of a transcript tells the event, and where the next line begins. -/
theorem line_append_inj {e f : Event} (he : e.Legible) (hf : f.Legible)
    (h : e.line ++ r = f.line ++ s) : e = f ∧ r = s := by
  have hkind := kind_eq_of_line_append h
  cases e with
  | stepStart q a =>
    cases f with
    | stepStart p b => exact stepStart_line_append_inj he hf h
    | _ => cases hkind
  | stepEnd q a m =>
    cases f with
    | stepEnd p b n => exact stepEnd_line_append_inj he.1 hf.1 he.2 hf.2 h
    | _ => cases hkind
  | tapeChanged i =>
    cases f with
    | tapeChanged j => exact tapeChanged_line_append_inj h
    | _ => cases hkind
  | headMoved i j =>
    cases f with
    | headMoved i' j' => exact headMoved_line_append_inj h
    | _ => cases hkind

theorem flatMap_line_inj {es fs : List Event} (hes : ∀ e ∈ es, e.Legible)
    (hfs : ∀ f ∈ fs, f.Legible) (h : es.flatMap line = fs.flatMap line) : es = fs := by
  induction es generalizing fs with
  | nil =>
    cases fs with
    | nil => rfl
    | cons f fs => exact absurd (List.append_eq_nil_iff.1 h.symm).1 f.line_ne_nil
  | cons e es ih =>
    cases fs with
    | nil => exact absurd (List.append_eq_nil_iff.1 h).1 e.line_ne_nil
    | cons f fs =>
      rw [List.forall_mem_cons] at hes hfs
      obtain ⟨he, hrest⟩ := line_append_inj hes.1 hfs.1 h
      rw [he, ih hes.2 hfs.2 hrest]

end Event

namespace Transcript

/-- The transcript of events that were heard in turn. -/
def hear (es : List Event) : Transcript := es.foldl record ∅

theorem text_hear (es : List Event) : (hear es).text = es.flatMap Event.line :=
  text_foldl_record ∅ es

theorem events_hear (es : List Event) : (hear es).events = Int32.ofNat es.length := by
  rw [hear, events_foldl_record]
  exact Int32.zero_add _

/-- The count is the number of events as long as this fits into a word. -/
theorem toInt_events_hear {es : List Event} (h : es.length < 2147483648) :
    (hear es).events.toInt = es.length := by
  rw [events_hear]
  exact Int32.toInt_ofNat_of_lt h

theorem text_hear_flatten (ess : List (List Event)) :
    (hear ess.flatten).text = (ess.map fun es => (hear es).text).flatten := by
  induction ess with
  | nil => rfl
  | cons es ess ih =>
    rw [List.flatten_cons, List.map_cons, List.flatten_cons, ← ih, text_hear, text_hear, text_hear,
      List.flatMap_append]

/-- The text of a transcript tells the events that were heard, whatever symbols and positions there
are in them, and those that a machine announces which was read from a text are such events. What is
heard one after another stands there one after another, and every event is counted, in a word of 32
bits: the count is their number as long as this fits. -/
theorem hear_text_inj (es fs : List Event) (ess : List (List Event)) :
    ((∀ e ∈ es, e.Legible) → (∀ f ∈ fs, f.Legible) → (hear es).text = (hear fs).text → es = fs) ∧
      (∀ source M, Machine.ofSource source = .ok M → ∀ (c : Config) t, c.next M = .ok t →
        (Event.stepStart t.next t.write).Legible ∧ (Event.stepEnd t.next t.write t.move).Legible) ∧
      (hear ess.flatten).text = (ess.map fun es => (hear es).text).flatten ∧
      (hear ess.flatten).events = Int32.ofNat ess.flatten.length ∧
      (ess.flatten.length < 2147483648 →
        (hear ess.flatten).events.toInt = ess.flatten.length) := by
  refine ⟨?_, ?_, text_hear_flatten ess, events_hear ess.flatten, toInt_events_hear⟩
  · intro hes hfs h
    rw [text_hear, text_hear] at h
    exact Event.flatMap_line_inj hes hfs h
  · intro source M hM c t ht
    exact Event.legible_of_next hM ht

/-- One symbol ends its line early, another one looks like the sign in front of it. -/
def imitation : List Event :=
  [.stepStart "1" ⟨Text.newline⟩, .stepEnd "move" (.ofChar '=') .stay,
    .headMoved (-0x8000000000000000) 0]

theorem hear_imitation :
    (∀ e ∈ imitation, e.Legible) ∧
      (hear imitation).text = "step start: state=1 symbol=\n\n" ++
        ("step end: state=move wrote== move=None\n" ++ "head moved: 0 -> -9223372036854775808\n") ∧
      (hear (imitation.take 1 ++ imitation.drop 1)).text = (hear imitation).text ∧
      imitation.take 1 ++ imitation.drop 1 = imitation ∧
      (hear [imitation, imitation].flatten).events.toInt = 6 := by
  have hlegible : ∀ e ∈ imitation, e.Legible := by decide
  have hlegible' : ∀ e ∈ imitation.take 1 ++ imitation.drop 1, e.Legible := by decide
  have htext : (hear (imitation.take 1 ++ imitation.drop 1)).text = (hear imitation).text := rfl
  have hcount : (hear [imitation, imitation].flatten).events.toInt = 6 :=
    (hear_text_inj [] [] [imitation, imitation]).2.2.2.2 (by decide)
  exact ⟨hlegible, by decide +kernel, htext, (hear_text_inj _ _ []).1 hlegible' hlegible htext,
    hcount⟩

end Transcript
end SingleTape
