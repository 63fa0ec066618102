import SingleTape.Proofs.Source.Image

/-!
Rewriting a description over and over. What was read of a written machine keeps its transitions when
it is written again, but not its counts: it may still declare states of transitions that have been
replaced. The machine that is read after that is written and read as it is.
-/

namespace SingleTape

open Text Statement

namespace Text

/-- What follows the first line, with the line feed in front of it. -/
def belowFirst (t : Text) : Text := t.dropWhile (· ≠ newline)

theorem belowFirst_append {l : Text} (h : newline ∉ l) (t : Text) :
    belowFirst (l ++ newline :: t) = newline :: t := by
  have hline : ∀ b ∈ l, b ≠ newline := by
    rintro b hb rfl
    exact h hb
  rw [belowFirst, List.dropWhile_append_of_pos (by simpa using hline)]
  simp

end Text

namespace Machine

/-- The text of the machine that a text describes. -/
def rewrite (source : Text) : Except Error Text := do
  (← ofSource source).toSource

def rewriteTimes : Nat → Text → Except Error Text
  | 0, source => .ok source
  | n + 1, source => do rewriteTimes n (← rewrite source)

theorem rewrite_eq_ok {source text : Text} {M : Machine} (hM : ofSource source = .ok M)
    (hs : M.toSource = .ok text) : rewrite source = .ok text := by
  rw [rewrite, hM]
  exact hs

theorem rewriteTimes_succ {n : Nat} {source text : Text} (h : rewrite source = .ok text) :
    rewriteTimes (n + 1) source = rewriteTimes n text := by
  rw [rewriteTimes, h]
  rfl

theorem rewriteTimes_of_fixed {text : Text} (h : rewrite text = .ok text) (n : Nat) :
    rewriteTimes n text = .ok text := by
  induction n with
  | zero => rfl
  | succ n ih => rw [rewriteTimes_succ h, ih]

/-- Machines that differ in what they declare are written alike, but for the counts. -/
theorem toSource_declaring {M : Machine} {text : Text} (hs : M.toSource = .ok text)
    (states : SortedSet State) (input alphabet : SortedSet Symbol) :
    ∃ text', (M.declaring states input alphabet).toSource = .ok text' ∧
      text'.belowFirst = text.belowFirst := by
  simp only [toSource, bind_eq_ok_iff, pure_eq_ok_iff] at hs
  obtain ⟨ts, hts, rfl⟩ := hs
  have hbelow : ∀ N : Machine, (N.header ++ ts.flatten).belowFirst = newline :: ts.flatten := by
    intro N
    obtain ⟨l, hheader, hl, -⟩ := N.exists_line_of_header
    rw [hheader, List.append_assoc, List.singleton_append, belowFirst_append hl.1]
  refine ⟨(M.declaring states input alphabet).header ++ ts.flatten, ?_, ?_⟩
  · simp only [toSource, bind_eq_ok_iff, pure_eq_ok_iff]
    exact ⟨ts, hts, rfl⟩
  · rw [hbelow, hbelow]

theorem exists_image_of_toSource {M : Machine} {text : Text} (hs : M.toSource = .ok text) :
    ∃ N, ofSource text = .ok N ∧ M.Image N := by
  obtain ⟨d, hd, hread⟩ := ofSource_of_toSource hs
  exact ⟨_, hread, image_of_denotes (exists_toSource_iff.1 ⟨text, hs⟩) hd⟩

namespace Image

variable {M N : Machine}

theorem key_notMem (h : M.Image N) {e : Entry} (he : e ∈ N.table.entries) :
    e.symbol.byte ∉ [9, 11, 12] := by
  intro hlost
  have hfind := Table.mem_entries.1 he
  rw [h.find_lost _ _ hlost] at hfind
  cases hfind

/-- Each transition that comes back is written for one of the machine. -/
theorem exists_entry (h : M.Image N) {e : Entry} (he : e ∈ N.table.entries) :
    ∃ e' ∈ M.table.entries, e.source = e'.source ∧
      (e.symbol = e'.symbol ∨ e.symbol = .ofChar ' ') ∧
      e.transition.write = e'.transition.write ∧ e.transition.next = e'.transition.next := by
  obtain ⟨q, c, t⟩ := e
  have hfind := Table.mem_entries.1 he
  by_cases hspace : c.byte = 32
  · obtain rfl : c = .ofChar ' ' := congrArg Symbol.mk hspace
    obtain ⟨c', u, hu, -, -, rfl⟩ := (h.find_space q t).1 hfind
    exact ⟨⟨q, c', u⟩, Table.mem_entries.2 hu, rfl, .inr rfl, rfl, rfl⟩
  · have hlost := h.key_notMem he
    rw [h.find_solid q c (by simp_all), Option.map_eq_some_iff] at hfind
    obtain ⟨u, hu, rfl⟩ := hfind
    exact ⟨⟨q, c, u⟩, Table.mem_entries.2 hu, rfl, .inl rfl, rfl, rfl⟩

/-- What was read can be written. -/
theorem isWritable (h : M.Image N) (hM : M.IsWritable) : N.IsWritable where
  initial := h.initial_eq ▸ hM.initial
  halt := h.halt_eq ▸ hM.halt
  finals := h.finals_eq ▸ hM.finals
  source e he := by
    obtain ⟨e', he', hsource, -⟩ := h.exists_entry he
    rw [hsource]
    exact hM.source e' he'
  next e he := by
    obtain ⟨e', he', -, -, -, hnext⟩ := h.exists_entry he
    rw [hnext]
    exact hM.next e' he'
  blank := h.blank_eq ▸ hM.blank
  symbol e he := by
    obtain ⟨e', he', -, hsymbol | hsymbol, -⟩ := h.exists_entry he
    · rw [hsymbol]
      exact hM.symbol e' he'
    · rw [hsymbol]
      decide
  write e he := by
    obtain ⟨e', he', -, -, hwrite, -⟩ := h.exists_entry he
    rw [hwrite]
    exact hM.write e' he'

/-- The image does not depend on what is declared. -/
theorem declaring (h : M.Image N) (states : SortedSet State) (input alphabet : SortedSet Symbol) :
    (M.declaring states input alphabet).Image N :=
  ⟨h.initial_eq, h.halt_eq, h.blank_eq, h.finals_eq, h.mem_states, h.mem_input, h.mem_alphabet,
    h.find_solid, h.find_lost, h.find_space, h.filled⟩

end Image

/-- What was read of a written machine returns with other declarations. -/
theorem exists_declaring_image {M N : Machine} {source text : Text} (hM : M.toSource = .ok source)
    (hN : ofSource source = .ok N) (hs : N.toSource = .ok text) :
    ∃ states input alphabet, ofSource text = .ok (N.declaring states input alphabet) ∧
      N.Image (N.declaring states input alphabet) := by
  obtain ⟨N', hN', himage⟩ := exists_image_of_toSource hM
  obtain rfl := Except.ok.inj (hN'.symm.trans hN)
  have hkeys : ∀ e ∈ N'.table.entries, e.symbol.byte ∉ [9, 11, 12] :=
    fun e he => himage.key_notMem he
  obtain ⟨states, input, alphabet, hread, -⟩ :=
    exists_declaring_of_toSource (plain_of_ofSource hN) hs hkeys
  obtain ⟨N'', hN'', himage'⟩ := exists_image_of_toSource hs
  obtain rfl := Except.ok.inj (hN''.symm.trans hread)
  exact ⟨states, input, alphabet, hread, himage'⟩

/-- A written text can be rewritten any number of times. From the first text to the second one the
transitions may change, but not what is read after that; from the second one to the third one only
the counts in the first line do, and then nothing. -/
theorem rewriteTimes_converges {M : Machine} {t₁ : Text} (h : M.toSource = .ok t₁) :
    ∃ t₂ t₃ N₁ N₂, rewriteTimes 1 t₁ = .ok t₂ ∧ (∀ k, rewriteTimes (k + 2) t₁ = .ok t₃) ∧
      t₂.belowFirst = t₃.belowFirst ∧
      ofSource t₁ = .ok N₁ ∧ ofSource t₂ = .ok N₂ ∧ N₁.table = N₂.table ∧
      N₁.finals = N₂.finals ∧ N₁.initial = N₂.initial ∧ N₁.halt = N₂.halt ∧
      N₁.blank = N₂.blank := by
  obtain ⟨N, hN, himage⟩ := exists_image_of_toSource h
  obtain ⟨t₂, ht₂⟩ := exists_toSource_iff.2 (himage.isWritable (exists_toSource_iff.1 ⟨t₁, h⟩))
  obtain ⟨states, input, alphabet, hN₂, himage₂⟩ := exists_declaring_image h hN ht₂
  obtain ⟨t₃, ht₃, hbelow⟩ := toSource_declaring ht₂ states input alphabet
  obtain ⟨N₃, hN₃, himage₃⟩ := exists_image_of_toSource ht₃
  -- What is read of the second text is its own image, so the third text describes it again.
  obtain rfl := himage₃.unique (himage₂.declaring states input alphabet)
  have hfirst := rewrite_eq_ok hN ht₂
  have hsecond := rewrite_eq_ok hN₂ ht₃
  have hfixed := rewrite_eq_ok hN₃ ht₃
  refine ⟨t₂, t₃, N, _, rewriteTimes_succ hfirst, ?_, hbelow.symm, hN, hN₂, rfl, rfl, rfl, rfl, rfl⟩
  intro k
  rw [rewriteTimes_succ hfirst, rewriteTimes_succ hsecond, rewriteTimes_of_fixed hfixed]

/-- What is written of the machine whose keys are white space. -/
def whitespacedText : Text :=
  "% 0 states, 2 transitions\nINITIAL 1\nBLANK #\nHALT HALT\n1, \t -> 2, b, <\n1, \x0c -> 3, c, _\n"

/-- The second pass drops the state that only the transition on the tab led to. -/
theorem rewriteTimes_whitespaced :
    whitespaced.toSource = .ok whitespacedText ∧
      ∃ t₂ t₃, rewriteTimes 1 whitespacedText = .ok t₂ ∧
        (∀ k, rewriteTimes (k + 2) whitespacedText = .ok t₃) ∧ t₂.belowFirst = t₃.belowFirst ∧
        t₂.lines.head? = some "% 4 states, 1 transitions" ∧
        t₃.lines.head? = some "% 3 states, 1 transitions" := by
  have hsource : whitespaced.toSource = .ok whitespacedText := by rfl
  obtain ⟨t₂, t₃, _, _, h₂, h₃, hbelow, -⟩ := rewriteTimes_converges hsource
  have hsecond : rewriteTimes 1 whitespacedText =
      .ok "% 4 states, 1 transitions\nINITIAL 1\nBLANK #\nHALT HALT\n1,   -> 3, c, _\n" := by rfl
  have hthird : rewriteTimes 2 whitespacedText =
      .ok "% 3 states, 1 transitions\nINITIAL 1\nBLANK #\nHALT HALT\n1,   -> 3, c, _\n" := by rfl
  obtain rfl := Except.ok.inj (hsecond.symm.trans h₂)
  obtain rfl := Except.ok.inj (hthird.symm.trans (h₃ 0))
  exact ⟨hsource, _, _, hsecond, h₃, hbelow, rfl, rfl⟩

end Machine
end SingleTape
