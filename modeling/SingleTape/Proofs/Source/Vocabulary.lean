import SingleTape.Proofs.Source.Rewriting

/-!
The vocabulary of a machine that was read. Its states are words. Its symbols stand on lines, so that
none of them is a line feed, while any other byte may be one, also white space.
-/

namespace SingleTape

theorem Text.dropReturn_subset (l : Text) : l.dropReturn ⊆ l := by
  unfold Text.dropReturn
  split
  · exact List.dropLast_subset l
  · exact List.Subset.refl l

theorem Scan.Denotes.byte_mem {f : Text} {c : Symbol} (h : Scan.Denotes f c) : c.byte ∈ f := by
  cases h <;> simp

namespace Statement

open Text

/-- A state is written as a word. -/
theorem Spells.isWord {l : Text} {s : Statement} (h : Spells l s) {q : State}
    (hq : q ∈ s.states) : q.IsWord := by
  cases s with
  | transition p a t b m =>
    obtain ⟨-, hp, -, -, -, ht, -⟩ := h
    rcases List.mem_pair.1 hq with rfl | rfl
    · exact hp
    · exact ht
  | comment => cases hq
  | final p =>
    obtain ⟨-, -, -, hp, -⟩ := h
    exact List.mem_singleton.1 hq ▸ hp
  | initial p =>
    obtain ⟨-, -, -, hp, -⟩ := h
    exact List.mem_singleton.1 hq ▸ hp
  | blank c => cases hq
  | halt p =>
    obtain ⟨-, -, -, hp, -⟩ := h
    exact List.mem_singleton.1 hq ▸ hp

/-- A symbol is written as it is. -/
theorem Spells.byte_mem {l : Text} {s : Statement} (h : Spells l s) {a : Symbol}
    (ha : s = .blank a ∨ a ∈ s.symbols) : a.byte ∈ l := by
  cases s with
  | transition p c t b m =>
    obtain ⟨-, -, -, hc, -, -, -, hb, -⟩ := h
    have ha : a = c ∨ a = b := by simpa [symbols] using ha
    rcases ha with rfl | rfl
    · simp [hc.byte_mem]
    · simp [hb.byte_mem]
  | blank c =>
    obtain ⟨-, -, hc⟩ := h
    have ha : c = a := by simpa [symbols] using ha
    subst ha
    simp [hc.byte_mem]
  | _ => simp [symbols] at ha

theorem exists_spells_of_mem_ofText {source : Text} {s : Statement} (h : s ∈ ofText source) :
    ∃ l, newline ∉ l ∧ Spells l s := by
  obtain ⟨l, hl, hs⟩ := List.mem_filterMap.1 h
  refine ⟨l.dropReturn, ?_, spells_of_ofLine? hs⟩
  intro hnew
  exact newline_notMem_of_mem_lines hl (dropReturn_subset l hnew)

end Statement

namespace Machine

open Statement Text

variable {source : Text} {M : Machine}

theorem isWord_of_mem_states (hM : ofSource source = .ok M) {q : State} (hq : q ∈ M.states) :
    q.IsWord := by
  obtain ⟨-, hrealizes⟩ := ofSource_eq_ok_iff.1 hM
  have hword : ∀ s ∈ ofText source, q ∈ s.states → q.IsWord := by
    intro s hs hqs
    obtain ⟨l, -, hl⟩ := exists_spells_of_mem_ofText hs
    exact hl.isWord hqs
  rcases (hrealizes.states q).1 hq with rfl | rfl | hfinal | ⟨s, hs, hend⟩
  · exact hword _ hrealizes.initial (List.mem_singleton_self _)
  · exact hword _ hrealizes.halt (List.mem_singleton_self _)
  · exact hword _ ((hrealizes.finals q).1 hfinal) (List.mem_singleton_self _)
  · cases s with
    | transition p a t b m => exact hword _ hs hend
    | _ => cases hend

theorem byte_ne_newline_of_mem_alphabet (hM : ofSource source = .ok M) {a : Symbol}
    (ha : a ∈ M.alphabet) : a.byte ≠ newline := by
  obtain ⟨-, hrealizes⟩ := ofSource_eq_ok_iff.1 hM
  have hbyte : ∀ s ∈ ofText source, s = .blank a ∨ a ∈ s.symbols → a.byte ≠ newline := by
    intro s hs hsa he
    obtain ⟨l, hl, hspells⟩ := exists_spells_of_mem_ofText hs
    exact hl (he ▸ hspells.byte_mem hsa)
  rcases (hrealizes.alphabet a).1 ha with rfl | ⟨s, hs, hsymbol⟩
  · exact hbyte _ hrealizes.blank (.inl rfl)
  · exact hbyte s hs (.inr hsymbol)

/-- A row of symbols of the machine is a text within one line. -/
theorem newline_notMem_of_symbols (hM : ofSource source = .ok M) {t : Text}
    (ht : ∀ a ∈ t.symbols, a ∈ M.alphabet) : newline ∉ t := by
  intro hnew
  exact byte_ne_newline_of_mem_alphabet hM (ht ⟨newline⟩ (List.mem_map_of_mem hnew)) rfl

end Machine
end SingleTape
