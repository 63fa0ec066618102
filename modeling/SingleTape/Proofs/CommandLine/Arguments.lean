import SingleTape.CommandLine.Options

/-!
Queries put in between the arguments of a command line. Wherever they stand, they only add to the
words that are asked about, and the words come in the order of their queries.
-/

namespace SingleTape

/-- The members of two lists in one, those of each list in their order. -/
inductive Interleaves {α : Type} : List α → List α → List α → Prop
  | nil : Interleaves [] [] []
  | left {l added both : List α} (a : α) (h : Interleaves l added both) :
    Interleaves (a :: l) added (a :: both)
  | right {l added both : List α} (a : α) (h : Interleaves l added both) :
    Interleaves l (a :: added) (a :: both)

namespace Interleaves

variable {α β : Type} {l l' added added' both both' : List α}

theorem refl (l : List α) : Interleaves l [] l := by
  induction l with
  | nil => exact .nil
  | cons a l ih => exact ih.left a

theorem append (h : Interleaves l added both) (h' : Interleaves l' added' both') :
    Interleaves (l ++ l') (added ++ added') (both ++ both') := by
  induction h with
  | nil => exact h'
  | left a _ ih => exact ih.left a
  | right a _ ih => exact ih.right a

theorem map (f : α → β) (h : Interleaves l added both) :
    Interleaves (l.map f) (added.map f) (both.map f) := by
  induction h with
  | nil => exact .nil
  | left a _ ih => exact ih.left (f a)
  | right a _ ih => exact ih.right (f a)

theorem findSome?_eq {f : α → Option β} (h : Interleaves l added both)
    (hadded : ∀ a ∈ added, f a = none) : both.findSome? f = l.findSome? f := by
  induction h with
  | nil => rfl
  | left a _ ih => rw [List.findSome?_cons, List.findSome?_cons, ih hadded]
  | right a _ ih =>
    obtain ⟨ha, hadded⟩ := List.forall_mem_cons.1 hadded
    rw [List.findSome?_cons, ha, ih hadded]

end Interleaves

namespace Options

variable {o p : Options} {a value : Text} {args added ws : List Text}

/-- The same options with other words to query. -/
def asking (o : Options) (words : List Text) : Options := { o with words := words }

/-- The arguments that take the next one as their value. -/
def valueOptions : List Text := ["-t", "-p", "-n", "-a"]

theorem valued?_eq_none_iff : o.valued? a value = none ↔ a ∉ valueOptions := by
  unfold valued?
  simp only [valueOptions, List.mem_cons, List.not_mem_nil, or_false, not_or]
  split
  · simp [*]
  split
  · simp [*]
  split
  · simp [*]
  split <;> simp [*]

theorem valued?_word (o : Options) (word : Text) :
    o.valued? "-a" word = some (.ok (o.asking (o.words ++ [word]))) := rfl

/-- No other value depends on the words. -/
theorem valued?_asking (o : Options) (ws : List Text) (value : Text)
    (ha : a ≠ Text.ofString "-a") :
    (o.asking ws).valued? a value = (o.valued? a value).map (Except.map (asking · ws)) := by
  unfold valued?
  split
  · rfl
  split
  · cases value.toInt64? <;> rfl
  split
  · cases value.toInt64? <;> rfl
  · rfl

theorem words_of_valued? (ha : a ≠ Text.ofString "-a") (h : o.valued? a value = some (.ok p)) :
    p.words = o.words := by
  unfold valued? at h
  split at h
  · cases h
    rfl
  split at h
  · cases hn : value.toInt64? <;> rw [hn] at h <;> cases h
    rfl
  split at h
  · cases hn : value.toInt64? <;> rw [hn] at h <;> cases h
    rfl
  · cases h

theorem switch_asking (o : Options) (ws : List Text) (a : Text) :
    (o.asking ws).switch a = (o.switch a).map (asking · ws) := by
  unfold switch
  split
  · rfl
  split
  · rfl
  split
  · rfl
  split <;> rfl

theorem words_of_switch (h : o.switch a = .ok p) : p.words = o.words := by
  unfold switch at h
  split at h
  · cases h
    rfl
  split at h
  · cases h
    rfl
  split at h
  · cases h
    rfl
  split at h <;> cases h
  rfl

/-- One argument that stands alone, then the others. -/
theorem readFrom_of_alone (o : Options) (ha : a ∉ valueOptions) (args : List Text) :
    o.readFrom (a :: args) = (o.switch a).bind fun o => o.readFrom args := by
  cases args with
  | nil =>
    rw [readFrom]
    cases o.switch a <;> rfl
  | cons value args =>
    rw [readFrom, valued?_eq_none_iff.2 ha]
    cases o.switch a <;> rfl

/-- One option with its value, then the others. -/
theorem readFrom_of_valued (h : o.valued? a value = some (.ok p)) (args : List Text) :
    o.readFrom (a :: value :: args) = p.readFrom args := by
  rw [readFrom, h]

theorem exists_valued?_of_readFrom (ha : a ∈ valueOptions)
    (h : o.readFrom (a :: value :: args) = .ok p) :
    ∃ q, o.valued? a value = some (.ok q) ∧ q.readFrom args = .ok p := by
  rw [readFrom] at h
  rcases hvalued : o.valued? a value with _ | ⟨e | q⟩
  · exact absurd ha (valued?_eq_none_iff.1 hvalued)
  · rw [hvalued] at h
    cases h
  · rw [hvalued] at h
    exact ⟨q, rfl, h⟩

end Options

namespace CommandLine

open Options

/-- Arguments, words, and the arguments with queries for these words put between the options. -/
inductive WithQueries : List Text → List Text → List Text → Prop
  | nil : WithQueries [] [] []
  | query {args words args' : List Text} (word : Text) (h : WithQueries args words args') :
    WithQueries args (word :: words) ("-a" :: word :: args')
  | valued {args words args' : List Text} {a : Text} (ha : a ∈ valueOptions) (value : Text)
      (h : WithQueries args words args') :
    WithQueries (a :: value :: args) words (a :: value :: args')
  | alone {args words args' : List Text} {a : Text} (ha : a ∉ valueOptions)
      (h : WithQueries args words args') : WithQueries (a :: args) words (a :: args')

/-- The words are read in between the others. -/
theorem WithQueries.readFrom {args words args' : List Text} (h : WithQueries args words args')
    {o p : Options} (hread : o.readFrom args = .ok p) {added ws : List Text}
    (hws : Interleaves o.words added ws) :
    ∃ ws', (o.asking ws).readFrom args' = .ok (p.asking ws') ∧
      Interleaves p.words (added ++ words) ws' := by
  induction h generalizing o added ws with
  | nil =>
    cases hread
    exact ⟨ws, rfl, by simpa using hws⟩
  | @query args words args' word h ih =>
    have hword : Interleaves o.words (added ++ [word]) (ws ++ [word]) := by
      simpa using hws.append (Interleaves.nil.right word)
    obtain ⟨ws', hread', hws'⟩ := ih hread hword
    refine ⟨ws', ?_, by simpa using hws'⟩
    rw [readFrom_of_valued ((o.asking ws).valued?_word word)]
    exact hread'
  | @valued args words args' a ha value h ih =>
    obtain ⟨q, hvalued, hread⟩ := exists_valued?_of_readFrom ha hread
    by_cases hword : a = Text.ofString "-a"
    · subst hword
      obtain rfl : o.asking (o.words ++ [value]) = q := by simpa [valued?_word] using hvalued
      have hvalue : Interleaves (o.words ++ [value]) added (ws ++ [value]) := by
        simpa using hws.append (Interleaves.refl [value])
      obtain ⟨ws', hread', hws'⟩ := ih hread hvalue
      refine ⟨ws', ?_, hws'⟩
      rw [readFrom_of_valued ((o.asking ws).valued?_word value)]
      exact hread'
    · rw [← words_of_valued? hword hvalued] at hws
      obtain ⟨ws', hread', hws'⟩ := ih hread hws
      refine ⟨ws', ?_, hws'⟩
      have hasking := o.valued?_asking ws value hword
      rw [hvalued] at hasking
      rw [readFrom_of_valued hasking]
      exact hread'
  | @alone args words args' a ha h ih =>
    rw [readFrom_of_alone o ha] at hread
    cases hswitch : o.switch a with
    | error e =>
      rw [hswitch] at hread
      cases hread
    | ok q =>
      rw [hswitch] at hread
      rw [← words_of_switch hswitch] at hws
      obtain ⟨ws', hread', hws'⟩ := ih hread hws
      refine ⟨ws', ?_, hws'⟩
      rw [readFrom_of_alone _ ha, switch_asking, hswitch]
      exact hread'

theorem WithQueries.read {args words args' : List Text} (h : WithQueries args words args')
    {o : Options} (hread : Options.read args = .ok o) :
    ∃ ws, Options.read args' = .ok (o.asking ws) ∧ Interleaves o.words words ws := by
  have hargs : args ≠ [] := by
    rintro rfl
    cases hread
  have hargs' : args' ≠ [] := by
    rintro rfl
    cases h
    exact hargs rfl
  rw [Options.read, if_neg hargs] at hread
  rw [Options.read, if_neg hargs']
  cases hfrom : Options.readFrom {} args with
  | error e =>
    rw [hfrom] at hread
    cases hread
  | ok p =>
    obtain ⟨ws, hread', hws⟩ := h.readFrom hfrom .nil
    simp only [hfrom] at hread
    split at hread
    · cases hread
    · next hfile =>
      cases hread
      have hfrom' : Options.readFrom {} args' = .ok (o.asking ws) := hread'
      have hfile' : (o.asking ws).file ≠ [] := hfile
      refine ⟨ws, ?_, hws⟩
      simp only [hfrom', if_neg hfile']

end CommandLine
end SingleTape
