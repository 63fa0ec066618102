import SingleTape.Source.Reading

/-!
What a list of statements says, and that the draft which takes them in one after another says the
same.
-/

namespace SingleTape

theorem bind_eq_ok_iff {α β : Type} {x : Except Error α} {f : α → Except Error β} {b : β} :
    x >>= f = .ok b ↔ ∃ a, x = .ok a ∧ f a = .ok b := by
  cases x with
  | error e => simp [bind, Except.bind]
  | ok a => simp [bind, Except.bind]

theorem pure_eq_ok_iff {α : Type} {a b : α} : (pure a : Except Error α) = .ok b ↔ a = b := by
  simp [pure, Except.pure]

namespace Table

/-- No state has an empty row of transitions. -/
def Filled (δ : Table) : Prop := ∀ q r, δ.rows.find? q = some r → r ≠ ∅

theorem filled_empty : (∅ : Table).Filled := by
  intro q r hr
  simp [EmptyCollection.emptyCollection, SortedMap.find?, SortedMap.valueAt] at hr

theorem insert_ne_empty (r : SortedMap Symbol Transition) (a : Symbol) (t : Transition) :
    r.insert a t ≠ ∅ := by
  intro h
  have hfind : (r.insert a t).find? a = none := by rw [h, SortedMap.find?_empty]
  simp [SortedMap.find?_insert] at hfind

theorem Filled.set {δ : Table} (h : δ.Filled) (q : State) (a : Symbol) (t : Transition) :
    (δ.set q a t).Filled := by
  intro p r hr
  rw [Table.set, SortedMap.find?_insert] at hr
  by_cases hq : q = p
  · rw [if_pos hq] at hr
    rw [← Option.some.inj hr]
    exact insert_ne_empty _ a t
  · rw [if_neg hq] at hr
    exact h p r hr

/-- Without empty rows the transitions are all there is to a table. -/
theorem Filled.ext {δ ε : Table} (hδ : δ.Filled) (hε : ε.Filled)
    (h : ∀ q a, δ.find? q a = ε.find? q a) : δ = ε := by
  have hrow : ∀ q, δ.row q = ε.row q := fun q => SortedMap.ext (h q)
  have hrows : δ.rows = ε.rows := by
    apply SortedMap.ext
    intro q
    have hq := hrow q
    unfold row at hq
    cases hd : δ.rows.find? q with
    | none =>
      cases he : ε.rows.find? q with
      | none => rfl
      | some r =>
        rw [hd, he] at hq
        exact absurd hq.symm (hε q r he)
    | some r =>
      cases he : ε.rows.find? q with
      | none =>
        rw [hd, he] at hq
        exact absurd hq (hδ q r hd)
      | some s =>
        rw [hd, he] at hq
        exact congrArg some hq
  cases δ
  cases ε
  exact congrArg mk hrows

end Table

namespace Statement

/-- The part of a machine that the statement gives. -/
def directive? : Statement → Option Directive
  | initial _ => some .initial
  | blank _ => some .blank
  | halt _ => some .halt
  | transition _ _ _ _ _ => none
  | comment => none
  | final _ => none

/-- A move that means nothing cannot be defined. -/
def Proper : Statement → Prop
  | transition _ _ _ _ m => m.isValid
  | _ => True

def states : Statement → List State
  | transition q _ t _ _ => [q, t]
  | final q => [q]
  | initial q => [q]
  | halt q => [q]
  | comment => []
  | blank _ => []

def symbols : Statement → List Symbol
  | transition _ a _ b _ => [a, b]
  | _ => []

/-- The transition that a statement gives for a state and a symbol. -/
def transition? (q : State) (a : Symbol) : Statement → Option Transition
  | transition p c t b m => if p = q ∧ c = a then some ⟨c, b, m, t⟩ else none
  | _ => none

theorem transition?_eq_some_iff {s : Statement} {q : State} {a : Symbol} {t : Transition} :
    s.transition? q a = some t ↔ s = .transition q a t.next t.write t.move ∧ t.read = a := by
  cases s with
  | transition p c u b m =>
    cases t
    simp only [transition?, Option.ite_none_right_eq_some, Option.some.injEq, Transition.mk.injEq,
      transition.injEq]
    constructor
    · intro h
      obtain ⟨⟨rfl, rfl⟩, rfl, rfl, rfl, rfl⟩ := h
      simp
    · intro h
      obtain ⟨⟨rfl, rfl, rfl, rfl, rfl⟩, rfl⟩ := h
      simp
  | _ => simp [transition?]

/-- A symbol is an input symbol when a transition mentions it before it is declared the blank. -/
def Mention (ss : List Statement) (c : Symbol) : Prop :=
  ∃ s ∈ ss.takeWhile (· ≠ .blank c), c ∈ s.symbols

theorem not_mention_nil (c : Symbol) : ¬Mention [] c := by simp [Mention]

theorem mention_cons {s : Statement} {ss : List Statement} {c : Symbol} :
    Mention (s :: ss) c ↔ s ≠ .blank c ∧ (c ∈ s.symbols ∨ Mention ss c) := by
  unfold Mention
  by_cases hs : s = .blank c
  · simp [hs]
  · simp [hs, or_and_right, exists_or]

/-- Apart from the blank every symbol of a transition is an input symbol. -/
theorem mention_iff_of_notMem {ss : List Statement} {c : Symbol} (h : .blank c ∉ ss) :
    Mention ss c ↔ ∃ s ∈ ss, c ∈ s.symbols := by
  induction ss with
  | nil => simp [not_mention_nil]
  | cons s ss ih =>
    obtain ⟨hs, hss⟩ := not_or.1 (mt List.mem_cons.2 h)
    simp [mention_cons, Ne.symm hs, ih hss]

theorem mention_snoc {ss : List Statement} {s : Statement} {c : Symbol} :
    Mention (ss ++ [s]) c ↔ Mention ss c ∨ .blank c ∉ ss ∧ c ∈ s.symbols := by
  induction ss with
  | nil =>
    have hblank : c ∈ s.symbols → s ≠ .blank c := by
      intro hc he
      simp [he, symbols] at hc
    simp only [List.nil_append, mention_cons, not_mention_nil, List.not_mem_nil, not_false_eq_true,
      true_and, or_false, false_or]
    exact ⟨And.right, fun hc => ⟨hblank hc, hc⟩⟩
  | cons x ss ih =>
    rw [List.cons_append, mention_cons, mention_cons, ih, List.mem_cons]
    by_cases hx : x = .blank c
    · simp [hx]
    · simp [hx, Ne.symm hx, or_assoc]

end Statement

namespace Draft

open Statement

/-- Takes in statements until one is refused. -/
def defineAll (d : Draft) (ss : List Statement) : Except Error Draft := ss.foldlM define d

theorem defineAll_cons_eq_ok_iff {d d' : Draft} {s : Statement} {ss : List Statement} :
    d.defineAll (s :: ss) = .ok d' ↔ ∃ m, d.define s = .ok m ∧ m.defineAll ss = .ok d' := by
  simp only [defineAll, List.foldlM_cons, bind_eq_ok_iff]

/-- The draft has taken in a statement of this kind. -/
def has (d : Draft) : Directive → Bool
  | .initial => d.initial.isSome
  | .blank => d.blank.isSome
  | .halt => d.halt.isSome

/-- A draft holds just what the statements say. -/
structure Denotes (d : Draft) (ss : List Statement) : Prop where
  initial : ∀ q, d.initial = some q ↔ .initial q ∈ ss
  blank : ∀ c, d.blank = some c ↔ .blank c ∈ ss
  halt : ∀ q, d.halt = some q ↔ .halt q ∈ ss
  finals : ∀ q, q ∈ d.finals ↔ .final q ∈ ss
  states : ∀ q, q ∈ d.states ↔ ∃ s ∈ ss, q ∈ s.states
  input : ∀ c, c ∈ d.input ↔ Mention ss c
  find : ∀ q a, d.table.find? q a = ss.reverse.findSome? (transition? q a)
  filled : d.table.Filled
  proper : ∀ s ∈ ss, s.Proper

theorem denotes_empty : (∅ : Draft).Denotes [] where
  initial q := by simp [EmptyCollection.emptyCollection]
  blank c := by simp [EmptyCollection.emptyCollection]
  halt q := by simp [EmptyCollection.emptyCollection]
  finals q := by simp [EmptyCollection.emptyCollection, SortedSet.mem_def]
  states q := by simp [EmptyCollection.emptyCollection, SortedSet.mem_def]
  input c := by simp [EmptyCollection.emptyCollection, SortedSet.mem_def, Mention]
  find q a := rfl
  filled := Table.filled_empty
  proper := by simp

@[simp] theorem mention_initial (d : Draft) (c : Symbol) :
    (d.mention c).initial = d.initial := by
  unfold mention
  split <;> rfl

@[simp] theorem mention_blank (d : Draft) (c : Symbol) : (d.mention c).blank = d.blank := by
  unfold mention
  split <;> rfl

@[simp] theorem mention_halt (d : Draft) (c : Symbol) : (d.mention c).halt = d.halt := by
  unfold mention
  split <;> rfl

@[simp] theorem mention_finals (d : Draft) (c : Symbol) : (d.mention c).finals = d.finals := by
  unfold mention
  split <;> rfl

theorem mem_mention_input {d : Draft} {a c : Symbol} :
    c ∈ (d.mention a).input ↔ c ∈ d.input ∨ d.blank ≠ some c ∧ c = a := by
  unfold mention
  by_cases ha : d.blank = some a
  · rw [if_pos ha]
    constructor
    · exact Or.inl
    · intro h
      rcases h with hc | ⟨hne, rfl⟩
      · exact hc
      · exact absurd ha hne
  · rw [if_neg ha]
    simp only [SortedSet.mem_insert]
    constructor
    · intro h
      rcases h with rfl | hc
      · exact .inr ⟨ha, rfl⟩
      · exact .inl hc
    · intro h
      rcases h with hc | ⟨-, rfl⟩
      · exact .inr hc
      · exact .inl rfl

/-- What a statement adds to the drafted table. -/
theorem findSome?_snoc (ss : List Statement) (s : Statement) (q : State) (a : Symbol) :
    (ss ++ [s]).reverse.findSome? (transition? q a) =
      (s.transition? q a).or (ss.reverse.findSome? (transition? q a)) := by
  rw [List.reverse_append, List.reverse_singleton, List.singleton_append, List.findSome?_cons]
  cases s.transition? q a <;> rfl

theorem exists_mem_snoc {ss : List Statement} {s : Statement} {P : Statement → Prop} :
    (∃ x ∈ ss ++ [s], P x) ↔ (∃ x ∈ ss, P x) ∨ P s := by
  simp [or_and_right, exists_or]

namespace Denotes

variable {d d' : Draft} {ss : List Statement}

theorem proper_snoc (h : d.Denotes ss) {s : Statement} (hs : s.Proper) :
    ∀ x ∈ ss ++ [s], x.Proper :=
  List.forall_mem_append.2 ⟨h.proper, List.forall_mem_singleton.2 hs⟩

theorem define_transition {q t : State} {a b : Symbol} {m : Move} (h : d.Denotes ss)
    (hd : d.define (.transition q a t b m) = .ok d') :
    d'.Denotes (ss ++ [.transition q a t b m]) := by
  simp only [define, addTransition] at hd
  by_cases hm : m.isValid
  · rw [if_pos hm] at hd
    have hd := Except.ok.inj hd
    subst hd
    constructor
    · simp [h.initial]
    · simp [h.blank]
    · simp [h.halt]
    · simp [h.finals]
    · intro p
      simp only [SortedSet.mem_insert, h.states, exists_mem_snoc, Statement.states, List.mem_cons,
        List.not_mem_nil, or_false]
      rw [← or_assoc, or_comm, or_comm (a := p = t)]
    · intro c
      simp only [mem_mention_input, mention_blank, h.input, mention_snoc, ne_eq, h.blank, symbols,
        List.mem_cons, List.not_mem_nil, or_false, or_assoc, ← and_or_left]
    · intro p c
      rw [findSome?_snoc, Table.find?_set, h.find]
      simp only [transition?]
      split <;> rfl
    · exact h.filled.set q a _
    · exact h.proper_snoc hm
  · rw [if_neg hm] at hd
    cases hd

theorem define_comment (h : d.Denotes ss) : d.Denotes (ss ++ [.comment]) := by
  constructor
  · simp [h.initial]
  · simp [h.blank]
  · simp [h.halt]
  · simp [h.finals]
  · simp [h.states, Statement.states]
  · simp [h.input, mention_snoc, symbols]
  · simp [h.find, List.findSome?_cons, transition?]
  · exact h.filled
  · exact h.proper_snoc trivial

theorem define_final (h : d.Denotes ss) (q : State) :
    (d.addFinal q).Denotes (ss ++ [.final q]) := by
  constructor
  · simp [addFinal, h.initial]
  · simp [addFinal, h.blank]
  · simp [addFinal, h.halt]
  · simp [addFinal, h.finals, or_comm]
  · simp [addFinal, h.states, Statement.states, or_comm]
  · simp [addFinal, h.input, mention_snoc, symbols]
  · simp [addFinal, h.find, List.findSome?_cons, transition?]
  · exact h.filled
  · exact h.proper_snoc trivial

theorem define_initial (h : d.Denotes ss) {q : State} (hnone : d.initial = none) :
    (d.setInitial q).Denotes (ss ++ [.initial q]) := by
  have hnew : ∀ p, .initial p ∉ ss := by
    intro p hp
    rw [← h.initial p, hnone] at hp
    cases hp
  constructor
  · simp [setInitial, hnew, eq_comm]
  · simp [setInitial, h.blank]
  · simp [setInitial, h.halt]
  · simp [setInitial, h.finals]
  · simp [setInitial, h.states, Statement.states, or_comm]
  · simp [setInitial, h.input, mention_snoc, symbols]
  · simp [setInitial, h.find, List.findSome?_cons, transition?]
  · exact h.filled
  · exact h.proper_snoc trivial

theorem define_blank (h : d.Denotes ss) {c : Symbol} (hnone : d.blank = none) :
    (d.setBlank c).Denotes (ss ++ [.blank c]) := by
  have hnew : ∀ a, .blank a ∉ ss := by
    intro a ha
    rw [← h.blank a, hnone] at ha
    cases ha
  constructor
  · simp [setBlank, h.initial]
  · simp [setBlank, hnew, eq_comm]
  · simp [setBlank, h.halt]
  · simp [setBlank, h.finals]
  · simp [setBlank, h.states, Statement.states]
  · simp [setBlank, h.input, mention_snoc, symbols]
  · simp [setBlank, h.find, List.findSome?_cons, transition?]
  · exact h.filled
  · exact h.proper_snoc trivial

theorem define_halt (h : d.Denotes ss) {q : State} (hnone : d.halt = none) :
    (d.setHalt q).Denotes (ss ++ [.halt q]) := by
  have hnew : ∀ p, .halt p ∉ ss := by
    intro p hp
    rw [← h.halt p, hnone] at hp
    cases hp
  -- There is no old halt state that would be forgotten.
  have hset : d.setHalt q = { d with states := d.states.insert q, halt := some q } := by
    simp [setHalt, hnone]
  rw [hset]
  constructor
  · simp [h.initial]
  · simp [h.blank]
  · simp [hnew, eq_comm]
  · simp [h.finals]
  · simp [h.states, Statement.states, or_comm]
  · simp [h.input, mention_snoc, symbols]
  · simp [h.find, List.findSome?_cons, transition?]
  · exact h.filled
  · exact h.proper_snoc trivial

/-- What one statement does. -/
theorem define {s : Statement} (h : d.Denotes ss) (hd : d.define s = .ok d') :
    d'.Denotes (ss ++ [s]) := by
  cases s with
  | transition q a t b m => exact h.define_transition hd
  | comment =>
    obtain rfl : d = d' := Except.ok.inj hd
    exact h.define_comment
  | final q =>
    obtain rfl : d.addFinal q = d' := Except.ok.inj hd
    exact h.define_final q
  | initial q =>
    rw [Draft.define] at hd
    cases hnone : d.initial with
    | some p => simp [hnone] at hd
    | none =>
      obtain rfl : d.setInitial q = d' := by simpa [hnone] using hd
      exact h.define_initial hnone
  | blank c =>
    rw [Draft.define] at hd
    cases hnone : d.blank with
    | some a => simp [hnone] at hd
    | none =>
      obtain rfl : d.setBlank c = d' := by simpa [hnone] using hd
      exact h.define_blank hnone
  | halt q =>
    rw [Draft.define] at hd
    cases hnone : d.halt with
    | some p => simp [hnone] at hd
    | none =>
      obtain rfl : d.setHalt q = d' := by simpa [hnone] using hd
      exact h.define_halt hnone

theorem defineAll {ss' : List Statement} (h : d.Denotes ss) (hd : d.defineAll ss' = .ok d') :
    d'.Denotes (ss ++ ss') := by
  induction ss' generalizing d ss with
  | nil =>
    obtain rfl : d = d' := Except.ok.inj hd
    rwa [List.append_nil]
  | cons s ss' ih =>
    obtain ⟨m, hm, hd⟩ := defineAll_cons_eq_ok_iff.1 hd
    have hrest := ih (h.define hm) hd
    rwa [List.append_assoc] at hrest

end Denotes

theorem denotes_of_defineAll {ss : List Statement} {d : Draft}
    (h : (∅ : Draft).defineAll ss = .ok d) : d.Denotes ss :=
  denotes_empty.defineAll h

theorem exists_define_eq_ok_iff {d : Draft} {s : Statement} :
    (∃ d', d.define s = .ok d') ↔ s.Proper ∧ ∀ k ∈ s.directive?, d.has k = false := by
  cases s with
  | transition q a t b m =>
    cases hm : m.isValid <;> simp [define, addTransition, Proper, directive?, hm]
  | comment => simp [define, Proper, directive?]
  | final q => simp [define, Proper, directive?]
  | initial q => cases hd : d.initial <;> simp [define, Proper, directive?, has, hd]
  | blank c => cases hd : d.blank <;> simp [define, Proper, directive?, has, hd]
  | halt q => cases hd : d.halt <;> simp [define, Proper, directive?, has, hd]

theorem Denotes.has_iff {d : Draft} {ss : List Statement} (h : d.Denotes ss) {k : Directive} :
    d.has k ↔ ∃ s ∈ ss, s.directive? = some k := by
  constructor
  · intro hk
    cases k with
    | initial =>
      obtain ⟨q, hq⟩ := Option.isSome_iff_exists.1 hk
      exact ⟨_, (h.initial q).1 hq, rfl⟩
    | blank =>
      obtain ⟨c, hc⟩ := Option.isSome_iff_exists.1 hk
      exact ⟨_, (h.blank c).1 hc, rfl⟩
    | halt =>
      obtain ⟨q, hq⟩ := Option.isSome_iff_exists.1 hk
      exact ⟨_, (h.halt q).1 hq, rfl⟩
  · intro hk
    obtain ⟨s, hs, hk⟩ := hk
    cases s with
    | initial q =>
      obtain rfl := Option.some.inj hk
      exact Option.isSome_iff_exists.2 ⟨q, (h.initial q).2 hs⟩
    | blank c =>
      obtain rfl := Option.some.inj hk
      exact Option.isSome_iff_exists.2 ⟨c, (h.blank c).2 hs⟩
    | halt q =>
      obtain rfl := Option.some.inj hk
      exact Option.isSome_iff_exists.2 ⟨q, (h.halt q).2 hs⟩
    | _ => cases hk

/-- Statements are taken in as long as none gives a part a second time. -/
theorem Denotes.exists_defineAll_eq_ok {d : Draft} {ss ss' : List Statement} (h : d.Denotes ss)
    (hproper : ∀ s ∈ ss', s.Proper) (hnodup : ((ss ++ ss').filterMap directive?).Nodup) :
    ∃ d', d.defineAll ss' = .ok d' := by
  induction ss' generalizing d ss with
  | nil => exact ⟨d, rfl⟩
  | cons s ss' ih =>
    have hfresh : ∀ k ∈ s.directive?, d.has k = false := by
      intro k hk
      rw [Bool.eq_false_iff]
      intro hhas
      obtain ⟨s', hs', hk'⟩ := h.has_iff.1 hhas
      have hold : k ∈ ss.filterMap directive? := List.mem_filterMap.2 ⟨s', hs', hk'⟩
      have hnew : k ∈ (s :: ss').filterMap directive? := List.mem_filterMap.2 ⟨s, by simp, hk⟩
      rw [List.filterMap_append] at hnodup
      exact (List.nodup_append.1 hnodup).2.2 k hold k hnew rfl
    obtain ⟨m, hm⟩ := exists_define_eq_ok_iff.2 ⟨hproper s (by simp), hfresh⟩
    have hproper' : ∀ x ∈ ss', x.Proper := by
      intro x hx
      exact hproper x (List.mem_cons_of_mem s hx)
    have hrest : ∃ d', m.defineAll ss' = .ok d' := by
      apply ih (h.define hm) hproper'
      rwa [List.append_assoc]
    obtain ⟨d', hd'⟩ := hrest
    exact ⟨d', defineAll_cons_eq_ok_iff.2 ⟨m, hm, hd'⟩⟩

/-- A draft that took statements in has no directive twice. -/
theorem Denotes.nodup_of_defineAll {d d' : Draft} {ss ss' : List Statement} (h : d.Denotes ss)
    (hnodup : (ss.filterMap directive?).Nodup) (hd : d.defineAll ss' = .ok d') :
    ((ss ++ ss').filterMap directive?).Nodup := by
  induction ss' generalizing d ss with
  | nil => rwa [List.append_nil]
  | cons s ss' ih =>
    obtain ⟨m, hm, hd⟩ := defineAll_cons_eq_ok_iff.1 hd
    have hfresh := (exists_define_eq_ok_iff.1 ⟨m, hm⟩).2
    have hstep : ((ss ++ [s]).filterMap directive?).Nodup := by
      rw [List.filterMap_append, List.nodup_append]
      refine ⟨hnodup, ?_, ?_⟩
      · cases hk : s.directive? <;> simp [hk]
      · intro k hold k' hnew heq
        obtain ⟨s', hs', hk⟩ := List.mem_filterMap.1 hold
        have hk' : s.directive? = some k' := by simpa using hnew
        have hhas : d.has k := h.has_iff.2 ⟨s', hs', hk⟩
        rw [heq, hfresh k' hk'] at hhas
        cases hhas
    have hrest := ih (h.define hm) hstep hd
    rwa [List.append_assoc] at hrest

/-- The transition that stands for a state and a symbol is said by some statement. -/
theorem Denotes.mem_of_find {d : Draft} {ss : List Statement} (h : d.Denotes ss) {q : State}
    {a : Symbol} {t : Transition} (ht : d.table.find? q a = some t) :
    .transition q a t.next t.write t.move ∈ ss ∧ t.read = a := by
  rw [h.find] at ht
  obtain ⟨s, hs, ht⟩ := List.exists_of_findSome?_eq_some ht
  obtain ⟨rfl, hread⟩ := transition?_eq_some_iff.1 ht
  exact ⟨List.mem_reverse.1 hs, hread⟩

theorem Denotes.exists_find {d : Draft} {ss : List Statement} (h : d.Denotes ss) {q u : State}
    {a b : Symbol} {m : Move} (hs : .transition q a u b m ∈ ss) :
    ∃ t, d.table.find? q a = some t := by
  rw [← Option.isSome_iff_exists, h.find, List.findSome?_isSome_iff]
  exact ⟨_, List.mem_reverse.2 hs, by simp [transition?]⟩

/-- Every symbol of a transition is the blank or counts as an input symbol. -/
theorem Denotes.symbols_mem {d : Draft} {ss : List Statement} (h : d.Denotes ss) {c : Symbol}
    (hblank : .blank c ∈ ss) {s : Statement} (hs : s ∈ ss) {a : Symbol} (ha : a ∈ s.symbols) :
    a ∈ d.input.insert c := by
  rw [SortedSet.mem_insert]
  by_cases hac : a = c
  · exact .inl hac
  · have hother : .blank a ∉ ss := by
      intro hmem
      have hsome := (h.blank a).2 hmem
      rw [(h.blank c).2 hblank] at hsome
      exact hac (Option.some.inj hsome).symm
    exact .inr ((h.input a).2 ((mention_iff_of_notMem hother).2 ⟨s, hs, ha⟩))

/-- A draft with its three directives is complete, and its parts fit together. -/
theorem Denotes.finish {d : Draft} {ss : List Statement} (h : d.Denotes ss) {q p : State}
    {c : Symbol} (hq : .initial q ∈ ss) (hc : .blank c ∈ ss) (hp : .halt p ∈ ss) :
    d.finish = .ok ⟨d.states, d.input, d.input.insert c, d.table, q, d.finals, p, c⟩ := by
  have hvalid : Machine.Valid
      ⟨d.states, d.input, d.input.insert c, d.table, q, d.finals, p, c⟩ := by
    constructor
    · intro a ha
      exact SortedSet.mem_insert.2 (.inr ha)
    · exact SortedSet.mem_insert.2 (.inl rfl)
    · exact (h.states q).2 ⟨_, hq, by simp [Statement.states]⟩
    · intro r hr
      exact (h.states r).2 ⟨_, (h.finals r).1 hr, by simp [Statement.states]⟩
    · exact (h.states p).2 ⟨_, hp, by simp [Statement.states]⟩
    · intro e he
      obtain ⟨hs, -⟩ := h.mem_of_find (Table.mem_entries.1 he)
      constructor
      · exact (h.states _).2 ⟨_, hs, by simp [Statement.states]⟩
      · exact (h.states _).2 ⟨_, hs, by simp [Statement.states]⟩
      · exact h.symbols_mem hc hs (by simp [symbols])
      · exact h.symbols_mem hc hs (by simp [symbols])
      · exact h.proper _ hs
  have hassemble : d.assemble =
      .ok ⟨d.states, d.input, d.input.insert c, d.table, q, d.finals, p, c⟩ := by
    simp only [assemble, (h.initial q).2 hq, (h.blank c).2 hc, (h.halt p).2 hp]
  simp only [Draft.finish, hassemble, bind, Except.bind, Machine.check_eq_ok_iff.2 hvalid, pure,
    Except.pure]

end Draft
end SingleTape
