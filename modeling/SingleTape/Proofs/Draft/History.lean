import Mathlib.Data.List.Induction
import SingleTape.Proofs.Source.RoundTrip

/-!
Drafts after any sequence of calls. What a draft holds is determined by what it was told since it
was last cleaned, and so is whether it can be finished. It is complete as soon as it was told its
three directives; its parts fit together unless a halt state or a blank was exchanged, for the old
halt state may be forgotten while it is still the initial or a final state, and a symbol that was
not counted as an input symbol because it was the blank may still stand in a transition.
-/

namespace SingleTape

open Statement

namespace Violation

/-- This part of the machine does not fit. -/
def Occurs (M : Machine) : Violation → Prop
  | input c => c ∈ M.input ∧ c ∉ M.alphabet
  | blank c => c = M.blank ∧ c ∉ M.alphabet
  | initial q => q = M.initial ∧ q ∉ M.states
  | final q => q ∈ M.finals ∧ q ∉ M.states
  | halt q => q = M.halt ∧ q ∉ M.states
  | transitionState q e =>
    e ∈ M.table.entries ∧ (q = e.source ∨ q = e.transition.next) ∧ q ∉ M.states
  | transitionSymbol c e =>
    e ∈ M.table.entries ∧ (c = e.symbol ∨ c = e.transition.write) ∧ c ∉ M.alphabet
  | transitionMove e => e ∈ M.table.entries ∧ e.transition.move.isValid = false

end Violation

namespace Machine

theorem mem_violations_iff {M : Machine} {v : Violation} : v ∈ M.violations ↔ v.Occurs M := by
  cases v <;> simp [violations, entryViolations, Violation.Occurs, SortedSet.mem_def]

theorem occurs_of_check {M : Machine} {e : Error} (h : M.check = .error e) :
    ∃ v : Violation, v.Occurs M ∧ e = v.error := by
  unfold check at h
  split at h
  · cases h
  · next v vs hviolations =>
    refine ⟨v, mem_violations_iff.1 ?_, (Except.error.inj h).symm⟩
    rw [hviolations]
    exact List.mem_cons_self

end Machine

namespace Statement

def initial? : Statement → Option State
  | initial q => some q
  | _ => none

def blank? : Statement → Option Symbol
  | blank c => some c
  | _ => none

def halt? : Statement → Option State
  | halt q => some q
  | _ => none

/-- Among the values that the statements give one is followed by a different one. -/
def Exchanged {β : Type} (f : Statement → Option β) (ss : List Statement) : Prop :=
  ∃ before a b after, ss.filterMap f = before ++ a :: b :: after ∧ a ≠ b

section Snoc

variable {β : Type} {f : Statement → Option β} {ss : List Statement} {s : Statement}

theorem Exchanged.snoc (h : Exchanged f ss) : Exchanged f (ss ++ [s]) := by
  obtain ⟨before, a, b, after, hss, hne⟩ := h
  refine ⟨before, a, b, after ++ [s].filterMap f, ?_, hne⟩
  rw [List.filterMap_append, hss, List.append_assoc, List.cons_append, List.cons_append]

theorem exchanged_of_getLast? {a b : β} (ha : (ss.filterMap f).getLast? = some a)
    (hb : f s = some b) (hne : a ≠ b) : Exchanged f (ss ++ [s]) := by
  obtain ⟨before, hbefore⟩ := List.getLast?_eq_some_iff.1 ha
  refine ⟨before, a, b, [], ?_, hne⟩
  rw [List.filterMap_append, hbefore, List.append_assoc, List.filterMap_cons_some hb]
  rfl

theorem getLast?_filterMap_snoc (f : Statement → Option β) (ss : List Statement) (s : Statement) :
    ((ss ++ [s]).filterMap f).getLast? = (f s).or (ss.filterMap f).getLast? := by
  cases hs : f s <;> simp [hs]

theorem isSome_getLast?_filterMap :
    ((ss.filterMap f).getLast?).isSome ↔ ∃ s ∈ ss, (f s).isSome := by
  simp [List.findSome?_isSome_iff]

end Snoc

end Statement

namespace Draft

/-- A call to a draft. The symbols are given as such or as texts. -/
inductive Call where
  | addTransition (source : State) (read : Symbol) (target : State) (write : Symbol) (move : Move)
  | addTransitionText (source : State) (read : Text) (target : State) (write : Text) (move : Move)
  | addFinal (state : State)
  | setInitial (state : State)
  | setBlank (symbol : Symbol)
  | setBlankText (text : Text)
  | setHalt (state : State)
  | clean
  deriving DecidableEq

/-- What a call makes of a draft, or the error with which it is refused. -/
def carryOut (d : Draft) : Call → Except Error Draft
  | .addTransition q a t b m => d.addTransition q a t b m
  | .addTransitionText q a t b m => d.addTransitionText q a t b m
  | .addFinal q => .ok (d.addFinal q)
  | .setInitial q => .ok (d.setInitial q)
  | .setBlank c => .ok (d.setBlank c)
  | .setBlankText t => d.setBlankText t
  | .setHalt q => .ok (d.setHalt q)
  | .clean => .ok ∅

/-- The draft after a call; a call that is refused leaves it as it was. -/
def after (d : Draft) (call : Call) : Draft :=
  match d.carryOut call with
  | .ok d' => d'
  | .error _ => d

/-- The draft after calls that began with an empty one. -/
def afterAll (calls : List Call) : Draft := calls.foldl after ∅

namespace Call

/-- What a call says, unless it is refused. -/
def statement? : Call → Option Statement
  | addTransition q a t b m => if m.isValid then some (.transition q a t b m) else none
  | addTransitionText q [a] t [b] m =>
    if m.isValid then some (.transition q ⟨a⟩ t ⟨b⟩ m) else none
  | addTransitionText _ _ _ _ _ => none
  | addFinal q => some (.final q)
  | setInitial q => some (.initial q)
  | setBlank c => some (.blank c)
  | setBlankText [b] => some (.blank ⟨b⟩)
  | setBlankText _ => none
  | setHalt q => some (.halt q)
  | clean => none

/-- The calls after the last one that cleans the draft. -/
def sinceClean (calls : List Call) : List Call := (calls.reverse.takeWhile (· ≠ clean)).reverse

/-- What a draft was told since it was last cleaned. -/
def told (calls : List Call) : List Statement := (sinceClean calls).filterMap statement?

theorem told_snoc_clean (calls : List Call) : told (calls ++ [clean]) = [] := by
  simp [told, sinceClean]

theorem told_snoc (calls : List Call) {call : Call} (h : call ≠ clean) :
    told (calls ++ [call]) = told calls ++ call.statement?.toList := by
  have hsince : sinceClean (calls ++ [call]) = sinceClean calls ++ [call] := by
    simp [sinceClean, h]
  rw [told, hsince, List.filterMap_append]
  cases hs : call.statement? <;> simp [told, hs]

end Call

/-- The directives and the transitions of a draft are the last ones that it was told. -/
structure Records (d : Draft) (ss : List Statement) : Prop where
  initial : d.initial = (ss.filterMap initial?).getLast?
  blank : d.blank = (ss.filterMap blank?).getLast?
  halt : d.halt = (ss.filterMap halt?).getLast?
  find : ∀ q a, d.table.find? q a = ss.reverse.findSome? (transition? q a)
  proper : ∀ s ∈ ss, s.Proper

theorem Records.snoc {d d' : Draft} {ss : List Statement} (h : d.Records ss) {s : Statement}
    (hs : s.Proper) (hinitial : d'.initial = (initial? s).or d.initial)
    (hblank : d'.blank = (blank? s).or d.blank) (hhalt : d'.halt = (halt? s).or d.halt)
    (hfind : ∀ q a, d'.table.find? q a = (s.transition? q a).or (d.table.find? q a)) :
    d'.Records (ss ++ [s]) where
  initial := by rw [getLast?_filterMap_snoc, hinitial, h.initial]
  blank := by rw [getLast?_filterMap_snoc, hblank, h.blank]
  halt := by rw [getLast?_filterMap_snoc, hhalt, h.halt]
  find q a := by rw [findSome?_snoc, hfind, h.find]
  proper := List.forall_mem_append.2 ⟨h.proper, List.forall_mem_singleton.2 hs⟩

/-- A draft holds what it was told, and its parts fit together as long as its halt state and its
blank are not exchanged. -/
structure Holds (d : Draft) (ss : List Statement) : Prop extends d.Records ss where
  halt_mem : ∀ q, d.halt = some q → q ∈ d.states
  ends_mem : ∀ e ∈ d.table.entries, e.source ∈ d.states ∧ e.transition.next ∈ d.states
  initial_mem : ¬Exchanged halt? ss → ∀ q, d.initial = some q → q ∈ d.states
  finals_mem : ¬Exchanged halt? ss → ∀ q ∈ d.finals, q ∈ d.states
  symbols_mem : ¬Exchanged blank? ss → ∀ e ∈ d.table.entries,
    ∀ c ∈ [e.symbol, e.transition.write], c ∈ d.input ∨ d.blank = some c

theorem holds_empty : (∅ : Draft).Holds [] where
  initial := rfl
  blank := rfl
  halt := rfl
  find _ _ := rfl
  proper := by simp
  halt_mem := by simp [EmptyCollection.emptyCollection]
  ends_mem e he := nomatch he
  initial_mem := by simp [EmptyCollection.emptyCollection]
  finals_mem _ q hq := absurd hq (SortedSet.notMem_empty q)
  symbols_mem _ e he := nomatch he

theorem mem_entries_set {δ : Table} {q : State} {a : Symbol} {t : Transition} {e : Entry}
    (h : e ∈ (δ.set q a t).entries) : e = ⟨q, a, t⟩ ∨ e ∈ δ.entries := by
  rw [Table.mem_entries, Table.find?_set] at h
  split at h
  · next hkey =>
    left
    obtain ⟨p, c, u⟩ := e
    obtain ⟨rfl, rfl⟩ := hkey
    rw [Option.some.inj h]
  · exact .inr (Table.mem_entries.2 h)

/-- The old halt state stays as long as a transition needs it. -/
theorem mem_states_setHalt {d : Draft} {q p : State} :
    p ∈ (d.setHalt q).states ↔ p = q ∨ p ∈ d.states ∧ (d.halt = some p → d.table.mentions p) := by
  unfold setHalt
  cases hhalt : d.halt with
  | none => simp
  | some old =>
    by_cases hmentions : d.table.mentions old
    · simp only [hmentions, if_true, SortedSet.mem_insert, Option.some.injEq]
      grind
    · simp only [hmentions, SortedSet.mem_insert, Option.some.injEq]
      grind [SortedSet.mem_erase]

theorem symbolOfText_eq_ok_or_error (t : Text) :
    (∃ b, t = [b] ∧ symbolOfText t = .ok ⟨b⟩) ∨
      ∃ u, symbolOfText t = .error (.malformedInput u) := by
  unfold symbolOfText
  split
  · next b => exact .inl ⟨b, rfl, rfl⟩
  · exact .inr ⟨_, rfl⟩

/-- A call that says nothing and does not clean the draft is refused. -/
theorem carryOut_of_statement?_eq_none (d : Draft) {call : Call} (hclean : call ≠ .clean)
    (hs : call.statement? = none) : ∃ t, d.carryOut call = .error (.malformedInput t) := by
  have hinvalid : ∀ {q t a b} {m : Move}, ¬m.isValid →
      ∃ u, d.addTransition q a t b m = .error (.malformedInput u) :=
    fun hm => ⟨_, if_neg hm⟩
  fun_cases Call.statement? call with
  | case2 q a t b m hm => exact hinvalid hm
  | case4 q a t b m hm => exact hinvalid hm
  | case5 q a t b m htexts =>
    rcases symbolOfText_eq_ok_or_error a with ⟨x, rfl, hx⟩ | ⟨u, hu⟩
    · rcases symbolOfText_eq_ok_or_error b with ⟨y, rfl, -⟩ | ⟨u, hu⟩
      · exact (htexts x y rfl rfl).elim
      · exact ⟨u, by simp [carryOut, addTransitionText, hx, hu, bind, Except.bind]⟩
    · exact ⟨u, by simp [carryOut, addTransitionText, hu, bind, Except.bind]⟩
  | case10 t htext =>
    rcases symbolOfText_eq_ok_or_error t with ⟨x, rfl, -⟩ | ⟨u, hu⟩
    · exact (htext x rfl).elim
    · exact ⟨u, by simp [carryOut, setBlankText, hu, bind, Except.bind]⟩
  | case12 => exact absurd rfl hclean
  | _ => simp_all [Call.statement?]

namespace Holds

variable {d d' : Draft} {ss : List Statement}

theorem addTransition {q t : State} {a b : Symbol} {m : Move} (h : d.Holds ss)
    (hm : m.isValid) (hd : d.addTransition q a t b m = .ok d') :
    d'.Holds (ss ++ [.transition q a t b m]) := by
  rw [Draft.addTransition, if_pos hm] at hd
  obtain rfl := Except.ok.inj hd
  have hstates : ∀ p ∈ d.states, p ∈ (d.states.insert q).insert t := by
    intro p hp
    simp [hp]
  constructor
  · refine h.toRecords.snoc hm ?_ ?_ ?_ fun p c => ?_
    · rw [mention_initial, mention_initial]
      rfl
    · rw [mention_blank, mention_blank]
      rfl
    · rw [mention_halt, mention_halt]
      rfl
    · rw [Table.find?_set]
      simp only [transition?]
      split <;> rfl
  · intro p hp
    exact hstates p (h.halt_mem p (by simpa using hp))
  · intro e he
    rcases mem_entries_set he with rfl | he
    · simp
    · exact ⟨hstates _ (h.ends_mem e he).1, hstates _ (h.ends_mem e he).2⟩
  · intro hkept p hp
    exact hstates p (h.initial_mem (mt .snoc hkept) p (by simpa using hp))
  · intro hkept p hp
    exact hstates p (h.finals_mem (mt .snoc hkept) p (by simpa using hp))
  · intro hkept e he c hc
    simp only [mem_mention_input, mention_blank]
    rcases mem_entries_set he with rfl | he
    · by_cases hblank : d.blank = some c
      · exact .inr hblank
      · left
        rcases List.mem_pair.1 hc with rfl | rfl
        · exact .inl (.inr ⟨hblank, rfl⟩)
        · exact .inr ⟨hblank, rfl⟩
    · rcases h.symbols_mem (mt .snoc hkept) e he c hc with hinput | hblank
      · exact .inl (.inl (.inl hinput))
      · exact .inr hblank

theorem addFinal (h : d.Holds ss) (q : State) : (d.addFinal q).Holds (ss ++ [.final q]) := by
  have hstates : ∀ p ∈ d.states, p ∈ (d.addFinal q).states :=
    fun p hp => SortedSet.mem_insert.2 (.inr hp)
  constructor
  · exact h.toRecords.snoc trivial rfl rfl rfl fun _ _ => rfl
  · exact fun p hp => hstates p (h.halt_mem p hp)
  · exact fun e he => ⟨hstates _ (h.ends_mem e he).1, hstates _ (h.ends_mem e he).2⟩
  · exact fun hkept p hp => hstates p (h.initial_mem (mt .snoc hkept) p hp)
  · intro hkept p hp
    rcases SortedSet.mem_insert.1 hp with rfl | hp
    · exact SortedSet.mem_insert.2 (.inl rfl)
    · exact hstates p (h.finals_mem (mt .snoc hkept) p hp)
  · exact fun hkept => h.symbols_mem (mt .snoc hkept)

theorem setInitial (h : d.Holds ss) (q : State) : (d.setInitial q).Holds (ss ++ [.initial q]) := by
  have hstates : ∀ p ∈ d.states, p ∈ (d.setInitial q).states :=
    fun p hp => SortedSet.mem_insert.2 (.inr hp)
  constructor
  · exact h.toRecords.snoc trivial rfl rfl rfl fun _ _ => rfl
  · exact fun p hp => hstates p (h.halt_mem p hp)
  · exact fun e he => ⟨hstates _ (h.ends_mem e he).1, hstates _ (h.ends_mem e he).2⟩
  · intro _ p hp
    exact SortedSet.mem_insert.2 (.inl (Option.some.inj hp).symm)
  · exact fun hkept p hp => hstates p (h.finals_mem (mt .snoc hkept) p hp)
  · exact fun hkept => h.symbols_mem (mt .snoc hkept)

theorem setBlank (h : d.Holds ss) (c : Symbol) : (d.setBlank c).Holds (ss ++ [.blank c]) := by
  constructor
  · exact h.toRecords.snoc trivial rfl rfl rfl fun _ _ => rfl
  · exact h.halt_mem
  · exact h.ends_mem
  · exact fun hkept => h.initial_mem (mt .snoc hkept)
  · exact fun hkept => h.finals_mem (mt .snoc hkept)
  · intro hkept e he a ha
    rcases h.symbols_mem (mt .snoc hkept) e he a ha with hinput | hblank
    · exact .inl hinput
    · right
      by_contra hne
      rw [h.blank] at hblank
      exact hkept (exchanged_of_getLast? hblank rfl fun heq => hne (congrArg some heq.symm))

theorem setHalt (h : d.Holds ss) (q : State) : (d.setHalt q).Holds (ss ++ [.halt q]) := by
  have hmentioned : ∀ p ∈ d.states, d.table.mentions p → p ∈ (d.setHalt q).states :=
    fun p hp hmentions => mem_states_setHalt.2 (.inr ⟨hp, fun _ => hmentions⟩)
  -- A halt state that is not exchanged stays, as the new one.
  have hkeep : ¬Exchanged halt? (ss ++ [.halt q]) → ∀ p ∈ d.states, p ∈ (d.setHalt q).states := by
    intro hkept p hp
    by_cases hpq : p = q
    · exact mem_states_setHalt.2 (.inl hpq)
    · refine mem_states_setHalt.2 (.inr ⟨hp, fun hhalt => ?_⟩)
      rw [h.halt] at hhalt
      exact absurd (exchanged_of_getLast? hhalt rfl hpq) hkept
  constructor
  · exact h.toRecords.snoc trivial rfl rfl rfl fun _ _ => rfl
  · intro p hp
    exact mem_states_setHalt.2 (.inl (Option.some.inj hp).symm)
  · intro e he
    have hsource : d.table.mentions e.source := Table.mentions_iff.2 ⟨e, he, .inl rfl⟩
    have hnext : d.table.mentions e.transition.next := Table.mentions_iff.2 ⟨e, he, .inr rfl⟩
    exact ⟨hmentioned _ (h.ends_mem e he).1 hsource, hmentioned _ (h.ends_mem e he).2 hnext⟩
  · exact fun hkept p hp => hkeep hkept p (h.initial_mem (mt .snoc hkept) p hp)
  · exact fun hkept p hp => hkeep hkept p (h.finals_mem (mt .snoc hkept) p hp)
  · exact fun hkept => h.symbols_mem (mt .snoc hkept)

/-- A call that says something is carried out. -/
theorem carryOut (h : d.Holds ss) {call : Call} {s : Statement} (hs : call.statement? = some s) :
    ∃ d', d.carryOut call = .ok d' ∧ d'.Holds (ss ++ [s]) := by
  have htransition : ∀ {q t a b m}, m.isValid → ∃ d', d.addTransition q a t b m = .ok d' ∧
      d'.Holds (ss ++ [.transition q a t b m]) :=
    fun hm => ⟨_, if_pos hm, h.addTransition hm (if_pos hm)⟩
  fun_cases Call.statement? call with
  | case1 q a t b m hm =>
    obtain rfl : .transition q a t b m = s := by simpa [Call.statement?, hm] using hs
    exact htransition hm
  | case2 q a t b m hm => simp [Call.statement?, hm] at hs
  | case3 q a t b m hm =>
    obtain rfl : .transition q ⟨a⟩ t ⟨b⟩ m = s := by simpa [Call.statement?, hm] using hs
    exact htransition hm
  | case4 q a t b m hm => simp [Call.statement?, hm] at hs
  | case5 q a t b m htexts => simp [Call.statement?] at hs
  | case6 q =>
    obtain rfl : .final q = s := Option.some.inj hs
    exact ⟨_, rfl, h.addFinal q⟩
  | case7 q =>
    obtain rfl : .initial q = s := Option.some.inj hs
    exact ⟨_, rfl, h.setInitial q⟩
  | case8 c =>
    obtain rfl : .blank c = s := Option.some.inj hs
    exact ⟨_, rfl, h.setBlank c⟩
  | case9 b =>
    obtain rfl : .blank ⟨b⟩ = s := Option.some.inj hs
    exact ⟨_, rfl, h.setBlank ⟨b⟩⟩
  | case10 t htext => simp [Call.statement?] at hs
  | case11 q =>
    obtain rfl : .halt q = s := Option.some.inj hs
    exact ⟨_, rfl, h.setHalt q⟩
  | case12 => cases hs

end Holds

theorem holds_afterAll (calls : List Call) : (afterAll calls).Holds (Call.told calls) := by
  induction calls using List.reverseRecOn with
  | nil => exact holds_empty
  | append_singleton calls call ih =>
    have hsnoc : afterAll (calls ++ [call]) = (afterAll calls).after call := by
      simp [afterAll]
    rw [hsnoc]
    by_cases hcall : call = .clean
    · rw [hcall, Call.told_snoc_clean]
      exact holds_empty
    · rw [Call.told_snoc calls hcall]
      cases hs : call.statement? with
      | none =>
        obtain ⟨t, ht⟩ := carryOut_of_statement?_eq_none (afterAll calls) hcall hs
        simpa [after, ht] using ih
      | some s =>
        obtain ⟨d', hd', hholds⟩ := ih.carryOut hs
        simpa [after, hd'] using hholds

namespace Holds

variable {d : Draft} {ss : List Statement}

theorem has_iff_mem (h : d.Holds ss) {k : Directive} : d.has k ↔ k ∈ ss.filterMap directive? := by
  rw [List.mem_filterMap]
  cases k with
  | initial =>
    have hkind : ∀ s, (initial? s).isSome ↔ s.directive? = some .initial := by
      intro s
      cases s <;> simp [initial?, directive?]
    simp only [has, h.initial, isSome_getLast?_filterMap, hkind]
  | blank =>
    have hkind : ∀ s, (blank? s).isSome ↔ s.directive? = some .blank := by
      intro s
      cases s <;> simp [blank?, directive?]
    simp only [has, h.blank, isSome_getLast?_filterMap, hkind]
  | halt =>
    have hkind : ∀ s, (halt? s).isSome ↔ s.directive? = some .halt := by
      intro s
      cases s <;> simp [halt?, directive?]
    simp only [has, h.halt, isSome_getLast?_filterMap, hkind]

theorem finish_of_notMem (h : d.Holds ss) {k : Directive} (hk : k ∉ ss.filterMap directive?) :
    ∃ t, d.finish = .error (.completion t) := by
  have hlacks : ∃ k, Directive.all.find? (fun k => !d.has k) = some k := by
    rw [← Option.isSome_iff_exists, List.find?_isSome]
    have hhas : d.has k = false := by
      rw [← Bool.not_eq_true, h.has_iff_mem]
      exact hk
    exact ⟨k, by cases k <;> decide, by simp [hhas]⟩
  obtain ⟨k', hk'⟩ := hlacks
  rw [finish_of_lacking hk']
  cases k' with
  | initial => exact ⟨_, rfl⟩
  | blank => exact ⟨_, rfl⟩
  | halt => exact ⟨_, rfl⟩

/-- A complete draft is finished, or a part of its machine does not fit. -/
theorem exists_assemble (h : d.Holds ss) (hall : ∀ k, k ∈ ss.filterMap directive?) :
    ∃ q c p, d.initial = some q ∧ d.blank = some c ∧ d.halt = some p ∧
      d.assemble =
        .ok ⟨d.states, d.input, d.input.insert c, d.table, q, d.finals, p, c⟩ := by
  obtain ⟨q, hq⟩ := Option.isSome_iff_exists.1 (h.has_iff_mem.2 (hall .initial))
  obtain ⟨c, hc⟩ := Option.isSome_iff_exists.1 (h.has_iff_mem.2 (hall .blank))
  obtain ⟨p, hp⟩ := Option.isSome_iff_exists.1 (h.has_iff_mem.2 (hall .halt))
  exact ⟨q, c, p, hq, hc, hp, by simp only [assemble, hq, hc, hp]⟩

theorem proper_of_mem_entries (h : d.Holds ss) {e : Entry} (he : e ∈ d.table.entries) :
    e.transition.move.isValid := by
  have hfind := Table.mem_entries.1 he
  rw [h.find] at hfind
  obtain ⟨s, hs, hsome⟩ := List.exists_of_findSome?_eq_some hfind
  obtain ⟨rfl, -⟩ := transition?_eq_some_iff.1 hsome
  exact h.proper _ (List.mem_reverse.1 hs)

/-- Only what depends on a halt state or a blank that was exchanged does not fit. -/
theorem exchanged_of_occurs (h : d.Holds ss) {q p : State} {c : Symbol} (hq : d.initial = some q)
    (hc : d.blank = some c) (hp : d.halt = some p) {v : Violation}
    (hv : v.Occurs ⟨d.states, d.input, d.input.insert c, d.table, q, d.finals, p, c⟩) :
    (v.invariant = .initialIsState ∨ v.invariant = .finalsAreStates) ∧ Exchanged halt? ss ∨
      v.invariant = .transitionSymbols ∧ Exchanged blank? ss := by
  cases v with
  | input a => exact absurd (SortedSet.mem_insert.2 (.inr hv.1)) hv.2
  | blank a => exact absurd (SortedSet.mem_insert.2 (.inl hv.1)) hv.2
  | initial r =>
    refine .inl ⟨.inl rfl, ?_⟩
    by_contra hkept
    obtain ⟨rfl, hr⟩ := hv
    exact hr (h.initial_mem hkept _ hq)
  | final r =>
    refine .inl ⟨.inr rfl, ?_⟩
    by_contra hkept
    exact hv.2 (h.finals_mem hkept r hv.1)
  | halt r =>
    obtain ⟨rfl, hr⟩ := hv
    exact absurd (h.halt_mem _ hp) hr
  | transitionState r e =>
    obtain ⟨he, rfl | rfl, hr⟩ := hv
    · exact absurd (h.ends_mem e he).1 hr
    · exact absurd (h.ends_mem e he).2 hr
  | transitionSymbol a e =>
    refine .inr ⟨rfl, ?_⟩
    by_contra hkept
    obtain ⟨he, ha, hmem⟩ := hv
    apply hmem
    rcases h.symbols_mem hkept e he a (by simpa using ha) with hinput | hblank
    · exact SortedSet.mem_insert.2 (.inr hinput)
    · rw [hc] at hblank
      exact SortedSet.mem_insert.2 (.inl (Option.some.inj hblank).symm)
  | transitionMove e =>
    obtain ⟨he, hmove⟩ := hv
    rw [h.proper_of_mem_entries he] at hmove
    cases hmove

/-- Finishing a complete draft. -/
theorem finish_cases (h : d.Holds ss) (hall : ∀ k, k ∈ ss.filterMap directive?) :
    (∃ M, d.finish = .ok M) ∨
      ∃ v : Violation, d.finish = .error v.error ∧
        ((v.invariant = .initialIsState ∨ v.invariant = .finalsAreStates) ∧ Exchanged halt? ss ∨
          v.invariant = .transitionSymbols ∧ Exchanged blank? ss) := by
  obtain ⟨q, c, p, hq, hc, hp, hassemble⟩ := h.exists_assemble hall
  simp only [finish, hassemble, bind, Except.bind]
  cases hcheck : Machine.check _ with
  | ok u => exact .inl ⟨_, rfl⟩
  | error e =>
    obtain ⟨v, hv, rfl⟩ := Machine.occurs_of_check hcheck
    exact .inr ⟨v, rfl, h.exchanged_of_occurs hq hc hp hv⟩

end Holds

theorem exists_carryOut_or_unchanged (calls : List Call) (call : Call) :
    (∃ d, (afterAll calls).carryOut call = .ok d) ∨
      (∃ t, (afterAll calls).carryOut call = .error (.malformedInput t)) ∧
        afterAll (calls ++ [call]) = afterAll calls := by
  by_cases hclean : call = .clean
  · exact .inl ⟨∅, by rw [hclean]; rfl⟩
  · cases hs : call.statement? with
    | some s =>
      obtain ⟨d, hd, -⟩ := (holds_afterAll calls).carryOut hs
      exact .inl ⟨d, hd⟩
    | none =>
      obtain ⟨t, ht⟩ := carryOut_of_statement?_eq_none (afterAll calls) hclean hs
      refine .inr ⟨⟨t, ht⟩, ?_⟩
      simp only [afterAll, List.foldl_append, List.foldl_cons, List.foldl_nil]
      unfold afterAll at ht
      rw [after, ht]

/-- What finishing comes to after any calls. A call is refused when a symbol is not spelled by one
byte or a move means nothing, and then the draft stays as it was. The draft lacks a part if and only
if it was not told a directive since it was last cleaned. Otherwise it is finished, unless a halt
state or a blank was exchanged and its initial state, a final state or a symbol does not fit, and
each transition is the last one that was added for its state and symbol. -/
theorem finish_afterAll (calls : List Call) :
    (∀ call, (∃ d, (afterAll calls).carryOut call = .ok d) ∨
      (∃ t, (afterAll calls).carryOut call = .error (.malformedInput t)) ∧
        afterAll (calls ++ [call]) = afterAll calls) ∧
    ((∃ t, (afterAll calls).finish = .error (.completion t)) ↔
      ∃ k, k ∉ (Call.told calls).filterMap directive?) ∧
    (∀ e, (afterAll calls).finish = .error e → (∃ t, e = .completion t) ∨
      ∃ v : Violation, e = v.error ∧
        ((v.invariant = .initialIsState ∨ v.invariant = .finalsAreStates) ∧
            Exchanged halt? (Call.told calls) ∨
          v.invariant = .transitionSymbols ∧ Exchanged blank? (Call.told calls))) ∧
    ((∀ k, k ∈ (Call.told calls).filterMap directive?) → ¬Exchanged halt? (Call.told calls) →
      ¬Exchanged blank? (Call.told calls) → ∃ M, (afterAll calls).finish = .ok M) ∧
    ∀ M, (afterAll calls).finish = .ok M → ∀ q a,
      M.table.find? q a = (Call.told calls).reverse.findSome? (transition? q a) := by
  have h := holds_afterAll calls
  have hcomplete : (¬∃ k, k ∉ (Call.told calls).filterMap directive?) →
      ∀ k, k ∈ (Call.told calls).filterMap directive? := by
    intro hnone k
    by_contra hk
    exact hnone ⟨k, hk⟩
  refine ⟨exists_carryOut_or_unchanged calls, ⟨?_, ?_⟩, ?_, ?_, ?_⟩
  · intro hcompletion
    obtain ⟨t, ht⟩ := hcompletion
    by_contra hnone
    rcases h.finish_cases (hcomplete hnone) with ⟨M, hM⟩ | ⟨v, hv, -⟩
    · cases hM.symm.trans ht
    · cases hv.symm.trans ht
  · intro hlacks
    obtain ⟨k, hk⟩ := hlacks
    exact h.finish_of_notMem hk
  · intro e he
    by_cases hlacks : ∃ k, k ∉ (Call.told calls).filterMap directive?
    · obtain ⟨k, hk⟩ := hlacks
      obtain ⟨t, ht⟩ := h.finish_of_notMem hk
      exact .inl ⟨t, Except.error.inj (he.symm.trans ht)⟩
    · rcases h.finish_cases (hcomplete hlacks) with ⟨M, hM⟩ | ⟨v, hv, hcause⟩
      · cases hM.symm.trans he
      · exact .inr ⟨v, Except.error.inj (he.symm.trans hv), hcause⟩
  · intro hall hhalt hblank
    rcases h.finish_cases hall with hM | ⟨v, -, ⟨-, hexchanged⟩ | ⟨-, hexchanged⟩⟩
    · exact hM
    · exact absurd hexchanged hhalt
    · exact absurd hexchanged hblank
  · intro M hM q a
    rw [table_of_finish hM, h.find]

/-- The initial state is forgotten with the halt state that it was. -/
example : (afterAll [.setInitial "a", .setBlank (.ofChar '#'), .setHalt "a", .setHalt "b"]).finish =
    .error (Violation.initial "a").error := by rfl

/-- The first blank is not counted as an input symbol. -/
example : (afterAll [.setInitial "a", .setBlank (.ofChar '#'), .setHalt "b",
    .addTransitionText "a" "x" "b" "#" .left, .setBlankText "_"]).finish =
    .error (Violation.transitionSymbol (.ofChar '#')
      ⟨"a", .ofChar 'x', .ofChar 'x', .ofChar '#', .left, "b"⟩).error := by rfl

end Draft
end SingleTape
