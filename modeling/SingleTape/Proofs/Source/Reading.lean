import Mathlib.Data.List.Nodup
import SingleTape.Proofs.Draft.Denotation
import SingleTape.Proofs.Source.Grammar

/-!
What a text says. A text in which every line is legible and every directive stands once is read as
the machine that its statements describe; any other text is refused at its first faulty line or,
when no line is at fault, for the first directive that is missing.
-/

namespace SingleTape

/-- The parts of a machine in the order in which they are asked for. -/
def Directive.all : List Directive := [initial, blank, halt]

namespace Statement

open Text

/-- The statements on lines, in their order. -/
def ofLines (ls : List Text) : List Statement := ls.filterMap fun l => ofLine? l.dropReturn

def ofText (source : Text) : List Statement := ofLines source.lines

/-- A line of white space, or one with a statement. -/
def Legible (l : Text) : Prop := Spaces l.dropReturn ∨ ∃ s, ofLine? l.dropReturn = some s

/-- The states between which a transition leads. -/
def ends : Statement → List State
  | transition q _ t _ _ => [q, t]
  | _ => []

theorem proper_of_ofLine? {l : Text} {s : Statement} (h : ofLine? l = some s) : s.Proper := by
  have hspells := spells_of_ofLine? h
  cases s with
  | transition q a t b m =>
    cases hspells
    assumption
  | _ => trivial

theorem proper_of_mem_ofLines {ls : List Text} {s : Statement} (h : s ∈ ofLines ls) :
    s.Proper := by
  obtain ⟨l, -, hs⟩ := List.mem_filterMap.1 h
  exact proper_of_ofLine? hs

theorem ofLine?_of_spaces {l : Text} (h : Spaces l) : ofLine? l = none := by
  rw [Option.eq_none_iff_forall_ne_some]
  intro s hs
  exact not_spaces_of_spells (spells_of_ofLine? hs) h

theorem ofLines_cons_of_spaces {l : Text} {ls : List Text} (h : Spaces l.dropReturn) :
    ofLines (l :: ls) = ofLines ls :=
  List.filterMap_cons_none (ofLine?_of_spaces h)

theorem ofLines_cons_of_ofLine? {l : Text} {ls : List Text} {s : Statement}
    (h : ofLine? l.dropReturn = some s) : ofLines (l :: ls) = s :: ofLines ls :=
  List.filterMap_cons_some h

/-- Why a line is refused when it comes after the given statements. -/
inductive Fault (ss : List Statement) (l : Text) : ErrorKind → Text → Prop
  | unrecognized (hsolid : ¬Spaces l) (hnone : ofLine? l = none) :
    Fault ss l .unrecognizedLine ("Unrecognized pattern: " ++ l)
  | repeated {s : Statement} {k : Directive} (hs : ofLine? l = some s)
      (hk : s.directive? = some k) (hmem : k ∈ ss.filterMap directive?) :
    Fault ss l .duplicateDirective k.repeated.text

/-- A symbol is an input symbol when some transition mentions it and no line before that transition
declares it the blank. -/
theorem mention_iff_exists {ss : List Statement} {c : Symbol} :
    Mention ss c ↔ ∃ before s after, ss = before ++ s :: after ∧ c ∈ s.symbols ∧
      .blank c ∉ before := by
  induction ss with
  | nil => simp [not_mention_nil]
  | cons x ss ih =>
    rw [mention_cons, ih]
    constructor
    · intro h
      obtain ⟨hx, hc | ⟨before, s, after, rfl, hs, hblank⟩⟩ := h
      · exact ⟨[], x, ss, rfl, hc, by simp⟩
      · refine ⟨x :: before, s, after, rfl, hs, ?_⟩
        simp [Ne.symm hx, hblank]
    · intro h
      obtain ⟨before, s, after, hsplit, hs, hblank⟩ := h
      cases before with
      | nil =>
        obtain ⟨rfl, rfl⟩ := List.cons.inj hsplit
        refine ⟨?_, .inl hs⟩
        intro hx
        simp [hx, symbols] at hs
      | cons y before =>
        obtain ⟨rfl, rfl⟩ := List.cons.inj hsplit
        obtain ⟨hx, hblank⟩ := not_or.1 (mt List.mem_cons.2 hblank)
        exact ⟨Ne.symm hx, .inr ⟨before, s, after, rfl, hs, hblank⟩⟩

/-- The last of the statements that give a transition for a state and a symbol counts. -/
theorem findSome?_reverse_eq_some_iff {ss : List Statement} {q : State} {a : Symbol}
    {t : Transition} :
    ss.reverse.findSome? (transition? q a) = some t ↔ t.read = a ∧ ∃ before after,
      ss = before ++ .transition q a t.next t.write t.move :: after ∧
        ∀ s ∈ after, s.transition? q a = none := by
  rw [List.findSome?_eq_some_iff]
  constructor
  · intro h
    obtain ⟨later, s, earlier, hsplit, hs, hlater⟩ := h
    obtain ⟨rfl, hread⟩ := transition?_eq_some_iff.1 hs
    have hss := congrArg List.reverse hsplit
    rw [List.reverse_reverse, List.reverse_append, List.reverse_cons, List.append_assoc,
      List.singleton_append] at hss
    refine ⟨hread, earlier.reverse, later.reverse, hss, ?_⟩
    intro x hx
    exact hlater x (List.mem_reverse.1 hx)
  · intro h
    obtain ⟨hread, before, after, rfl, hafter⟩ := h
    refine ⟨after.reverse, _, before.reverse, ?_, transition?_eq_some_iff.2 ⟨rfl, hread⟩, ?_⟩
    · rw [List.reverse_append, List.reverse_cons, List.append_assoc, List.singleton_append]
    · intro x hx
      exact hafter x (List.mem_reverse.1 hx)

/-- Each directive stands once when all stand there and none twice. -/
theorem count_directive?_eq_one_iff {ss : List Statement} :
    (∀ k, (ss.filterMap directive?).count k = 1) ↔
      (ss.filterMap directive?).Nodup ∧ ∀ k, k ∈ ss.filterMap directive? := by
  rw [List.nodup_iff_count_le_one]
  constructor
  · intro h
    have hpos : ∀ k, 0 < (ss.filterMap directive?).count k := by
      intro k
      rw [h k]
      exact Nat.one_pos
    exact ⟨fun k => Nat.le_of_eq (h k), fun k => List.count_pos_iff.1 (hpos k)⟩
  · intro h k
    obtain ⟨hle, hmem⟩ := h
    exact Nat.le_antisymm (hle k) (List.count_pos_iff.2 (hmem k))

/-- Every line is legible and every directive stands once. -/
structure Complete (source : Text) : Prop where
  legible : ∀ l ∈ source.lines, Legible l
  once : ∀ k, ((ofText source).filterMap directive?).count k = 1

/-- Which error a text is refused with: that of the first faulty line, or the one for the first
directive that is missing. -/
inductive Refused (source : Text) : Error → Prop
  | line {before after : List Text} {l : Text} {kind : ErrorKind} {text : Text}
      (hlines : source.lines = before ++ l :: after) (hlegible : ∀ x ∈ before, Legible x)
      (hnodup : ((ofLines before).filterMap directive?).Nodup)
      (hfault : Fault (ofLines before) l.dropReturn kind text) :
    Refused source (.parse kind (Int32.ofNat (before.length + 1)) text)
  | missing {k : Directive} (hlegible : ∀ l ∈ source.lines, Legible l)
      (hnodup : ((ofText source).filterMap directive?).Nodup)
      (hfirst : Directive.all.find? (· ∉ (ofText source).filterMap directive?) = some k) :
    Refused source k.missing

end Statement

open Statement

/-- The machine is what the statements say, and nothing else. -/
structure Machine.Realizes (M : Machine) (ss : List Statement) : Prop where
  initial : .initial M.initial ∈ ss
  blank : .blank M.blank ∈ ss
  halt : .halt M.halt ∈ ss
  finals : ∀ q, q ∈ M.finals ↔ .final q ∈ ss
  states : ∀ q, q ∈ M.states ↔ q = M.initial ∨ q = M.halt ∨ q ∈ M.finals ∨ ∃ s ∈ ss, q ∈ s.ends
  alphabet : ∀ c, c ∈ M.alphabet ↔ c = M.blank ∨ ∃ s ∈ ss, c ∈ s.symbols
  /-- Up to the line of the blank, the blank is a symbol like any other. -/
  input : ∀ c, c ∈ M.input ↔ ∃ before s after, ss = before ++ s :: after ∧ c ∈ s.symbols ∧
    .blank c ∉ before
  /-- Of the transitions from one state on one symbol the last one counts. -/
  find : ∀ q a t, M.table.find? q a = some t ↔ t.read = a ∧ ∃ before after,
    ss = before ++ .transition q a t.next t.write t.move :: after ∧
      ∀ s ∈ after, s.transition? q a = none
  filled : M.table.Filled

namespace Draft

theorem readLine_of_spaces {l : Text} (h : l.Spaces) (d : Draft) : d.readLine l = .ok d :=
  if_pos (List.all_eq_true.2 h)

theorem readLine_of_ofLine? {l : Text} {s : Statement} (h : ofLine? l = some s) (d : Draft) :
    d.readLine l = d.define s := by
  have hsolid : l.all Text.isSpace ≠ true := by
    intro hl
    exact not_spaces_of_spells (spells_of_ofLine? h) (List.all_eq_true.1 hl)
  simp only [readLine, if_neg hsolid, h]

theorem readLine_of_ofLine?_eq_none {l : Text} (hsolid : ¬l.Spaces) (h : ofLine? l = none)
    (d : Draft) :
    d.readLine l = .error (.parse .unrecognizedLine 0 ("Unrecognized pattern: " ++ l)) := by
  have hsolid : l.all Text.isSpace ≠ true := mt List.all_eq_true.1 hsolid
  simp only [readLine, if_neg hsolid, h]

/-- Reading lines is taking in the statements that stand on them. -/
theorem readLines_eq_ok_iff {d d' : Draft} {n : Int32} {ls : List Text} :
    d.readLines n ls = (d', none) ↔
      (∀ l ∈ ls, Legible l) ∧ d.defineAll (ofLines ls) = .ok d' := by
  induction ls generalizing d n with
  | nil => simp [readLines, ofLines, defineAll, pure_eq_ok_iff]
  | cons l ls ih =>
    rw [List.forall_mem_cons]
    by_cases hspaces : l.dropReturn.Spaces
    · have hl : Legible l := .inl hspaces
      simp only [readLines, readLine_of_spaces hspaces, ih, ofLines_cons_of_spaces hspaces, hl,
        true_and]
    · cases hs : ofLine? l.dropReturn with
      | none =>
        have hl : ¬Legible l := by
          intro hl
          rcases hl with hl | ⟨s, hl⟩
          · exact hspaces hl
          · rw [hs] at hl
            cases hl
        simp [readLines, readLine_of_ofLine?_eq_none hspaces hs, hl]
      | some s =>
        have hl : Legible l := .inr ⟨s, hs⟩
        rw [ofLines_cons_of_ofLine? hs, defineAll_cons_eq_ok_iff]
        simp only [readLines, readLine_of_ofLine? hs, hl, true_and]
        cases hd : d.define s with
        | error e => simp
        | ok m => simp [ih]

/-- A line further on, with one line less behind it. -/
theorem number_add_succ (n : Int32) (k : Nat) :
    n + Int32.ofNat (k + 1) = n + 1 + Int32.ofNat k := by
  rw [Nat.add_comm, Int32.ofNat_add, ← Int32.add_assoc]
  rfl

theorem number_add_zero (n : Int32) : n + Int32.ofNat 0 = n := Int32.add_zero n

/-- Reading stops at the first line that is refused, and says which one it is. -/
theorem readLines_eq_error_iff {d d' : Draft} {n : Int32} {ls : List Text} {e : Error} :
    d.readLines n ls = (d', some e) ↔ ∃ before l after e', ls = before ++ l :: after ∧
      d.readLines n before = (d', none) ∧ d'.readLine l.dropReturn = .error e' ∧
      e = e'.atLine (n + Int32.ofNat before.length) := by
  induction ls generalizing d n with
  | nil => simp [readLines]
  | cons l ls ih =>
    constructor
    · intro h
      rw [readLines] at h
      cases hl : d.readLine l.dropReturn with
      | error e' =>
        rw [hl] at h
        obtain ⟨rfl, he⟩ := Prod.mk.inj h
        refine ⟨[], l, ls, e', rfl, rfl, hl, ?_⟩
        rw [List.length_nil, number_add_zero]
        exact (Option.some.inj he).symm
      | ok m =>
        rw [hl] at h
        obtain ⟨before, l', after, e', rfl, hbefore, hl', rfl⟩ := ih.1 h
        refine ⟨l :: before, l', after, e', rfl, ?_, hl', ?_⟩
        · simp only [readLines, hl, hbefore]
        · rw [List.length_cons, number_add_succ]
    · intro h
      obtain ⟨before, l', after, e', hsplit, hbefore, hl', rfl⟩ := h
      cases before with
      | nil =>
        obtain ⟨rfl, rfl⟩ := List.cons.inj hsplit
        obtain ⟨rfl, -⟩ := Prod.mk.inj hbefore
        simp only [readLines, hl', List.length_nil, number_add_zero]
      | cons x before =>
        obtain ⟨rfl, rfl⟩ := List.cons.inj hsplit
        rw [readLines] at hbefore ⊢
        cases hl : d.readLine l.dropReturn with
        | error e'' =>
          rw [hl] at hbefore
          cases (Prod.mk.inj hbefore).2
        | ok m =>
          rw [hl] at hbefore
          refine ih.2 ⟨before, l', after, e', rfl, hbefore, hl', ?_⟩
          rw [List.length_cons, number_add_succ]

/-- Lines are counted from 1 on. -/
theorem readText_eq_error_iff {d d' : Draft} {source : Text} {e : Error} :
    d.readText source = (d', some e) ↔ ∃ before l after e', source.lines = before ++ l :: after ∧
      d.readLines 1 before = (d', none) ∧ d'.readLine l.dropReturn = .error e' ∧
      e = e'.atLine (Int32.ofNat (before.length + 1)) := by
  have hnumber : ∀ k, Int32.ofNat (k + 1) = 1 + Int32.ofNat k := by
    intro k
    rw [Int32.ofNat_add, Int32.add_comm]
    rfl
  simp only [hnumber]
  exact readLines_eq_error_iff

/-- A statement that is refused repeats a directive. -/
theorem repeated_of_define {d : Draft} {s : Statement} {e : Error} (hs : s.Proper)
    (h : d.define s = .error e) :
    ∃ k, s.directive? = some k ∧ d.has k ∧ e = k.repeated := by
  cases s with
  | transition q a t b m =>
    have hm : m.isValid := hs
    simp [define, addTransition, hm] at h
  | comment => cases h
  | final q => cases h
  | initial q =>
    rw [define] at h
    split at h
    · next hinitial => exact ⟨.initial, rfl, hinitial, (Except.error.inj h).symm⟩
    · cases h
  | blank c =>
    rw [define] at h
    split at h
    · next hblank => exact ⟨.blank, rfl, hblank, (Except.error.inj h).symm⟩
    · cases h
  | halt q =>
    rw [define] at h
    split at h
    · next hhalt => exact ⟨.halt, rfl, hhalt, (Except.error.inj h).symm⟩
    · cases h

theorem define_of_has {d : Draft} {s : Statement} {k : Directive} (hk : s.directive? = some k)
    (h : d.has k) : d.define s = .error k.repeated := by
  cases s with
  | initial q =>
    obtain rfl := Option.some.inj hk
    exact if_pos h
  | blank c =>
    obtain rfl := Option.some.inj hk
    exact if_pos h
  | halt q =>
    obtain rfl := Option.some.inj hk
    exact if_pos h
  | _ => cases hk

theorem atLine_repeated (k : Directive) (n : Int32) :
    k.repeated.atLine n = .parse .duplicateDirective n k.repeated.text := by
  cases k <;> rfl

theorem Denotes.has_iff_mem {d : Draft} {ss : List Statement} (h : d.Denotes ss) {k : Directive} :
    d.has k ↔ k ∈ ss.filterMap directive? :=
  h.has_iff.trans List.mem_filterMap.symm

/-- A line is refused for its fault alone. -/
theorem Denotes.readLine_eq_error_iff {d : Draft} {ss : List Statement} (h : d.Denotes ss)
    (l : Text) (n : Int32) (e : Error) :
    (∃ e', d.readLine l = .error e' ∧ e = e'.atLine n) ↔
      ∃ kind text, Fault ss l kind text ∧ e = .parse kind n text := by
  constructor
  · intro herror
    obtain ⟨e', hl, rfl⟩ := herror
    by_cases hspaces : l.Spaces
    · rw [readLine_of_spaces hspaces] at hl
      cases hl
    · cases hs : ofLine? l with
      | none =>
        rw [readLine_of_ofLine?_eq_none hspaces hs] at hl
        obtain rfl := Except.error.inj hl
        exact ⟨_, _, .unrecognized hspaces hs, rfl⟩
      | some s =>
        rw [readLine_of_ofLine? hs] at hl
        obtain ⟨k, hk, hhas, rfl⟩ := repeated_of_define (proper_of_ofLine? hs) hl
        exact ⟨_, _, .repeated hs hk (h.has_iff_mem.1 hhas), atLine_repeated k n⟩
  · intro hfault
    obtain ⟨kind, text, hfault, rfl⟩ := hfault
    cases hfault with
    | unrecognized hsolid hnone => exact ⟨_, readLine_of_ofLine?_eq_none hsolid hnone d, rfl⟩
    | @repeated s k hs hk hmem =>
      refine ⟨k.repeated, ?_, (atLine_repeated k n).symm⟩
      rw [readLine_of_ofLine? hs, define_of_has hk (h.has_iff_mem.2 hmem)]

/-- Statements are all taken in when no directive stands there twice. -/
theorem exists_defineAll_ofLines_iff {ls : List Text} :
    (∃ d, (∅ : Draft).defineAll (ofLines ls) = .ok d) ↔
      ((ofLines ls).filterMap directive?).Nodup := by
  constructor
  · intro h
    obtain ⟨d, hd⟩ := h
    exact denotes_empty.nodup_of_defineAll (by simp) hd
  · intro h
    exact denotes_empty.exists_defineAll_eq_ok (fun s hs => proper_of_mem_ofLines hs) h

theorem Denotes.mem_states_iff {d : Draft} {ss : List Statement} (h : d.Denotes ss) {q p : State}
    (hq : .initial q ∈ ss) (hp : .halt p ∈ ss) (r : State) :
    r ∈ d.states ↔ r = q ∨ r = p ∨ r ∈ d.finals ∨ ∃ s ∈ ss, r ∈ s.ends := by
  rw [h.states]
  constructor
  · intro hr
    obtain ⟨s, hs, hr⟩ := hr
    cases s with
    | transition _ _ _ _ _ => exact .inr (.inr (.inr ⟨_, hs, hr⟩))
    | final r' =>
      obtain rfl := List.mem_singleton.1 hr
      exact .inr (.inr (.inl ((h.finals r).2 hs)))
    | initial r' =>
      obtain rfl := List.mem_singleton.1 hr
      have hsame : some r = some q := ((h.initial r).2 hs).symm.trans ((h.initial q).2 hq)
      exact .inl (Option.some.inj hsame)
    | halt r' =>
      obtain rfl := List.mem_singleton.1 hr
      have hsame : some r = some p := ((h.halt r).2 hs).symm.trans ((h.halt p).2 hp)
      exact .inr (.inl (Option.some.inj hsame))
    | _ => cases hr
  · intro hr
    rcases hr with rfl | rfl | hr | ⟨s, hs, hr⟩
    · exact ⟨_, hq, List.mem_singleton_self r⟩
    · exact ⟨_, hp, List.mem_singleton_self r⟩
    · exact ⟨_, (h.finals r).1 hr, List.mem_singleton_self r⟩
    · cases s with
      | transition _ _ _ _ _ => exact ⟨_, hs, hr⟩
      | _ => cases hr

theorem Denotes.mem_alphabet_iff {d : Draft} {ss : List Statement} (h : d.Denotes ss) {c : Symbol}
    (hc : .blank c ∈ ss) (a : Symbol) :
    a ∈ d.input.insert c ↔ a = c ∨ ∃ s ∈ ss, a ∈ s.symbols := by
  constructor
  · intro ha
    rcases SortedSet.mem_insert.1 ha with rfl | ha
    · exact .inl rfl
    · obtain ⟨before, s, after, rfl, hs, -⟩ := mention_iff_exists.1 ((h.input a).1 ha)
      exact .inr ⟨s, by simp, hs⟩
  · intro ha
    rcases ha with rfl | ⟨s, hs, ha⟩
    · exact SortedSet.mem_insert.2 (.inl rfl)
    · exact h.symbols_mem hc hs ha

theorem Denotes.realizes {d : Draft} {ss : List Statement} (h : d.Denotes ss) {q p : State}
    {c : Symbol} (hq : .initial q ∈ ss) (hc : .blank c ∈ ss) (hp : .halt p ∈ ss) :
    Machine.Realizes ⟨d.states, d.input, d.input.insert c, d.table, q, d.finals, p, c⟩ ss where
  initial := hq
  blank := hc
  halt := hp
  finals := h.finals
  states := h.mem_states_iff hq hp
  alphabet := h.mem_alphabet_iff hc
  input a := by
    rw [h.input]
    exact mention_iff_exists
  find r a t := by
    rw [h.find]
    exact findSome?_reverse_eq_some_iff
  filled := h.filled

/-- With all directives a draft is finished as the machine of its statements. -/
theorem Denotes.finish_of_all {d : Draft} {ss : List Statement} (h : d.Denotes ss)
    (hall : ∀ k, k ∈ ss.filterMap directive?) : ∃ M, d.finish = .ok M ∧ M.Realizes ss := by
  obtain ⟨q, hq⟩ := Option.isSome_iff_exists.1 (h.has_iff_mem.2 (hall .initial))
  obtain ⟨c, hc⟩ := Option.isSome_iff_exists.1 (h.has_iff_mem.2 (hall .blank))
  obtain ⟨p, hp⟩ := Option.isSome_iff_exists.1 (h.has_iff_mem.2 (hall .halt))
  have hq := (h.initial q).1 hq
  have hc := (h.blank c).1 hc
  have hp := (h.halt p).1 hp
  exact ⟨_, h.finish hq hc hp, h.realizes hq hc hp⟩

/-- A draft is not finished for the first directive that it lacks. -/
theorem finish_of_lacking {d : Draft} {k : Directive}
    (h : Directive.all.find? (fun k => !d.has k) = some k) : d.finish = .error k.missing := by
  have hassemble : d.assemble = .error k.missing := by
    unfold assemble
    cases hq : d.initial with
    | none =>
      obtain rfl : .initial = k := by simpa [Directive.all, has, hq] using h
      rfl
    | some q =>
      cases hc : d.blank with
      | none =>
        obtain rfl : .blank = k := by simpa [Directive.all, has, hq, hc] using h
        rfl
      | some c =>
        cases hp : d.halt with
        | none =>
          obtain rfl : .halt = k := by simpa [Directive.all, has, hq, hc, hp] using h
          rfl
        | some p => simp [Directive.all, has, hq, hc, hp] at h
  simp only [finish, hassemble, bind, Except.bind]

theorem Denotes.finish_of_missing {d : Draft} {ss : List Statement} (h : d.Denotes ss)
    {k : Directive} (hk : Directive.all.find? (· ∉ ss.filterMap directive?) = some k) :
    d.finish = .error k.missing := by
  apply finish_of_lacking
  rw [← hk]
  congr 1
  funext k'
  cases hhas : d.has k' with
  | true => simpa using h.has_iff_mem.1 hhas
  | false =>
    have hnot : k' ∉ ss.filterMap directive? := by
      intro hmem
      rw [h.has_iff_mem.2 hmem] at hhas
      cases hhas
    simp [hnot]

end Draft

theorem Statement.Complete.exists_denotes {source : Text} (h : Complete source) :
    ∃ d : Draft, d.Denotes (ofText source) := by
  obtain ⟨d, hd⟩ := Draft.exists_defineAll_ofLines_iff.2 (count_directive?_eq_one_iff.1 h.once).1
  exact ⟨d, Draft.denotes_of_defineAll hd⟩

namespace Machine

/-- Statements that a draft can take in leave no choice in their machine. -/
theorem Realizes.eq {M N : Machine} {d : Draft} {ss : List Statement} (hM : M.Realizes ss)
    (hN : N.Realizes ss) (hd : d.Denotes ss) : M = N := by
  have hinitial : M.initial = N.initial := by
    have hsome := (hd.initial _).2 hM.initial
    rw [(hd.initial _).2 hN.initial] at hsome
    exact (Option.some.inj hsome).symm
  have hblank : M.blank = N.blank := by
    have hsome := (hd.blank _).2 hM.blank
    rw [(hd.blank _).2 hN.blank] at hsome
    exact (Option.some.inj hsome).symm
  have hhalt : M.halt = N.halt := by
    have hsome := (hd.halt _).2 hM.halt
    rw [(hd.halt _).2 hN.halt] at hsome
    exact (Option.some.inj hsome).symm
  have hfinals : M.finals = N.finals := by
    apply SortedSet.ext
    intro q
    rw [hM.finals, hN.finals]
  have hstates : M.states = N.states := by
    apply SortedSet.ext
    intro q
    rw [hM.states, hN.states, hinitial, hhalt, hfinals]
  have halphabet : M.alphabet = N.alphabet := by
    apply SortedSet.ext
    intro c
    rw [hM.alphabet, hN.alphabet, hblank]
  have hinput : M.input = N.input := by
    apply SortedSet.ext
    intro c
    rw [hM.input, hN.input]
  have htable : M.table = N.table := by
    apply hM.filled.ext hN.filled
    intro q a
    apply Option.ext
    intro t
    rw [hM.find, hN.find]
  cases M
  cases N
  simp_all

theorem exists_ofSource_of_complete {source : Text} (h : Complete source) :
    ∃ M, ofSource source = .ok M ∧ M.Realizes (ofText source) := by
  obtain ⟨hnodup, hall⟩ := count_directive?_eq_one_iff.1 h.once
  obtain ⟨d, hd⟩ := Draft.exists_defineAll_ofLines_iff.2 hnodup
  have hread : (∅ : Draft).readText source = (d, none) :=
    Draft.readLines_eq_ok_iff.2 ⟨h.legible, hd⟩
  obtain ⟨M, hM, hrealizes⟩ := (Draft.denotes_of_defineAll hd).finish_of_all hall
  refine ⟨M, ?_, hrealizes⟩
  simp only [ofSource, hread, hM]

theorem ofSource_of_refused {source : Text} {e : Error} (h : Refused source e) :
    ofSource source = .error e := by
  cases h with
  | @line before after l kind text hlines hlegible hnodup hfault =>
    obtain ⟨d, hd⟩ := Draft.exists_defineAll_ofLines_iff.2 hnodup
    have hbefore : (∅ : Draft).readLines 1 before = (d, none) :=
      Draft.readLines_eq_ok_iff.2 ⟨hlegible, hd⟩
    have hline := (Draft.denotes_of_defineAll hd).readLine_eq_error_iff l.dropReturn
      (Int32.ofNat (before.length + 1))
    obtain ⟨e, hl, he⟩ := (hline _).2 ⟨kind, text, hfault, rfl⟩
    rw [he]
    have hread : (∅ : Draft).readText source =
        (d, some (e.atLine (Int32.ofNat (before.length + 1)))) :=
      Draft.readText_eq_error_iff.2 ⟨before, l, after, e, hlines, hbefore, hl, rfl⟩
    simp only [ofSource, hread]
  | missing hlegible hnodup hfirst =>
    obtain ⟨d, hd⟩ := Draft.exists_defineAll_ofLines_iff.2 hnodup
    have hread : (∅ : Draft).readText source = (d, none) :=
      Draft.readLines_eq_ok_iff.2 ⟨hlegible, hd⟩
    simp only [ofSource, hread, (Draft.denotes_of_defineAll hd).finish_of_missing hfirst]

/-- There is no text about which nothing is said. -/
theorem complete_or_refused (source : Text) : Complete source ∨ ∃ e, Refused source e := by
  rcases hread : (∅ : Draft).readText source with ⟨d, _ | e⟩
  · obtain ⟨hlegible, hd⟩ := Draft.readLines_eq_ok_iff.1 hread
    have hnodup := Draft.exists_defineAll_ofLines_iff.1 ⟨d, hd⟩
    cases hfirst : Directive.all.find? (· ∉ (ofText source).filterMap directive?) with
    | none =>
      have hall : ∀ k, k ∈ (ofText source).filterMap directive? := by
        intro k
        have hk : k ∈ Directive.all := by cases k <;> decide
        simpa using List.find?_eq_none.1 hfirst k hk
      exact .inl ⟨hlegible, count_directive?_eq_one_iff.2 ⟨hnodup, hall⟩⟩
    | some k => exact .inr ⟨_, .missing hlegible hnodup hfirst⟩
  · obtain ⟨before, l, after, e', hlines, hbefore, hl, rfl⟩ := Draft.readText_eq_error_iff.1 hread
    obtain ⟨hlegible, hd⟩ := Draft.readLines_eq_ok_iff.1 hbefore
    have hline := (Draft.denotes_of_defineAll hd).readLine_eq_error_iff l.dropReturn
      (Int32.ofNat (before.length + 1))
    obtain ⟨kind, text, hfault, -⟩ := (hline _).1 ⟨e', hl, rfl⟩
    exact .inr ⟨_, .line hlines hlegible (Draft.exists_defineAll_ofLines_iff.1 ⟨d, hd⟩) hfault⟩

theorem ofSource_eq_ok_iff {source : Text} {M : Machine} :
    ofSource source = .ok M ↔ Complete source ∧ M.Realizes (ofText source) := by
  constructor
  · intro hM
    rcases complete_or_refused source with hcomplete | ⟨e, he⟩
    · obtain ⟨N, hN, hrealizes⟩ := exists_ofSource_of_complete hcomplete
      obtain rfl : M = N := Except.ok.inj (hM.symm.trans hN)
      exact ⟨hcomplete, hrealizes⟩
    · cases hM.symm.trans (ofSource_of_refused he)
  · intro h
    obtain ⟨hcomplete, hrealizes⟩ := h
    obtain ⟨N, hN, hrealizes'⟩ := exists_ofSource_of_complete hcomplete
    obtain ⟨d, hd⟩ := hcomplete.exists_denotes
    rw [hN, hrealizes.eq hrealizes' hd]

theorem ofSource_eq_error_iff {source : Text} {e : Error} :
    ofSource source = .error e ↔ Refused source e := by
  constructor
  · intro he
    rcases complete_or_refused source with hcomplete | ⟨e', he'⟩
    · obtain ⟨N, hN, -⟩ := exists_ofSource_of_complete hcomplete
      cases hN.symm.trans he
    · obtain rfl : e = e' := Except.error.inj (he.symm.trans (ofSource_of_refused he'))
      exact he'
  · exact ofSource_of_refused

/-- Reading computes what the text says. A machine is read if and only if the text is complete, and
it is the one machine that realizes the statements; any other text is refused, with an error that
its first faulty line or its first missing directive determines. -/
theorem ofSource_denotes (source : Text) :
    ((∃ M, ofSource source = .ok M) ↔ Complete source) ∧
      (∀ M, ofSource source = .ok M ↔ Complete source ∧ M.Realizes (ofText source)) ∧
      ∀ e, ofSource source = .error e ↔ Refused source e := by
  refine ⟨⟨?_, ?_⟩, fun M => ofSource_eq_ok_iff, fun e => ofSource_eq_error_iff⟩
  · intro h
    obtain ⟨M, hM⟩ := h
    exact (ofSource_eq_ok_iff.1 hM).1
  · intro h
    obtain ⟨M, hM, -⟩ := exists_ofSource_of_complete h
    exact ⟨M, hM⟩

end Machine
end SingleTape
