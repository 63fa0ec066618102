import SingleTape.Proofs.Execution.Chronicle

/-!
Orderly chronicles. At each moment those who observe the machine stand in the order in which they
were attached, and each event is heard, one after the other, by just those who observed the machine
when it began. A watch over the chronicle remembers who that is and who has yet to hear; whatever it
lets pass is orderly.
-/

namespace SingleTape

open Engine

/-- Nobody comes, goes or hears of anything. -/
def Happening.isSilent : Happening → Bool
  | attached _ => false
  | detached _ => false
  | heard _ _ _ => false
  | _ => true

/-- The list after somebody was attached. -/
theorem Config.attach_observers (c : Config) (name : Text) : (c.attach name).observers =
    if name ∈ c.observers then c.observers else c.observers ++ [name] := by
  unfold attach
  split <;> rfl

namespace Moment

/-- When somebody who has not been detached since was attached, if ever. The past is given from the
latest moment on. -/
def since (name : Text) : List Moment → Option Nat
  | [] => none
  | m :: past => match m.happening with
    | .attached n => if n = name then (since name past).or (some past.length) else since name past
    | .detached n => if n = name then none else since name past
    | _ => since name past

theorem since_lt {name : Text} {past : List Moment} {i : Nat} (h : since name past = some i) :
    i < past.length := by
  induction past with
  | nil => cases h
  | cons m past ih =>
    have hlater : since name past = some i → i < (m :: past).length :=
      fun hpast => Nat.lt_succ_of_lt (ih hpast)
    unfold since at h
    split at h
    · split at h
      · rcases hpast : since name past with _ | j
        · rw [hpast] at h
          cases h
          exact Nat.lt_succ_self _
        · rw [hpast] at h
          exact hlater (hpast.trans h)
      · exact hlater h
    · split at h
      · cases h
      · exact hlater h
    · exact hlater h

theorem since_of_attached {ms : List Moment} {m : Moment} {name : Text}
    (hm : m.happening = .attached name) (n : Text) : since n (ms ++ [m]).reverse =
      if name = n then (since n ms.reverse).or (some ms.length) else since n ms.reverse := by
  rw [List.reverse_concat, since, hm, List.length_reverse]

theorem since_of_detached {ms : List Moment} {m : Moment} {name : Text}
    (hm : m.happening = .detached name) (n : Text) : since n (ms ++ [m]).reverse =
      if name = n then none else since n ms.reverse := by
  rw [List.reverse_concat, since, hm]

/-- These are the ones who are attached, in the order in which they were. -/
structure InOrder (ms : List Moment) (names : List Text) : Prop where
  mem_iff : ∀ name, name ∈ names ↔ (since name ms.reverse).isSome
  ordered : names.Pairwise fun a b =>
    ∃ i j, since a ms.reverse = some i ∧ since b ms.reverse = some j ∧ i < j

namespace InOrder

variable {ms ms' : List Moment} {m : Moment} {names : List Text} {c : Config} {name : Text}

theorem nil : InOrder [] [] where
  mem_iff _ := by simp [since]
  ordered := List.Pairwise.nil

theorem nodup (h : InOrder ms names) : names.Nodup := by
  refine h.ordered.imp ?_
  rintro a b ⟨i, j, hi, hj, hlt⟩ rfl
  have hij : i = j := Option.some.inj (hi.symm.trans hj)
  omega

theorem congr (h : InOrder ms names)
    (hsince : ∀ name, since name ms'.reverse = since name ms.reverse) : InOrder ms' names where
  mem_iff name := by rw [hsince, h.mem_iff]
  ordered := by
    simp only [hsince]
    exact h.ordered

/-- Some of those who are attached are in order as soon as the others are detached. -/
theorem sublist {rest : List Text} (h : InOrder ms names) (hrest : rest.Sublist names)
    (hmem : ∀ n, n ∈ rest ↔ (since n ms'.reverse).isSome)
    (hsince : ∀ n ∈ rest, since n ms'.reverse = since n ms.reverse) : InOrder ms' rest where
  mem_iff := hmem
  ordered := by
    refine (h.ordered.sublist hrest).imp_of_mem fun {a b} ha hb hab => ?_
    rw [hsince a ha, hsince b hb]
    exact hab

/-- As long as nobody comes or goes, the order stays. -/
theorem snoc (h : InOrder ms names) (hattached : ∀ name, m.happening ≠ .attached name)
    (hdetached : ∀ name, m.happening ≠ .detached name) : InOrder (ms ++ [m]) names := by
  refine h.congr fun name => ?_
  rw [List.reverse_concat, since]
  split
  · exact absurd ‹_› (hattached _)
  · exact absurd ‹_› (hdetached _)
  · rfl

/-- Whoever is new is the last. -/
theorem newcomer (h : InOrder ms names) (hm : m.happening = .attached name)
    (hnew : name ∉ names) : InOrder (ms ++ [m]) (names ++ [name]) := by
  have hnone : since name ms.reverse = none := by
    rw [h.mem_iff] at hnew
    simpa using hnew
  have hself : since name (ms ++ [m]).reverse = some ms.length := by
    rw [since_of_attached hm, if_pos rfl, hnone, Option.none_or]
  have hother : ∀ n ∈ names, since n (ms ++ [m]).reverse = since n ms.reverse := by
    intro n hn
    have hne : name ≠ n := by
      rintro rfl
      exact hnew hn
    rw [since_of_attached hm, if_neg hne]
  constructor
  · intro n
    rw [List.mem_append, List.mem_singleton, since_of_attached hm, h.mem_iff]
    by_cases heq : name = n
    · simp [heq]
    · simp [heq, eq_comm (a := n)]
  · refine List.pairwise_append.2 ⟨?_, List.pairwise_singleton .., ?_⟩
    · refine h.ordered.imp_of_mem fun {a b} ha hb hab => ?_
      rw [hother a ha, hother b hb]
      exact hab
    · intro a ha b hb
      obtain rfl := List.mem_singleton.1 hb
      obtain ⟨i, hi⟩ := Option.isSome_iff_exists.1 ((h.mem_iff a).1 ha)
      have hlt := since_lt hi
      rw [List.length_reverse] at hlt
      exact ⟨i, ms.length, (hother a ha).trans hi, hself, hlt⟩

theorem attached (h : InOrder ms c.observers) (hm : m.happening = .attached name) :
    InOrder (ms ++ [m]) (c.attach name).observers := by
  rw [Config.attach_observers]
  by_cases hmem : name ∈ c.observers
  · rw [if_pos hmem]
    refine h.congr fun n => ?_
    rw [since_of_attached hm]
    split
    · next heq =>
      obtain ⟨i, hi⟩ := Option.isSome_iff_exists.1 ((h.mem_iff name).1 hmem)
      rw [← heq, hi, Option.some_or]
    · rfl
  · rw [if_neg hmem]
    exact h.newcomer hm hmem

theorem detached (h : InOrder ms c.observers) (hm : m.happening = .detached name) :
    InOrder (ms ++ [m]) (c.detach name).observers := by
  refine h.sublist List.filter_sublist (fun n => ?_) fun n hn => ?_
  · rw [Config.detach, List.mem_filter, since_of_detached hm, h.mem_iff]
    by_cases heq : name = n
    · simp [heq]
    · simp [heq, eq_comm (a := n)]
  · have hne : n ≠ name := by simpa using (List.mem_filter.1 hn).2
    rw [since_of_detached hm, if_neg hne.symm]

end InOrder

/-- Those who hear of the event that begins at a place, one after the other. -/
def hearers (begin : Nat) (ms : List Moment) : List Text :=
  ms.filterMap fun m => match m.happening with
    | .heard name _ k => if k = begin then some name else none
    | _ => none

@[simp] theorem hearers_append (begin : Nat) (ms ms' : List Moment) :
    hearers begin (ms ++ ms') = hearers begin ms ++ hearers begin ms' :=
  List.filterMap_append

theorem hearers_of_heard {m : Moment} {name : Text} {event : Event} {k : Nat}
    (hm : m.happening = .heard name event k) (begin : Nat) :
    hearers begin [m] = if k = begin then [name] else [] := by
  simp only [hearers, List.filterMap_cons, hm, List.filterMap_nil]
  split <;> simp_all

theorem hearers_of_ne {m : Moment} (hm : ∀ name event k, m.happening ≠ .heard name event k)
    (begin : Nat) : hearers begin [m] = [] := by
  simp only [hearers, List.filterMap_cons, List.filterMap_nil]

/-- An event begins here, outside of all queries. -/
def BeginsAt (ms : List Moment) (begin : Nat) (event : Event) (b : Config) : Prop :=
  ms[begin]? = some { config := b, happening := .begun event }

theorem BeginsAt.lt {ms : List Moment} {begin : Nat} {event : Event} {b : Config}
    (h : BeginsAt ms begin event b) : begin < ms.length :=
  (List.getElem?_eq_some_iff.1 h).1

theorem BeginsAt.append {ms : List Moment} {begin : Nat} {event : Event} {b : Config}
    (h : BeginsAt ms begin event b) (ms' : List Moment) : BeginsAt (ms ++ ms') begin event b := by
  rw [BeginsAt, List.getElem?_append_left h.lt]
  exact h

theorem beginsAt_snoc_iff {ms : List Moment} {m : Moment} {begin : Nat} {event : Event}
    {b : Config} : BeginsAt (ms ++ [m]) begin event b ↔ BeginsAt ms begin event b ∨
      begin = ms.length ∧ m = { config := b, happening := .begun event } := by
  constructor
  · intro h
    by_cases hlt : begin < ms.length
    · rw [BeginsAt, List.getElem?_append_left hlt] at h
      exact .inl h
    · have hle := h.lt
      rw [List.length_append, List.length_singleton] at hle
      obtain rfl : begin = ms.length := by omega
      rw [BeginsAt, List.getElem?_concat_length] at h
      exact .inr ⟨rfl, Option.some.inj h⟩
  · rintro (h | ⟨rfl, rfl⟩)
    · exact h.append [m]
    · exact List.getElem?_concat_length

/-- What is so of each moment of an orderly chronicle, seen from what is past. In a query nobody is
attached, and nobody hears of anything. Otherwise there is nobody twice among those who observe the
machine, and they stand in the order in which they were attached. Whoever hears of an event is the
next of those who observed the machine when it began, and when it is over they all have heard. -/
structure Fits (past : List Moment) (m : Moment) : Prop where
  query : m.queried = true → m.config.observers = [] ∧ m.happening.isSilent
  roster : m.queried = false →
    m.config.observers.Nodup ∧ InOrder (past ++ [m]) m.config.observers
  heard : ∀ name event begin, m.happening = .heard name event begin →
    ∃ e b, BeginsAt past begin e b ∧ event = e.at m.config ∧
      hearers begin past ++ [name] <+: b.observers
  ended : ∀ begin, m.queried = false → m.happening = .ended begin →
    ∃ e b, BeginsAt past begin e b ∧ hearers begin past = b.observers

end Moment

open Moment

/-- An event under way, and who has yet to hear of it. -/
structure Frame where
  begin : Nat
  event : Event
  names : List Text

/-- What a watch over a chronicle remembers: how much of it is past, who observes the machine, and
the events under way, the last one first. -/
structure Watch where
  time : Nat
  roster : List Text
  due : List Frame

/-- What may happen next. -/
inductive Watch.Sees : Watch → Moment → Watch → Prop
  | query {n : Nat} {roster : List Text} {due : List Frame} {c : Config} {happening : Happening}
    (hobs : c.observers = []) (hsilent : happening.isSilent) :
    Sees ⟨n, roster, due⟩ ⟨c, true, happening⟩ ⟨n + 1, roster, due⟩
  | working {n : Nat} {due : List Frame} {c : Config} :
    Sees ⟨n, c.observers, due⟩ ⟨c, false, .working⟩ ⟨n + 1, c.observers, due⟩
  | attached {n : Nat} {due : List Frame} {c : Config} {name : Text} :
    Sees ⟨n, c.observers, due⟩ ⟨c.attach name, false, .attached name⟩
      ⟨n + 1, (c.attach name).observers, due⟩
  | detached {n : Nat} {due : List Frame} {c : Config} {name : Text} :
    Sees ⟨n, c.observers, due⟩ ⟨c.detach name, false, .detached name⟩
      ⟨n + 1, (c.detach name).observers, due⟩
  | begun {n : Nat} {due : List Frame} {c : Config} {event : Event} :
    Sees ⟨n, c.observers, due⟩ ⟨c, false, .begun event⟩
      ⟨n + 1, c.observers, ⟨n, event, c.observers⟩ :: due⟩
  | heard {n begin : Nat} {due : List Frame} {c : Config} {event : Event} {name : Text}
    {names : List Text} :
    Sees ⟨n, c.observers, ⟨begin, event, name :: names⟩ :: due⟩
      ⟨c, false, .heard name (event.at c) begin⟩ ⟨n + 1, c.observers, ⟨begin, event, names⟩ :: due⟩
  | ended {n begin : Nat} {due : List Frame} {c : Config} {event : Event} :
    Sees ⟨n, c.observers, ⟨begin, event, []⟩ :: due⟩ ⟨c, false, .ended begin⟩
      ⟨n + 1, c.observers, due⟩

inductive Watch.Follows : Watch → List Moment → Watch → Prop
  | nil (s : Watch) : Follows s [] s
  | cons {s s' s'' : Watch} {m : Moment} {ms : List Moment} (hfirst : s.Sees m s')
    (hrest : Follows s' ms s'') : Follows s (m :: ms) s''

namespace Watch

theorem Sees.follows {s s' : Watch} {m : Moment} (h : s.Sees m s') : s.Follows [m] s' :=
  .cons h (.nil s')

theorem Follows.append {s s' s'' : Watch} {ms ms' : List Moment} (h : s.Follows ms s')
    (h' : s'.Follows ms' s'') : s.Follows (ms ++ ms') s'' := by
  induction h with
  | nil => exact h'
  | cons hfirst _ ih => exact .cons hfirst (ih h')

theorem Sees.roster_eq {s s' : Watch} {m : Moment} (h : s.Sees m s') (hm : m.queried = false) :
    s'.roster = m.config.observers := by
  cases h with
  | query => cases hm
  | _ => rfl

/-- What the watch remembers is what the chronicle says. -/
structure Remembers (s : Watch) (ms : List Moment) : Prop where
  time_eq : s.time = ms.length
  roster : InOrder ms s.roster
  heard_lt : ∀ m ∈ ms, ∀ name event begin, m.happening = .heard name event begin →
    begin < ms.length
  due : ∀ f ∈ s.due, ∃ b, BeginsAt ms f.begin f.event b ∧
    hearers f.begin ms ++ f.names = b.observers
  distinct : s.due.Pairwise fun f g => f.begin ≠ g.begin
  ended : ∀ begin event b, BeginsAt ms begin event b →
    (∃ f ∈ s.due, f.begin = begin) ∨ ∃ d, { config := d, happening := .ended begin } ∈ ms

namespace Remembers

variable {s s' : Watch} {m : Moment} {ms : List Moment} {n : Nat} {roster roster' : List Text}
  {due : List Frame} {c : Config} {event : Event} {name : Text} {names : List Text} {begin : Nat}

theorem time_snoc (h : Remembers ⟨n, roster, due⟩ ms) (m : Moment) :
    n + 1 = (ms ++ [m]).length := by
  have htime : n = ms.length := h.time_eq
  rw [List.length_append, List.length_singleton, htime]

theorem hearers_eq_nil (h : s.Remembers ms) : hearers ms.length ms = [] := by
  refine List.filterMap_eq_nil_iff.2 fun m hm => ?_
  split
  · next name event begin hhappening =>
    have hlt := h.heard_lt m hm name event begin hhappening
    rw [if_neg (Nat.ne_of_lt hlt)]
  · rfl

theorem heard_lt_snoc (h : s.Remembers ms)
    (hm : ∀ name event begin, m.happening = .heard name event begin → begin < ms.length) :
    ∀ m' ∈ ms ++ [m], ∀ name event begin, m'.happening = .heard name event begin →
      begin < (ms ++ [m]).length := by
  intro m' hm' name event begin hhappening
  have hlt : begin < ms.length := by
    rcases List.mem_append.1 hm' with hold | hnew
    · exact h.heard_lt m' hold name event begin hhappening
    · obtain rfl := List.mem_singleton.1 hnew
      exact hm name event begin hhappening
  rw [List.length_append]
  omega

/-- What is due of an event of which nobody hears at this moment. -/
theorem due_snoc (h : s.Remembers ms) {f : Frame} (hf : f ∈ s.due)
    (hm : hearers f.begin [m] = []) : ∃ b, BeginsAt (ms ++ [m]) f.begin f.event b ∧
      hearers f.begin (ms ++ [m]) ++ f.names = b.observers := by
  obtain ⟨b, hbegins, hnames⟩ := h.due f hf
  exact ⟨b, hbegins.append [m], by rw [hearers_append, hm, List.append_nil, hnames]⟩

theorem ended_snoc (h : s.Remembers ms) (hm : ∀ e b, m ≠ { config := b, happening := .begun e })
    {e : Event} {b : Config} (hbegins : BeginsAt (ms ++ [m]) begin e b) :
    (∃ f ∈ s.due, f.begin = begin) ∨
      ∃ d, { config := d, happening := .ended begin } ∈ ms ++ [m] := by
  rcases beginsAt_snoc_iff.1 hbegins with hold | ⟨-, hnew⟩
  · refine (h.ended begin e b hold).imp_right ?_
    rintro ⟨d, hd⟩
    exact ⟨d, List.mem_append_left [m] hd⟩
  · exact absurd hnew (hm e b)

/-- After a moment in which no event begins or is over and nobody hears of any. -/
theorem snoc (h : Remembers ⟨n, roster, due⟩ ms) (hroster : InOrder (ms ++ [m]) roster')
    (hheard : ∀ name event begin, m.happening ≠ .heard name event begin)
    (hbegun : ∀ e b, m ≠ { config := b, happening := .begun e }) :
    Remembers ⟨n + 1, roster', due⟩ (ms ++ [m]) where
  time_eq := h.time_snoc _
  roster := hroster
  heard_lt := h.heard_lt_snoc fun name event begin hhappening =>
    absurd hhappening (hheard name event begin)
  due f hf := h.due_snoc hf (hearers_of_ne hheard f.begin)
  distinct := h.distinct
  ended _ _ _ hbegins := h.ended_snoc hbegun hbegins

theorem snoc_begun (h : Remembers ⟨n, c.observers, due⟩ ms) :
    Remembers ⟨n + 1, c.observers, ⟨n, event, c.observers⟩ :: due⟩
      (ms ++ [⟨c, false, .begun event⟩]) where
  time_eq := h.time_snoc _
  roster := h.roster.snoc (by simp) (by simp)
  heard_lt := h.heard_lt_snoc (by simp)
  due f hf := by
    have hnobody : ∀ k, hearers k [(⟨c, false, .begun event⟩ : Moment)] = [] :=
      hearers_of_ne (by simp)
    rcases List.mem_cons.1 hf with rfl | hf
    · obtain rfl : n = ms.length := h.time_eq
      refine ⟨c, beginsAt_snoc_iff.2 (.inr ⟨rfl, rfl⟩), ?_⟩
      rw [hearers_append, h.hearers_eq_nil, hnobody]
      rfl
    · exact h.due_snoc hf (hnobody f.begin)
  distinct := by
    refine List.pairwise_cons.2 ⟨fun f hf => ?_, h.distinct⟩
    obtain ⟨b, hbegins, -⟩ := h.due f hf
    have htime : n = ms.length := h.time_eq
    have hlt := hbegins.lt
    exact Nat.ne_of_gt (htime ▸ hlt)
  ended begin e b hbegins := by
    rcases beginsAt_snoc_iff.1 hbegins with hold | ⟨rfl, -⟩
    · refine (h.ended begin e b hold).imp ?_ ?_
      · rintro ⟨f, hf, hbegin⟩
        exact ⟨f, List.mem_cons_of_mem _ hf, hbegin⟩
      · rintro ⟨d, hd⟩
        exact ⟨d, List.mem_append_left _ hd⟩
    · exact .inl ⟨_, List.mem_cons_self, h.time_eq⟩

theorem snoc_heard (h : Remembers ⟨n, c.observers, ⟨begin, event, name :: names⟩ :: due⟩ ms) :
    Remembers ⟨n + 1, c.observers, ⟨begin, event, names⟩ :: due⟩
      (ms ++ [⟨c, false, .heard name (event.at c) begin⟩]) where
  time_eq := h.time_snoc _
  roster := h.roster.snoc (by simp) (by simp)
  heard_lt := by
    obtain ⟨b, hbegins, -⟩ := h.due _ List.mem_cons_self
    refine h.heard_lt_snoc fun name' event' begin' hhappening => ?_
    cases hhappening
    exact hbegins.lt
  due f hf := by
    rcases List.mem_cons.1 hf with rfl | hf
    · obtain ⟨b, hbegins, hnames⟩ := h.due _ List.mem_cons_self
      refine ⟨b, hbegins.append _, ?_⟩
      rw [hearers_append, hearers_of_heard rfl, if_pos rfl, ← hnames, List.append_assoc]
      rfl
    · have hne : begin ≠ f.begin := (List.pairwise_cons.1 h.distinct).1 f hf
      refine h.due_snoc (List.mem_cons_of_mem _ hf) ?_
      rw [hearers_of_heard rfl, if_neg hne]
  distinct := List.pairwise_cons.2 (List.pairwise_cons.1 h.distinct)
  ended k e b hbegins := by
    rcases h.ended_snoc (by simp) hbegins with ⟨f, hf, hbegin⟩ | hended
    · rcases List.mem_cons.1 hf with rfl | hf
      · exact .inl ⟨_, List.mem_cons_self, hbegin⟩
      · exact .inl ⟨f, List.mem_cons_of_mem _ hf, hbegin⟩
    · exact .inr hended

theorem snoc_ended (h : Remembers ⟨n, c.observers, ⟨begin, event, []⟩ :: due⟩ ms) :
    Remembers ⟨n + 1, c.observers, due⟩ (ms ++ [⟨c, false, .ended begin⟩]) where
  time_eq := h.time_snoc _
  roster := h.roster.snoc (by simp) (by simp)
  heard_lt := h.heard_lt_snoc (by simp)
  due f hf := h.due_snoc (List.mem_cons_of_mem _ hf) (hearers_of_ne (by simp) f.begin)
  distinct := (List.pairwise_cons.1 h.distinct).2
  ended k e b hbegins := by
    rcases h.ended_snoc (by simp) hbegins with ⟨f, hf, hbegin⟩ | hended
    · rcases List.mem_cons.1 hf with rfl | hf
      · obtain rfl : begin = k := hbegin
        exact .inr ⟨c, List.mem_append_right _ (List.mem_singleton.2 rfl)⟩
      · exact .inl ⟨f, hf, hbegin⟩
    · exact .inr hended

theorem of_sees (h : s.Remembers ms) (hsees : s.Sees m s') : s'.Remembers (ms ++ [m]) := by
  cases hsees with
  | query hobs hsilent =>
    refine h.snoc (h.roster.snoc ?_ ?_) ?_ (by simp)
    all_goals
      intros
      rintro rfl
      cases hsilent
  | working => exact h.snoc (h.roster.snoc (by simp) (by simp)) (by simp) (by simp)
  | attached => exact h.snoc (h.roster.attached rfl) (by simp) (by simp)
  | detached => exact h.snoc (h.roster.detached rfl) (by simp) (by simp)
  | begun => exact h.snoc_begun
  | heard => exact h.snoc_heard
  | ended => exact h.snoc_ended

theorem fits (h : s.Remembers ms) (hsees : s.Sees m s') : m.Fits ms where
  query hqueried := by
    cases hsees with
    | query hobs hsilent => exact ⟨hobs, hsilent⟩
    | _ => cases hqueried
  roster hqueried := by
    have horder : InOrder (ms ++ [m]) m.config.observers := by
      rw [← hsees.roster_eq hqueried]
      exact (h.of_sees hsees).roster
    exact ⟨horder.nodup, horder⟩
  heard name event begin hheard := by
    cases hsees with
    | query hobs hsilent =>
      obtain rfl := hheard
      cases hsilent
    | heard =>
      cases hheard
      obtain ⟨b, hbegins, hnames⟩ := h.due _ List.mem_cons_self
      refine ⟨_, b, hbegins, rfl, ?_⟩
      rw [← hnames, List.prefix_append_right_inj]
      exact ⟨_, rfl⟩
    | _ => cases hheard
  ended begin hqueried hended := by
    cases hsees with
    | query => cases hqueried
    | ended =>
      cases hended
      obtain ⟨b, hbegins, hnames⟩ := h.due _ List.mem_cons_self
      exact ⟨_, b, hbegins, (List.append_nil _).symm.trans hnames⟩
    | _ => cases hended

theorem of_follows {ms' : List Moment} (h : s.Remembers ms) (hfollows : s.Follows ms' s') :
    s'.Remembers (ms ++ ms') := by
  induction hfollows generalizing ms with
  | nil => rwa [List.append_nil]
  | cons hfirst _ ih =>
    have hrest := ih (h.of_sees hfirst)
    rwa [List.append_assoc] at hrest

end Remembers

theorem remembers_nil : Remembers ⟨0, [], []⟩ [] where
  time_eq := rfl
  roster := .nil
  heard_lt _ hm := absurd hm List.not_mem_nil
  due _ hf := absurd hf List.not_mem_nil
  distinct := .nil
  ended _ _ _ hbegins := absurd hbegins.lt (Nat.not_lt_zero _)

theorem Follows.split {s s' : Watch} {before after : List Moment} {m : Moment}
    (h : s.Follows (before ++ m :: after) s') :
    ∃ s₁ s₂, s.Follows before s₁ ∧ s₁.Sees m s₂ := by
  induction before generalizing s with
  | nil =>
    cases h with
    | cons hfirst hrest => exact ⟨_, _, .nil s, hfirst⟩
  | cons m' before ih =>
    cases h with
    | cons hfirst hrest =>
      obtain ⟨s₁, s₂, hbefore, hsees⟩ := ih hrest
      exact ⟨s₁, s₂, .cons hfirst hbefore, hsees⟩

/-- A chronicle that the watch lets pass is orderly. -/
theorem Follows.fits {s' : Watch} {before after : List Moment} {m : Moment}
    (h : Follows ⟨0, [], []⟩ (before ++ m :: after) s') : m.Fits before := by
  obtain ⟨s₁, s₂, hbefore, hsees⟩ := h.split
  exact (remembers_nil.of_follows hbefore).fits hsees

/-- Where nothing is due any more, all events that began are over. -/
theorem Follows.all_ended {ms : List Moment} {n : Nat} {roster : List Text}
    (h : Follows ⟨0, [], []⟩ ms ⟨n, roster, []⟩) : InOrder ms roster ∧
      ∀ begin event b, BeginsAt ms begin event b →
        ∃ d, { config := d, happening := .ended begin } ∈ ms := by
  have hend : Remembers ⟨n, roster, []⟩ ms := remembers_nil.of_follows h
  refine ⟨hend.roster, fun begin event b hbegins => ?_⟩
  rcases hend.ended begin event b hbegins with ⟨f, hf, -⟩ | hended
  · exact absurd hf List.not_mem_nil
  · exact hended

end Watch
end SingleTape
