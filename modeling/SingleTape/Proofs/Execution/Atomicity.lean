import SingleTape.Proofs.Execution.Soundness
import SingleTape.Proofs.Execution.Unobserved

/-!
Setting a tape fails before anybody hears of it when a symbol is foreign or when the tape is too
large. Then nothing has changed, unless the tape and its blanks are too large only together: there
the one that comes first is in place already while head and mark are still the old ones.
-/

namespace SingleTape

open Engine

namespace Config

variable {M : Machine}

theorem symbolAt_eq_blank_iff {c : Config} :
    (∀ i, c.symbolAt M i = M.blank) ↔ ∀ a ∈ c.tape, a = M.blank := by
  constructor
  · intro h a ha
    obtain ⟨n, hn, rfl⟩ := List.mem_iff_getElem.1 ha
    have hcell := h n
    rwa [symbolAt, if_neg (by omega), Int.toNat_natCast, List.getD_eq_getElem?_getD,
      List.getElem?_eq_getElem hn, Option.getD_some] at hcell
  · intro h i
    unfold symbolAt
    split
    · rfl
    · rw [List.getD_eq_getElem?_getD]
      cases hcell : c.tape[i.toNat]? with
      | none => rfl
      | some a => exact h a (List.mem_of_getElem? hcell)

theorem with_tape_eq_iff {c : Config} {tape : List Symbol} :
    ({ c with tape } : Config) = c ↔ tape = c.tape := by
  constructor
  · intro h
    exact congrArg Config.tape h
  · rintro rfl
    rfl

/-- The foreign symbol that is found is the first one. -/
theorem find?_foreign_iff {tape : List Symbol} {a : Symbol} :
    tape.find? (· ∉ M.alphabet) = some a ↔
      ∃ front back, tape = front ++ a :: back ∧ (∀ b ∈ front, b ∈ M.alphabet) ∧ a ∉ M.alphabet := by
  rw [List.find?_eq_some_iff_append]
  constructor
  · rintro ⟨ha, front, back, rfl, hfront⟩
    exact ⟨front, back, rfl, by simpa using hfront, by simpa using ha⟩
  · rintro ⟨front, back, rfl, hfront, ha⟩
    exact ⟨by simpa using ha, front, back, rfl, by simpa using hfront⟩

/-- What takes the place of the cells first: the blanks in front of the tape if there are any, and
otherwise the tape. -/
def firstCells (M : Machine) (tape : List Symbol) (head : Int) : List Symbol :=
  if head < 0 then List.replicate head.natAbs M.blank else tape

/-- How a tape is rejected before anybody hears of it, and what is then left of a configuration. -/
inductive Rejects (M : Machine) (tape : List Symbol) (head : Int) (c : Config) :
    Failure → Config → Prop where
  /-- The first foreign symbol is found before anything is done. -/
  | foreign {a : Symbol} (hfind : tape.find? (· ∉ M.alphabet) = some a) :
    Rejects M tape head c (.error (.invalidSymbol a)) c
  /-- The blanks in front of the tape do not fit. -/
  | blanks (hknown : ∀ a ∈ tape, a ∈ M.alphabet) (hneg : head < 0)
    (hlarge : maxCells < head.natAbs) : Rejects M tape head c .tapeTooLarge c
  /-- The tape does not fit behind the blanks, and the blanks are in place without it. -/
  | front (hknown : ∀ a ∈ tape, a ∈ M.alphabet) (hneg : head < 0) (hfit : head.natAbs ≤ maxCells)
    (hlarge : maxCells < head.natAbs + tape.length) :
    Rejects M tape head c .tapeTooLarge { c with tape := List.replicate head.natAbs M.blank }
  /-- The blanks do not fit behind the tape, and the tape is in place without them. -/
  | behind (hknown : ∀ a ∈ tape, a ∈ M.alphabet) (hlarge : maxCells ≤ head) :
    Rejects M tape head c .tapeTooLarge { c with tape }

namespace Rejects

variable {tape : List Symbol} {head : Int} {c c' : Config} {e : Failure}

/-- Whatever is changed, it is the cells. -/
theorem eq_with_tape (h : c.Rejects M tape head e c') : c' = { c with tape := c'.tape } := by
  cases h <;> rfl

theorem eq_or_firstCells (h : c.Rejects M tape head e c') :
    (¬(e = .tapeTooLarge ∧ -maxCells ≤ head) ∧ c' = c) ∨
      ((e = .tapeTooLarge ∧ -maxCells ≤ head) ∧
        c' = { c with tape := firstCells M tape head }) := by
  cases h with
  | foreign hfind => exact .inl ⟨nofun, rfl⟩
  | blanks hknown hneg hlarge => exact .inl ⟨fun h => absurd h.2 (by omega), rfl⟩
  | front hknown hneg hfit hlarge =>
    rw [firstCells, if_pos hneg]
    exact .inr ⟨⟨rfl, by omega⟩, rfl⟩
  | behind hknown hlarge =>
    rw [firstCells, if_neg (by omega)]
    exact .inr ⟨⟨rfl, by omega⟩, rfl⟩

/-- Other cells are in place just when the blanks in front of the tape did fit, if there were
any. -/
theorem eq_iff (h : c.Rejects M tape head e c') :
    c' = c ↔ ¬(e = .tapeTooLarge ∧ -maxCells ≤ head ∧ firstCells M tape head ≠ c.tape) := by
  rcases h.eq_or_firstCells with ⟨hkept, rfl⟩ | ⟨⟨he, hhead⟩, rfl⟩
  · exact iff_of_true rfl fun hlost => hkept ⟨hlost.1, hlost.2.1⟩
  · rw [with_tape_eq_iff]
    constructor
    · intro heq hlost
      exact hlost.2.2 heq
    · intro hkept
      exact Decidable.byContradiction fun hne => hkept ⟨he, hhead, hne⟩

theorem head_lt_iff (h : c.Rejects M tape head e c') (hlive : c.head < c.tape.length) :
    c'.head < c'.tape.length ↔ c' = c ∨ c.head < (firstCells M tape head).length := by
  rcases h.eq_or_firstCells with ⟨-, rfl⟩ | ⟨-, rfl⟩
  · exact iff_of_true hlive (.inl rfl)
  · rw [with_tape_eq_iff]
    constructor
    · exact .inr
    · rintro (hsame | hlt)
      · rw [hsame]
        exact hlive
      · exact hlt

theorem blank_iff (h : c.Rejects M tape head e c') (hblank : ∀ i, c.symbolAt M i = M.blank) :
    (∀ i, c'.symbolAt M i = M.blank) ↔ c' = c ∨ ∀ a ∈ firstCells M tape head, a = M.blank := by
  rcases h.eq_or_firstCells with ⟨-, rfl⟩ | ⟨-, rfl⟩
  · exact iff_of_true hblank (.inl rfl)
  · rw [symbolAt_eq_blank_iff] at hblank ⊢
    rw [with_tape_eq_iff]
    constructor
    · exact .inr
    · rintro (hsame | hall)
      · rw [hsame]
        exact hblank
      · exact hall

end Rejects
end Config

namespace Traced

variable {ω : Type} {M : Machine}

/-- Nobody hears of an event. -/
def Silent (ps : List Point) : Prop := ∀ p ∈ ps, p.isEntry = false

theorem silent_ended (call : Call) (e : Option Failure) (c : Config) :
    Silent [.ended call e c] := by
  intro p hp
  rw [List.mem_singleton.1 hp]
  rfl

theorem mem_bind_of_mem {α β : Type} {x : Traced ω α} {f : α → Traced ω β} {c : Config} {w : ω}
    {p : Point} (h : p ∈ (x c w).2) : p ∈ ((x >>= f) c w).2 := by
  rw [bind_apply]
  rcases hx : x c w with ⟨⟨a, c', w'⟩ | ⟨e, c', w'⟩ | _, ps⟩
  · rw [hx] at h
    exact List.mem_append_left _ h
  · rwa [hx] at h
  · rwa [hx] at h

theorem mem_ending_of_mem {α : Type} (call : Call) {x : Traced ω α} {c : Config} {w : ω}
    {p : Point} (h : p ∈ (x c w).2) : p ∈ (ending call x c w).2 := by
  simp only [ending]
  rcases hx : x c w with ⟨⟨a, c', w'⟩ | ⟨e, c', w'⟩ | _, ps⟩
  · rw [hx] at h
    exact List.mem_append_left _ h
  · rw [hx] at h
    exact List.mem_append_left _ h
  · rwa [hx] at h

section Rejection

variable {deliver : Text → Event → Traced ω Unit} {tape : List Symbol} {head : Int} {c : Config}

/-- An event of which nobody hears has no effect. -/
theorem announce_of_silent (event : Config → Event) (w : ω)
    (h : Silent (announce deliver event c w).2) :
    announce deliver event c w = (.ok () c w, []) := by
  rw [announce_apply] at h ⊢
  cases hobs : c.observers with
  | nil => rfl
  | cons name names =>
    have hentry : .entered name (event c) c ∈
        (announceTo deliver event 0 (name :: names) c w).2 := by
      have hfirst : announceTo deliver event 0 (name :: names) c w =
          (marking (.entered name (event c)) (deliver name (event c)) >>= fun _ =>
            announceTo deliver event 0 names) c w := rfl
      rw [hfirst]
      exact mem_bind_of_mem List.mem_cons_self
    rw [hobs] at h
    cases h _ hentry

theorem rejects_of_silent {w w' : ω} {e : Failure} {c' : Config} {ps : List Point}
    (h : setTape M deliver tape head c w = (.error e c' w', ps))
    (hsilent : Silent ps) : c.Rejects M tape head e c' ∧ w' = w := by
  rw [setTape_apply] at h
  cases hfind : tape.find? (· ∉ M.alphabet) with
  | some a =>
    rw [hfind] at h
    cases h
    exact ⟨.foreign hfind, rfl⟩
  | none =>
    have hknown : ∀ a ∈ tape, a ∈ M.alphabet := by simpa using hfind
    rw [hfind] at h
    rcases hload : c.load M tape head with ⟨d, _ | e'⟩
    · -- The tape is in place, so that only those who hear of it could still fail.
      rw [hload] at h
      have hquiet : Silent (announce deliver (fun _ => .tapeChanged head) d w).2 := by
        intro p hp
        have hmem := mem_ending_of_mem (.ask (.setTape tape head)) hp
        rw [show ending _ _ d w = _ from h] at hmem
        exact hsilent p hmem
      simp only [ending, announce_of_silent _ w hquiet] at h
      cases h
    · rw [hload] at h
      cases h
      refine ⟨?_, rfl⟩
      obtain ⟨rfl, ⟨hneg, hlarge, rfl⟩ | ⟨hneg, hfit, hlarge, rfl⟩ | ⟨hlarge, rfl⟩⟩ :=
        Config.load_eq_some_iff.1 hload
      · exact .blanks hknown hneg hlarge
      · exact .front hknown hneg hfit hlarge
      · exact .behind hknown hlarge

end Rejection

/-- When setting a tape fails before anybody hears of it, the call does what its points say, and of
the machine nothing but the cells has changed. They too are as they were, except where the tape and
its blanks do not fit together: then they are those of the part that comes first. So the head is
still on a live cell unless this part ends in front of it, and where all cells were blank they still
are unless this part has another symbol. -/
theorem setTape_failure_atomic_iff (react : Observers ω) (fuel : Nat) {tape : List Symbol}
    {head : Int} {c c' : Config} {w w' : ω} {e : Failure} {ps : List Point}
    (h : setTape M (deliver M react fuel) tape head c w = (.error e c' w', ps))
    (hsilent : Silent ps) :
    setTape M (Execution.deliver M react fuel) tape head c w = .error e c' w ∧
      w' = w ∧
      c.Rejects M tape head e c' ∧
      c' = { c with tape := c'.tape } ∧
      (c' = c ↔ ¬(e = .tapeTooLarge ∧ -Config.maxCells ≤ head ∧
        Config.firstCells M tape head ≠ c.tape)) ∧
      (c.head < c.tape.length → (c'.head < c'.tape.length ↔
        c' = c ∨ c.head < (Config.firstCells M tape head).length)) ∧
      ((∀ i, c.symbolAt M i = M.blank) → ((∀ i, c'.symbolAt M i = M.blank) ↔
        c' = c ∨ ∀ a ∈ Config.firstCells M tape head, a = M.blank)) := by
  obtain ⟨hrejects, rfl⟩ := rejects_of_silent h hsilent
  have hplain : erase (setTape M (deliver M react fuel) tape head) =
      setTape M (Execution.deliver M react fuel) tape head := by
    rw [← erase_deliver]
    exact erase_eq ((erasing M _).rel_setTape tape head)
  have hrun : setTape M (Execution.deliver M react fuel) tape head c w' =
      .error e c' w' := by
    rw [← hplain, erase, h]
  exact ⟨hrun, rfl, hrejects, hrejects.eq_with_tape, hrejects.eq_iff, hrejects.head_lt_iff,
    hrejects.blank_iff⟩

/-- A busy machine under observation keeps its tape when the blanks in front of another do not
fit. -/
theorem wiper_setTape_failure_atomic :
    let c := { wiper.start with
      tape := Text.symbols "x##", tapeSet := true, head := 1, steps := 7, observers := ["a"] }
    ∃ ps, setTape wiper (deliver wiper meddle 1) (Text.symbols "x") (-0x8000000000000000) c 0 =
        (.error .tapeTooLarge c 0, ps) ∧ Silent ps ∧
      setTape wiper (Execution.deliver wiper meddle 1) (Text.symbols "x")
        (-0x8000000000000000) c 0 = .error .tapeTooLarge c 0 ∧
      c.Rejects wiper (Text.symbols "x") (-0x8000000000000000) .tapeTooLarge c := by
  intro c
  have hfails :
      setTape wiper (deliver wiper meddle 1) (Text.symbols "x") (-0x8000000000000000) c 0 =
        (.error .tapeTooLarge c 0,
          [.ended (.ask (.setTape (Text.symbols "x") (-0x8000000000000000)))
            (some .tapeTooLarge) c]) := rfl
  obtain ⟨hrun, -, hrejects, -⟩ := setTape_failure_atomic_iff meddle 1 hfails (silent_ended _ _ _)
  exact ⟨_, hfails, silent_ended _ _ _, hrun, hrejects⟩

/-- A tape that the machine would need too many blanks for takes the place of the old one: the head
may then be on no cell at all, and a machine whose tape was never set may show a symbol. -/
theorem setTape_tooLarge_not_atomic :
    ∃ c c' d : Config,
      session wiper Execution.nobody 0 [.ask (.setTape (Text.symbols "xx") 1)]
        wiper.start () = .ok () c () ∧
      setTape wiper Execution.nobody [] 0x7fffffffffffffff c () =
        .error .tapeTooLarge c' () ∧
      c' ≠ c ∧ c.head < c.tape.length ∧ ¬c'.head < c'.tape.length ∧
      setTape wiper Execution.nobody (Text.symbols "x") 0x7fffffffffffffff
        wiper.start () = .error .tapeTooLarge d () ∧
      d.tapeSet = false ∧ (∀ i, wiper.start.symbolAt wiper i = wiper.blank) ∧
      d.symbolAt wiper 0 ≠ wiper.blank := by
  have hfresh : ∀ i, wiper.start.symbolAt wiper i = wiper.blank := by
    simp [Config.symbolAt_eq_blank_iff, Machine.start]
  refine ⟨_, _, _, rfl, rfl, ?_, ?_, ?_, rfl, rfl, hfresh, ?_⟩
  all_goals decide +kernel

end Traced
end SingleTape
