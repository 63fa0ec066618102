import SingleTape.Proofs.Execution.Lockstep

/-!
Left and right. The mirror of a machine moves to the left where the machine moves to the right, and
the other way round. On the reverse of a tape, with the head on the same cell of it, it does what
the machine does, and its tape stays the reverse of the other. The tape grows in different ways on
its two sides, but nothing of that is left in the end.
-/

namespace SingleTape

open Engine

/-- The move to the other side. -/
def Move.mirror : Move → Move
  | left => right
  | right => left
  | m => m

@[simp] theorem Move.isValid_mirror (m : Move) : m.mirror.isValid = m.isValid := by
  cases m <;> rfl

def Transition.mirror (t : Transition) : Transition := { t with move := t.move.mirror }

def Entry.mirror (e : Entry) : Entry := { e with transition := e.transition.mirror }

namespace SortedMap

variable {α β γ : Type} [Ord α]

/-- The same keys with other values. -/
def map (f : β → γ) (m : SortedMap α β) : SortedMap α γ :=
  ⟨m.entries.map (Prod.map id f), List.pairwise_map.2 m.increasing⟩

theorem find?_map [DecidableEq α] (f : β → γ) (m : SortedMap α β) (a : α) :
    (m.map f).find? a = (m.find? a).map f := by
  have hvalue : ∀ l : List (α × β),
      valueAt a (l.map (Prod.map id f)) = (valueAt a l).map f := by
    intro l
    induction l with
    | nil => rfl
    | cons e l ih => by_cases h : e.1 = a <;> simp [valueAt, h, ih]
  exact hvalue m.entries

end SortedMap

namespace Table

def mirror (δ : Table) : Table := ⟨δ.rows.map (SortedMap.map Transition.mirror)⟩

theorem find?_mirror (δ : Table) (q : State) (a : Symbol) :
    δ.mirror.find? q a = (δ.find? q a).map Transition.mirror := by
  simp only [find?, row, mirror, SortedMap.find?_map]
  cases δ.rows.find? q with
  | none => rfl
  | some r => exact SortedMap.find?_map Transition.mirror r a

theorem entries_mirror (δ : Table) : δ.mirror.entries = δ.entries.map Entry.mirror := by
  simp [entries, mirror, SortedMap.map, List.flatMap_map, List.map_flatMap, Entry.mirror,
    Function.comp_def]

end Table

namespace Machine

/-- The machine with left and right exchanged in all of its transitions. -/
def mirror (M : Machine) : Machine := { M with table := M.table.mirror }

theorem fits_mirror_iff {M : Machine} {e : Entry} : M.mirror.Fits e.mirror ↔ M.Fits e := by
  constructor
  · rintro ⟨hsource, hnext, hsymbol, hwrite, hmove⟩
    exact ⟨hsource, hnext, hsymbol, hwrite, (Move.isValid_mirror _).symm.trans hmove⟩
  · rintro ⟨hsource, hnext, hsymbol, hwrite, hmove⟩
    exact ⟨hsource, hnext, hsymbol, hwrite, (Move.isValid_mirror _).trans hmove⟩

theorem valid_mirror_iff {M : Machine} : M.mirror.Valid ↔ M.Valid := by
  have hentries : (∀ e ∈ M.mirror.table.entries, M.mirror.Fits e) ↔
      ∀ e ∈ M.table.entries, M.Fits e := by
    simp only [mirror, Table.entries_mirror, List.forall_mem_map]
    exact forall₂_congr fun e _ => fits_mirror_iff
  constructor
  · rintro ⟨hinput, hblank, hinitial, hfinals, hhalt, hfits⟩
    exact ⟨hinput, hblank, hinitial, hfinals, hhalt, hentries.1 hfits⟩
  · rintro ⟨hinput, hblank, hinitial, hfinals, hhalt, hfits⟩
    exact ⟨hinput, hblank, hinitial, hfinals, hhalt, hentries.2 hfits⟩

end Machine

theorem reverse_set_of_add {α : Type} {l : List α} {i j : Nat} (h : i + j + 1 = l.length) (a : α) :
    (l.set i a).reverse = l.reverse.set j a := by
  apply List.ext_getElem?
  intro k
  by_cases hk : k < l.length
  · have hi : i = l.length - 1 - k ↔ j = k := by omega
    have hj : j < l.length := by omega
    rw [List.getElem?_reverse (by simpa using hk), List.length_set, List.getElem?_set,
      List.getElem?_set, List.length_reverse, List.getElem?_reverse hk]
    simp only [hi, hj, if_true, show i < l.length by omega]
  · simp [Nat.le_of_not_lt hk]

namespace Config

/-- The same cells in the opposite order, seen from the same place. -/
structure Mirrored (c d : Config) : Prop where
  tape_eq : d.tape = c.tape.reverse
  head_add : c.head + d.head + 1 = c.tape.length
  state_eq : d.state = c.state
  tapeSet_eq : d.tapeSet = c.tapeSet

namespace Mirrored

variable {M N : Machine} {c d : Config}

theorem length_eq (h : c.Mirrored d) : d.tape.length = c.tape.length := by
  rw [h.tape_eq, List.length_reverse]

theorem symm (h : c.Mirrored d) : d.Mirrored c where
  tape_eq := by rw [h.tape_eq, List.reverse_reverse]
  head_add := by
    have hadd := h.head_add
    rw [h.length_eq]
    omega
  state_eq := h.state_eq.symm
  tapeSet_eq := h.tapeSet_eq.symm

theorem scanned_eq (h : c.Mirrored d) (hblank : N.blank = M.blank) :
    d.scanned N = c.scanned M := by
  have hadd := h.head_add
  have hhead : c.tape.length - 1 - d.head = c.head := by omega
  have hcell : d.tape[d.head]? = c.tape[c.head]? := by
    rw [h.tape_eq, List.getElem?_reverse (by omega), hhead]
  simp only [scanned, List.getD_eq_getElem?_getD, hcell, hblank]

theorem write (h : c.Mirrored d) (a : Symbol) (q : State) :
    ({ c with tape := c.tape.set c.head a, state := q } : Config).Mirrored
      { d with tape := d.tape.set d.head a, state := q } where
  tape_eq := by
    simp only [h.tape_eq]
    exact (reverse_set_of_add h.head_add a).symm
  head_add := by
    simp only [List.length_set]
    exact h.head_add
  state_eq := rfl
  tapeSet_eq := h.tapeSet_eq

/-- To the left the one tape grows in front, where the other grows behind. -/
theorem moveHead_left (h : c.Mirrored d) (hblank : N.blank = M.blank) :
    (c.moveHead M .left).Mirrored (d.moveHead N .right) := by
  have hadd := h.head_add
  have hlen := h.length_eq
  by_cases hfront : c.head = 0
  · have hend : d.head + 1 = d.tape.length := by omega
    simp only [moveHead, if_pos hfront, if_pos hend]
    refine ⟨?_, ?_, h.state_eq, h.tapeSet_eq⟩
    · simp only [h.tape_eq, List.reverse_cons, hblank]
    · simp only [List.length_cons]
      omega
  · have hend : ¬d.head + 1 = d.tape.length := by omega
    simp only [moveHead, if_neg hfront, if_neg hend]
    refine ⟨h.tape_eq, ?_, h.state_eq, h.tapeSet_eq⟩
    simp only
    omega

theorem moveHead (h : c.Mirrored d) (hblank : N.blank = M.blank) (m : Move) :
    (c.moveHead M m).Mirrored (d.moveHead N m.mirror) := by
  cases m with
  | left => exact h.moveHead_left hblank
  | right => exact (h.symm.moveHead_left hblank.symm).symm
  | stay => exact h
  | invalid code hcode => exact h

theorem apply (h : c.Mirrored d) (t : Transition) :
    (c.apply M t).countStep.Mirrored (d.apply M.mirror t.mirror).countStep := by
  obtain ⟨htape, hhead, hstate, hset⟩ := (h.write t.write t.next).moveHead (M := M)
    (N := M.mirror) rfl t.move
  exact ⟨htape, hhead, hstate, hset⟩

theorem next_eq (h : c.Mirrored d) : d.next M.mirror = (c.next M).map Transition.mirror := by
  have hscanned : d.scanned M.mirror = c.scanned M := h.scanned_eq rfl
  have hhalted : d.isHalted M.mirror ↔ c.isHalted M := by
    rw [isHalted, isHalted, h.state_eq]
    rfl
  have hfind : M.mirror.table.find? c.state (c.scanned M) =
      (M.table.find? c.state (c.scanned M)).map Transition.mirror :=
    M.table.find?_mirror c.state (c.scanned M)
  by_cases hhalt : c.isHalted M
  · simp only [next, if_pos hhalt, if_pos (hhalted.2 hhalt), h.state_eq, Except.map]
  · simp only [next, if_neg hhalt, if_neg (mt hhalted.1 hhalt), h.state_eq, h.tapeSet_eq, hscanned,
      hfind]
    split
    · rfl
    · cases M.table.find? c.state (c.scanned M) <;> rfl

end Mirrored

variable {M N : Machine} {c c' d d' : Config} {tape : List Symbol} {head : Int}

/-- In front of the tape the one is filled up on the left, and the other on the right. -/
theorem mirrored_of_load_front (hblank : N.blank = M.blank) (hstate : d.state = c.state)
    (hneg : head < 0) (hload : c.load M tape head = (c', none))
    (hload' : d.load N tape.reverse (tape.length - 1 - head) = (d', none)) : c'.Mirrored d' := by
  obtain ⟨-, -, rfl⟩ := (load_eq_none_iff.1 hload).resolve_right fun h => by omega
  obtain ⟨-, -, rfl⟩ := (load_eq_none_iff.1 hload').resolve_left fun h => by omega
  have hpad : (tape.length - 1 - head : Int).toNat + 1 - tape.length = head.natAbs := by omega
  refine ⟨?_, ?_, hstate, rfl⟩
  · simp only [List.length_reverse, hpad, hblank, List.reverse_append, List.reverse_replicate]
  · simp only [List.length_append, List.length_replicate]
    omega

theorem mirrored_of_load_within (hstate : d.state = c.state) (hnonneg : 0 ≤ head)
    (hlt : head < tape.length) (hload : c.load M tape head = (c', none))
    (hload' : d.load N tape.reverse (tape.length - 1 - head) = (d', none)) : c'.Mirrored d' := by
  obtain ⟨-, -, rfl⟩ := (load_eq_none_iff.1 hload).resolve_left fun h => by omega
  obtain ⟨-, -, rfl⟩ := (load_eq_none_iff.1 hload').resolve_left fun h => by omega
  have hpad : head.toNat + 1 - tape.length = 0 := by omega
  have hpad' : (tape.length - 1 - head : Int).toNat + 1 - tape.length = 0 := by omega
  refine ⟨?_, ?_, hstate, rfl⟩
  · simp only [List.length_reverse, hpad, hpad', List.replicate_zero, List.append_nil]
  · simp only [hpad, List.replicate_zero, List.append_nil]
    omega

theorem mirrored_of_load (hblank : N.blank = M.blank) (hstate : d.state = c.state)
    (hload : c.load M tape head = (c', none))
    (hload' : d.load N tape.reverse (tape.length - 1 - head) = (d', none)) : c'.Mirrored d' := by
  by_cases hneg : head < 0
  · exact mirrored_of_load_front hblank hstate hneg hload hload'
  by_cases hlt : head < tape.length
  · exact mirrored_of_load_within hstate (Int.not_lt.1 hneg) hlt hload hload'
  · -- The head is in front of the reverse.
    have hfront : (tape.length - 1 - head : Int) < 0 := by omega
    have hback : ((tape.reverse.length : Int) - 1 - (tape.length - 1 - head)) = head := by
      rw [List.length_reverse]
      omega
    have hload₂ : c.load M tape.reverse.reverse
        (tape.reverse.length - 1 - (tape.length - 1 - head)) = (c', none) := by
      rw [List.reverse_reverse, hback, hload]
    exact (mirrored_of_load_front hblank.symm hstate.symm hfront hload' hload₂).symm

end Config

namespace Execution

theorem lockstep_mirror (M : Machine) :
    Lockstep M M.mirror Transition.mirror Config.Mirrored where
  next_eq h := h.next_eq
  apply h _ := h.apply _

/-- A machine is valid just if its mirror is. From the same state, and from a tape for the one and
its reverse for the other with the head on the same place of it, unobserved they make the same
number of steps and end in the same state and with the same outcome, or else both go on for as long
as they may. In the end the one tape is the reverse of the other, and the heads are on the same
place. -/
theorem run_mirror (M : Machine) : (M.mirror.Valid ↔ M.Valid) ∧
    ∀ {ω ω' : Type} (deliver : Text → Event → Execution ω Unit)
      (deliver' : Text → Event → Execution ω' Unit) (tape : List Symbol) (head : Int)
      {c c₁ d d₁ : Config} {w w₁ : ω} {v v₁ : ω'},
      c.observers = [] → d.observers = [] → d.state = c.state →
      setTape M deliver tape head c w = .ok () c₁ w₁ →
      setTape M.mirror deliver' tape.reverse (tape.length - 1 - head) d v = .ok () d₁ v₁ →
      ∀ (fuel : Nat) (maxSteps : Option Int),
        (∃ n outcome c₂ d₂, Executes M fuel maxSteps c₁ n outcome c₂ ∧
          Executes M.mirror fuel maxSteps d₁ n outcome d₂ ∧ d₂.state = c₂.state ∧
          d₂.tape = c₂.tape.reverse ∧ (c₂.head + d₂.head : Int) = c₂.tape.length - 1) ∨
        run M deliver fuel maxSteps c₁ w₁ = .exhausted ∧
          run M.mirror deliver' fuel maxSteps d₁ v₁ = .exhausted := by
  refine ⟨Machine.valid_mirror_iff, ?_⟩
  intro ω ω' deliver deliver' tape head c c₁ d d₁ w w₁ v v₁ hobs hobs' hstate hset hset' fuel
    maxSteps
  obtain ⟨-, hload, rfl⟩ := (setTape_eq_ok_iff hobs).1 hset
  obtain ⟨-, hload', rfl⟩ := (setTape_eq_ok_iff hobs').1 hset'
  have hmirrored : c₁.Mirrored d₁ := Config.mirrored_of_load rfl hstate hload hload'
  have hobs₁ : c₁.observers = [] := by rw [← hobs, ← c.load_observers tape head, hload]
  have hobs₁' : d₁.observers = [] := by
    rw [← hobs', ← d.load_observers tape.reverse (tape.length - 1 - head), hload']
  obtain ⟨htapeSet, -⟩ := Config.shows_of_load hload
  have htapeSet' : d₁.tapeSet = true := hmirrored.tapeSet_eq.trans htapeSet
  rcases (lockstep_mirror M).run hmirrored htapeSet htapeSet' hobs₁ hobs₁' fuel maxSteps with
    ⟨n, outcome, c₂, d₂, hrun, hrun', hend⟩ | hcut
  · have hadd := hend.head_add
    exact .inl ⟨n, outcome, c₂, d₂, hrun, hrun', hend.state_eq, hend.tape_eq, by omega⟩
  · exact .inr (hcut ω ω' deliver deliver' w₁ v₁)

/-- Where the one numeral grows to the left, the other grows to the right. -/
theorem increment_run_mirror :
    let c := { Machine.increment.start with
      tape := Text.symbols "11", tapeSet := true, head := 1 }
    let d := { Machine.increment.start with
      tape := Text.symbols "11", tapeSet := true, head := 0 }
    ∃ n outcome c₂ d₂, Executes Machine.increment 4 none c n outcome c₂ ∧
      Executes Machine.increment.mirror 4 none d n outcome d₂ ∧
      c₂.tape = Text.symbols "100" ∧ d₂.tape = Text.symbols "001" ∧ c₂.head = 0 ∧ d₂.head = 2 := by
  intro c d
  have hset : setTape Machine.increment nobody (Text.symbols "11") 1 Machine.increment.start () =
      .ok () c () := rfl
  have hset' : setTape Machine.increment.mirror nobody (Text.symbols "11").reverse
      ((Text.symbols "11").length - 1 - 1) Machine.increment.start () = .ok () d () := rfl
  obtain ⟨-, hmirror⟩ := run_mirror Machine.increment
  rcases hmirror nobody nobody _ 1 rfl rfl rfl hset hset' 4 none with
    ⟨n, outcome, c₂, d₂, hrun, hrun', -, htape, hhead⟩ | ⟨hcut, -⟩
  · have hend := hrun.run_eq Unit nobody ()
    cases hend
    have hd : ((0 : Nat) + d₂.head : Int) = (3 : Nat) - 1 := hhead
    exact ⟨n, _, _, d₂, hrun, hrun', rfl, htape, rfl, by omega⟩
  · cases hcut

end Execution
end SingleTape
