/-!
Finite sets as increasing lists. Two sets with the same members are equal (`SortedSet.ext`).
-/

namespace SingleTape

/-- Strictly increasing, hence without repetition. -/
def Increasing {α : Type} [Ord α] (l : List α) : Prop := l.Pairwise fun a b => compare a b = .lt

/-- A list that a strict order arranges is determined by its members. -/
theorem eq_of_mem_iff_of_pairwise {α : Type} {R : α → α → Prop} (irrefl : ∀ a, ¬R a a)
    (trans : ∀ {a b c}, R a b → R b c → R a c) {l m : List α} (hl : l.Pairwise R)
    (hm : m.Pairwise R) (h : ∀ a, a ∈ l ↔ a ∈ m) : l = m := by
  induction l generalizing m with
  | nil =>
    cases m with
    | nil => rfl
    | cons b m => exact absurd ((h b).2 (by simp)) (by simp)
  | cons a l ih =>
    cases m with
    | nil => exact absurd ((h a).1 (by simp)) (by simp)
    | cons b m =>
      have hl' := List.pairwise_cons.1 hl
      have hm' := List.pairwise_cons.1 hm
      have hab : a = b := by
        rcases List.mem_cons.1 ((h a).1 (by simp)) with e | ha
        · exact e
        rcases List.mem_cons.1 ((h b).2 (by simp)) with e | hb
        · exact e.symm
        · exact absurd (trans (hm'.1 a ha) (hl'.1 b hb)) (irrefl b)
      subst hab
      congr 1
      refine ih hl'.2 hm'.2 fun x => ⟨fun hx => ?_, fun hx => ?_⟩
      · rcases List.mem_cons.1 ((h x).1 (List.mem_cons_of_mem _ hx)) with rfl | hx'
        · exact absurd (hl'.1 x hx) (irrefl x)
        · exact hx'
      · rcases List.mem_cons.1 ((h x).2 (List.mem_cons_of_mem _ hx)) with rfl | hx'
        · exact absurd (hm'.1 x hx) (irrefl x)
        · exact hx'

/-- A finite set, kept as the increasing list of its members. -/
structure SortedSet (α : Type) [Ord α] where
  toList : List α
  increasing : Increasing toList
  deriving DecidableEq

namespace SortedSet

variable {α : Type} [Ord α]

instance : EmptyCollection (SortedSet α) := ⟨[], List.Pairwise.nil⟩

instance : Inhabited (SortedSet α) := ⟨∅⟩

instance : Membership α (SortedSet α) := ⟨fun s a => a ∈ s.toList⟩

theorem mem_def {a : α} {s : SortedSet α} : a ∈ s ↔ a ∈ s.toList := Iff.rfl

instance [DecidableEq α] (a : α) (s : SortedSet α) : Decidable (a ∈ s) :=
  inferInstanceAs (Decidable (a ∈ s.toList))

def size (s : SortedSet α) : Nat := s.toList.length

/-- Puts an element in front of the first greater one, unless it is there. -/
def place (a : α) : List α → List α
  | [] => [a]
  | b :: l => match compare a b with
    | .lt => a :: b :: l
    | .eq => b :: l
    | .gt => b :: place a l

theorem mem_place [Std.LawfulEqOrd α] {a x : α} {l : List α} :
    x ∈ place a l ↔ x = a ∨ x ∈ l := by
  induction l with
  | nil => simp [place]
  | cons b l ih =>
    unfold place
    split
    · simp
    · next h => simp [Std.LawfulEqOrd.eq_of_compare h]
    · simp only [List.mem_cons, ih]
      exact or_left_comm

theorem increasing_place [Std.TransOrd α] [Std.LawfulEqOrd α] (a : α) {l : List α}
    (h : Increasing l) : Increasing (place a l) := by
  induction l with
  | nil => simp [place, Increasing]
  | cons b l ih =>
    have hb := List.pairwise_cons.1 h
    unfold place
    split
    · next hab =>
      refine List.pairwise_cons.2 ⟨fun x hx => ?_, h⟩
      rcases List.mem_cons.1 hx with rfl | hx
      · exact hab
      · exact Std.TransCmp.lt_trans hab (hb.1 x hx)
    · exact h
    · next hab =>
      refine List.pairwise_cons.2 ⟨fun x hx => ?_, ih hb.2⟩
      rcases mem_place.1 hx with rfl | hx
      · exact Std.OrientedCmp.lt_of_gt hab
      · exact hb.1 x hx

def insert [Std.TransOrd α] [Std.LawfulEqOrd α] (s : SortedSet α) (a : α) : SortedSet α :=
  ⟨place a s.toList, increasing_place a s.increasing⟩

def erase [DecidableEq α] (s : SortedSet α) (a : α) : SortedSet α :=
  ⟨s.toList.filter (· ≠ a), s.increasing.filter _⟩

def ofList [Std.TransOrd α] [Std.LawfulEqOrd α] (l : List α) : SortedSet α := l.foldl insert ∅

@[simp] theorem notMem_empty (x : α) : x ∉ (∅ : SortedSet α) := List.not_mem_nil

@[simp] theorem mem_erase [DecidableEq α] {a x : α} {s : SortedSet α} :
    x ∈ s.erase a ↔ x ≠ a ∧ x ∈ s := by
  simp [mem_def, erase, and_comm]

section Lawful

variable [Std.TransOrd α] [Std.LawfulEqOrd α]

@[simp] theorem mem_insert {a x : α} {s : SortedSet α} : x ∈ s.insert a ↔ x = a ∨ x ∈ s :=
  mem_place

theorem mem_foldl_insert {l : List α} {s : SortedSet α} {x : α} :
    x ∈ l.foldl insert s ↔ x ∈ l ∨ x ∈ s := by
  induction l generalizing s with
  | nil => simp
  | cons a l ih =>
    simp only [List.foldl_cons, ih, mem_insert, List.mem_cons]
    rw [or_left_comm, or_assoc]

@[simp] theorem mem_ofList {l : List α} {x : α} : x ∈ ofList l ↔ x ∈ l := by
  simp [ofList, mem_foldl_insert]

end Lawful

theorem ext [Std.TransOrd α] {s t : SortedSet α} (h : ∀ a, a ∈ s ↔ a ∈ t) : s = t := by
  have : s.toList = t.toList :=
    eq_of_mem_iff_of_pairwise (by simp [Std.ReflOrd.compare_self]) Std.TransCmp.lt_trans
      s.increasing t.increasing h
  cases s
  cases t
  simp_all

end SortedSet
end SingleTape
