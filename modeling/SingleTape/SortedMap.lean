import SingleTape.SortedSet

/-!
Finite maps as lists of pairs with increasing keys. The entries of a map are the pairs it finds
(`SortedMap.mem_entries`), and they determine it (`SortedMap.ext`).
-/

namespace SingleTape

/-- A finite map, kept as the list of its entries by increasing key. -/
structure SortedMap (α β : Type) [Ord α] where
  entries : List (α × β)
  increasing : entries.Pairwise fun e f => compare e.1 f.1 = .lt
  deriving DecidableEq

namespace SortedMap

variable {α β : Type}

/-- The value of the first entry under a key. -/
def valueAt [DecidableEq α] (a : α) : List (α × β) → Option β
  | [] => none
  | e :: l => if e.1 = a then some e.2 else valueAt a l

theorem mem_of_valueAt_eq_some [DecidableEq α] {a : α} {b : β} {l : List (α × β)}
    (h : valueAt a l = some b) : (a, b) ∈ l := by
  fun_induction valueAt a l with
  | case1 => simp at h
  | case2 e l he =>
    obtain rfl := Option.some.inj h
    simp [← he]
  | case3 e l he ih => exact List.mem_cons_of_mem _ (ih h)

variable [Ord α]

instance : EmptyCollection (SortedMap α β) := ⟨[], List.Pairwise.nil⟩

instance : Inhabited (SortedMap α β) := ⟨∅⟩

/-- Puts an entry in front of the first greater key; an equal key is replaced. -/
def place (a : α) (b : β) : List (α × β) → List (α × β)
  | [] => [(a, b)]
  | e :: l => match compare a e.1 with
    | .lt => (a, b) :: e :: l
    | .eq => (a, b) :: l
    | .gt => e :: place a b l

def find? [DecidableEq α] (m : SortedMap α β) (a : α) : Option β := valueAt a m.entries

theorem eq_or_mem_of_mem_place {a : α} {b : β} {l : List (α × β)} {e : α × β}
    (h : e ∈ place a b l) : e = (a, b) ∨ e ∈ l := by
  induction l with
  | nil => simpa [place] using h
  | cons f l ih =>
    unfold place at h
    split at h
    · simpa using h
    · rcases List.mem_cons.1 h with rfl | h
      · exact .inl rfl
      · exact .inr (List.mem_cons_of_mem _ h)
    · rcases List.mem_cons.1 h with rfl | h
      · exact .inr (by simp)
      · exact (ih h).imp_right (List.mem_cons_of_mem _)

theorem increasing_place [Std.TransOrd α] [Std.LawfulEqOrd α] (a : α) (b : β) {l : List (α × β)}
    (h : l.Pairwise fun e f => compare e.1 f.1 = .lt) :
    (place a b l).Pairwise fun e f => compare e.1 f.1 = .lt := by
  induction l with
  | nil => simp [place]
  | cons e l ih =>
    have he := List.pairwise_cons.1 h
    unfold place
    split
    · next hae =>
      refine List.pairwise_cons.2 ⟨fun x hx => ?_, h⟩
      rcases List.mem_cons.1 hx with rfl | hx
      · exact hae
      · exact Std.TransCmp.lt_trans hae (he.1 x hx)
    · next hae =>
      have hae := Std.LawfulEqOrd.eq_of_compare hae
      subst hae
      exact List.pairwise_cons.2 he
    · next hae =>
      refine List.pairwise_cons.2 ⟨fun x hx => ?_, ih he.2⟩
      rcases eq_or_mem_of_mem_place hx with rfl | hx
      · exact Std.OrientedCmp.lt_of_gt hae
      · exact he.1 x hx

def insert [Std.TransOrd α] [Std.LawfulEqOrd α] (m : SortedMap α β) (a : α) (b : β) :
    SortedMap α β :=
  ⟨place a b m.entries, increasing_place a b m.increasing⟩

theorem valueAt_place [Std.TransOrd α] [Std.LawfulEqOrd α] [DecidableEq α] {a x : α} {b : β}
    {l : List (α × β)} : valueAt x (place a b l) = if a = x then some b else valueAt x l := by
  induction l with
  | nil => rfl
  | cons e l ih =>
    unfold place
    split
    · rfl
    · next h =>
      have h := Std.LawfulEqOrd.eq_of_compare h
      subst h
      by_cases hx : e.1 = x <;> simp [valueAt, hx]
    · next h =>
      by_cases ha : a = x
      · subst ha
        have : e.1 ≠ a := by
          intro he
          simp [he, Std.ReflOrd.compare_self] at h
        simp [valueAt, this, ih]
      · by_cases hx : e.1 = x <;> simp [valueAt, hx, ha, ih]

theorem valueAt_eq_some_of_mem [Std.TransOrd α] [DecidableEq α] {a : α} {b : β}
    {l : List (α × β)} (hl : l.Pairwise fun e f => compare e.1 f.1 = .lt) (h : (a, b) ∈ l) :
    valueAt a l = some b := by
  induction l with
  | nil => simp at h
  | cons e l ih =>
    have he := List.pairwise_cons.1 hl
    rcases List.mem_cons.1 h with rfl | h
    · simp [valueAt]
    · have : e.1 ≠ a := by
        intro hea
        simpa [hea, Std.ReflOrd.compare_self] using he.1 _ h
      simpa [valueAt, this] using ih he.2 h

section Lookup

variable [DecidableEq α]

@[simp] theorem find?_empty (a : α) : (∅ : SortedMap α β).find? a = none := rfl

variable [Std.TransOrd α]

theorem mem_entries {m : SortedMap α β} {a : α} {b : β} :
    (a, b) ∈ m.entries ↔ m.find? a = some b :=
  ⟨valueAt_eq_some_of_mem m.increasing, mem_of_valueAt_eq_some⟩

theorem ext {m n : SortedMap α β} (h : ∀ a, m.find? a = n.find? a) : m = n := by
  have : m.entries = n.entries :=
    eq_of_mem_iff_of_pairwise (by simp [Std.ReflOrd.compare_self]) Std.TransCmp.lt_trans
      m.increasing n.increasing fun ⟨a, b⟩ => by rw [mem_entries, mem_entries, h]
  cases m
  cases n
  simp_all

theorem find?_insert [Std.LawfulEqOrd α] {m : SortedMap α β} {a x : α} {b : β} :
    (m.insert a b).find? x = if a = x then some b else m.find? x :=
  valueAt_place

end Lookup

end SortedMap
end SingleTape
