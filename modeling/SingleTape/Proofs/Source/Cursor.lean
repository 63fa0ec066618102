import SingleTape.Proofs.Source.Scanning
import SingleTape.Source.Cursor

/-!
What a cursor does to a line, told by what remains of the line behind it: each operation is
evaluated where the line is cut behind its white space.
-/

namespace SingleTape

namespace Text

/-- A text goes on with `follow`, or it is at its end if `follow` is empty. -/
def Continues (follow t : Text) : Prop := follow <+: t ∧ (follow = [] → t = [])

instance (follow t : Text) : Decidable (Continues follow t) := instDecidableAnd

theorem continues_nil {t : Text} : Continues [] t ↔ t = [] := by simp [Continues]

theorem continues_of_ne_nil {follow t : Text} (hne : follow ≠ []) :
    Continues follow t ↔ follow <+: t := by
  simp [Continues, hne]

/-- White space in front of what has to follow ends there. -/
theorem Continues.endsRun {follow t : Text} (h : Continues follow t)
    (hfollow : follow = [] ∨ Solid follow) : EndsRun isSpace t := by
  obtain ⟨⟨rest, rfl⟩, hend⟩ := h
  rcases hfollow with rfl | hsolid
  · intro b hb
    simp [hend rfl] at hb
  · exact hsolid.endsRun_append rest

end Text

namespace Cursor

open Text

variable {α β : Type} {l follow : Text}

theorem bind_apply {x : Cursor α} {c c' : Nat} {a : α} (h : x c = some (a, c')) (f : α → Cursor β) :
    (x >>= f) c = f a c' := by
  simp only [bind, StateT.bind, h, Option.bind_some]

theorem get_apply (c : Nat) : (get : Cursor Nat) c = some (c, c) := rfl

theorem pure_apply (a : α) (c : Nat) : (pure a : Cursor α) c = some (a, c) := rfl

/-- What remains of a line at a place of it. -/
def Remains (l : Text) (pos : Nat) (r : Text) : Prop :=
  ∃ front, l = front ++ r ∧ front.length = pos

theorem remains_drop {pos : Nat} (h : pos ≤ l.length) : Remains l pos (l.drop pos) :=
  ⟨l.take pos, (List.take_append_drop pos l).symm, List.length_take_of_le h⟩

namespace Remains

variable {pos : Nat} {b : UInt8} {r u s : Text}

theorem drop_eq (h : Remains l pos r) : l.drop pos = r := by
  obtain ⟨front, rfl, rfl⟩ := h
  exact List.drop_left

theorem length_eq (h : Remains l pos r) : pos + r.length = l.length := by
  obtain ⟨front, rfl, rfl⟩ := h
  exact List.length_append.symm

theorem le (h : Remains l pos r) : pos ≤ l.length := by
  have hlen := h.length_eq
  omega

theorem lt (h : Remains l pos (b :: r)) : pos < l.length := by
  have hlen := h.length_eq
  rw [List.length_cons] at hlen
  omega

theorem behind (h : Remains l pos (u ++ s)) : Remains l (pos + u.length) s := by
  obtain ⟨front, rfl, rfl⟩ := h
  exact ⟨front ++ u, (List.append_assoc front u s).symm, List.length_append⟩

theorem tail (h : Remains l pos (b :: r)) : Remains l (pos + 1) r :=
  behind (u := [b]) h

theorem look (h : Remains l pos (b :: r)) (c : Nat) : look l pos c = some (b, c) := by
  obtain ⟨front, rfl, rfl⟩ := h
  simp [Cursor.look]

theorem rest (h : Remains l pos r) : rest l pos = some (r, pos) := by
  rw [Cursor.rest, if_pos h.le, h.drop_eq]

theorem moveTo (h : Remains l pos r) (c : Nat) : moveTo l pos c = some ((), pos) := by
  rw [Cursor.moveTo, if_pos h.le]

end Remains

section Skipping

variable {pos : Nat} {u s : Text}

theorem skipFrom_apply (h : Remains l pos (u ++ s)) (hu : Spaces u) (hs : EndsRun isSpace s) :
    skipFrom l pos pos = some ((), pos + u.length) := by
  induction u generalizing pos with
  | nil =>
    rw [skipFrom]
    cases s with
    | nil =>
      have hlen : pos = l.length := h.length_eq
      rw [if_neg (by omega)]
      rfl
    | cons b s =>
      have hb : isSpace b = false := hs b rfl
      rw [if_pos h.lt, bind_apply (h.look pos), hb]
      rfl
  | cons b u ih =>
    obtain ⟨hb, hu⟩ := spaces_cons.1 hu
    have hmove : moveTo l (pos + 1) pos = some ((), pos + 1) := h.tail.moveTo pos
    rw [skipFrom, if_pos h.lt, bind_apply (h.look pos), if_pos hb, bind_apply hmove, ih h.tail hu,
      List.length_cons, Nat.add_right_comm, Nat.add_assoc]

theorem skipSpace_apply (h : Remains l pos (u ++ s)) (hu : Spaces u) (hs : EndsRun isSpace s) :
    skipSpace l pos = some ((), pos + u.length) := by
  rw [skipSpace, bind_apply (get_apply pos), skipFrom_apply h hu hs]

theorem atEnd_apply (h : Remains l pos (u ++ s)) (hu : Spaces u) (hs : EndsRun isSpace s) :
    atEnd l pos = some (decide (s = []), pos + u.length) := by
  have hlen := h.behind.length_eq
  have hiff : l.length ≤ pos + u.length ↔ s = [] := by
    rw [← List.length_eq_zero_iff]
    omega
  rw [atEnd, bind_apply (skipSpace_apply h hu hs), bind_apply (get_apply _), pure_apply]
  simp only [hiff]

theorem expect_apply (h : Remains l pos (u ++ s)) (hu : Spaces u) (hs : EndsRun isSpace s)
    (t : Text) : expect l t pos =
      if t <+: s then some (true, pos + u.length + t.length)
      else some (false, pos + u.length) := by
  rw [expect, bind_apply (skipSpace_apply h hu hs), bind_apply h.behind.rest]
  by_cases ht : t <+: s
  · obtain ⟨rest, rfl⟩ := ht
    have hmove : moveTo l (pos + u.length + t.length) (pos + u.length) =
        some ((), pos + u.length + t.length) := h.behind.behind.moveTo _
    rw [List.take_left, if_neg (by simp), if_pos (List.prefix_append t rest)]
    rw [bind_apply (get_apply _), bind_apply hmove]
    rfl
  · have htake : s.take t.length ≠ t := fun he => ht (he ▸ List.take_prefix _ _)
    rw [if_pos htake, if_neg ht]
    rfl

theorem followed_apply (follow : Text) (h : Remains l pos (u ++ s)) (hu : Spaces u)
    (hs : EndsRun isSpace s) : followed l follow pos =
      if Continues follow s then some (true, pos + u.length + follow.length)
      else some (false, pos + u.length) := by
  by_cases hnil : follow = []
  · subst hnil
    simp only [followed, if_true, atEnd_apply h hu hs, continues_nil, List.length_nil, Nat.add_zero]
    split
    · next hend => rw [decide_eq_true hend]
    · next hend => rw [decide_eq_false hend]
  · simp only [followed, if_neg hnil, expect_apply h hu hs, continues_of_ne_nil hnil]

end Skipping

section Trying

variable {start k : Nat} {x : UInt8} {u s : Text}

theorem tryBelow_start (start c : Nat) : tryBelow l follow start start c = some (none, c) := by
  cases start with
  | zero => rfl
  | succ p => rw [tryBelow, if_pos (Nat.lt_succ_self p)]; rfl

/-- There is no byte at the end of the line, and the place is passed over. -/
theorem tryBelow_end (h : Remains l (start + k) []) (c : Nat) :
    tryBelow l follow start (start + k + 1) c = tryBelow l follow start (start + k) c := by
  have hlen : start + k = l.length := h.length_eq
  rw [tryBelow, if_neg (by omega), if_pos (Nat.le_of_eq hlen.symm)]

/-- A try puts the cursor behind the place and then behind the white space that follows. -/
theorem tryBelow_succ (follow : Text) (h : Remains l (start + k) (x :: (u ++ s))) (hu : Spaces u)
    (hs : EndsRun isSpace s) (c : Nat) :
    tryBelow l follow start (start + k + 1) c =
      if Continues follow s then some (some ⟨x⟩, start + k + 1 + u.length + follow.length)
      else tryBelow l follow start (start + k) (start + k + 1 + u.length) := by
  have hlt : start + k < l.length := h.lt
  have hfollowed := followed_apply follow h.tail hu hs
  rw [tryBelow, if_neg (by omega), if_neg (by omega), bind_apply (h.tail.moveTo c)]
  by_cases hc : Continues follow s
  · rw [if_pos hc] at hfollowed
    rw [bind_apply hfollowed, if_pos rfl, bind_apply (h.look _), if_pos hc]
    rfl
  · rw [if_neg hc] at hfollowed
    rw [bind_apply hfollowed, if_neg Bool.false_ne_true, if_neg hc]

end Trying

end Cursor
end SingleTape
