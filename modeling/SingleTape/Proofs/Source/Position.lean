import Mathlib.Data.List.Induction
import SingleTape.Proofs.Source.Cursor

/-!
What a symbol position means, whatever has to follow it: the byte behind the white space if that is
followed as it has to be, else the last byte of the white space, else nothing. The scan of what is
left of a line and the cursor that tries places from right to left both find just that.
-/

namespace SingleTape
namespace Text

/-- A text begins with the byte, and behind the white space `v` it goes on with `follow`. -/
inductive Leads (follow : Text) : Text → UInt8 → Text → Prop
  | mk {x : UInt8} {v s : Text} (hv : Spaces v) (hs : Continues follow s) :
      Leads follow (x :: (v ++ s)) x v

/-- A text with white space in front, cut behind all of it. -/
theorem exists_cut (r : Text) : ∃ v s, Spaces v ∧ EndsRun isSpace s ∧ r = v ++ s := by
  obtain ⟨hs, v, hv, hr⟩ := dropWhile_isSpace_eq_iff.1 (rfl : r.dropWhile isSpace = _)
  exact ⟨v, _, hv, hs, hr⟩

theorem leads_cons_iff {follow : Text} (hfollow : follow = [] ∨ Solid follow) {b x : UInt8}
    {r v : Text} : Leads follow (b :: r) x v ↔
      x = b ∧ v = r.takeWhile isSpace ∧ Continues follow (r.dropWhile isSpace) := by
  constructor
  · intro h
    obtain ⟨hv, hs⟩ := h
    rename_i s
    have hstop : EndsRun isSpace s := hs.endsRun hfollow
    have htake : (v ++ s).takeWhile isSpace = v := by
      rw [List.takeWhile_append_of_pos hv, takeWhile_of_endsRun hstop, List.append_nil]
    have hdrop : (v ++ s).dropWhile isSpace = s := by
      rw [List.dropWhile_append_of_pos hv, dropWhile_of_endsRun hstop]
    exact ⟨rfl, htake.symm, hdrop.symm ▸ hs⟩
  · intro h
    obtain ⟨rfl, rfl, hs⟩ := h
    have hv : Spaces (r.takeWhile isSpace) := List.all_eq_true.1 List.all_takeWhile
    have hlead := Leads.mk (x := x) hv hs
    rwa [List.takeWhile_append_dropWhile] at hlead

/-- What is found in a symbol position in front of `follow`, and how many bytes it takes up together
with `follow`. The white space at the position is `w`, and `back` stands behind it. -/
inductive Finds (follow w back : Text) : Option Symbol → Nat → Prop
  /-- The byte behind the white space comes first. -/
  | first {x : UInt8} {v : Text} (h : Leads follow back x v) :
      Finds follow w back (some ⟨x⟩) (w.length + 1 + v.length + follow.length)
  /-- White space is a symbol only where that byte is none, and then it is its last byte. -/
  | last {b : UInt8} (hfirst : ∀ x v, ¬Leads follow back x v) (hw : w.getLast? = some b)
      (h : Continues follow back) : Finds follow w back (some ⟨b⟩) (w.length + follow.length)
  | nothing (hfirst : ∀ x v, ¬Leads follow back x v) (h : w = [] ∨ ¬Continues follow back) :
      Finds follow w back none 0

theorem exists_finds (follow w back : Text) : ∃ found n, Finds follow w back found n := by
  by_cases hfirst : ∃ x v, Leads follow back x v
  · obtain ⟨x, v, hlead⟩ := hfirst
    exact ⟨_, _, .first hlead⟩
  · have hfirst : ∀ x v, ¬Leads follow back x v := fun x v hlead => hfirst ⟨x, v, hlead⟩
    by_cases hw : w = []
    · exact ⟨none, 0, .nothing hfirst (.inl hw)⟩
    by_cases hc : Continues follow back
    · exact ⟨_, _, .last hfirst (List.getLast?_eq_some_getLast hw) hc⟩
    · exact ⟨none, 0, .nothing hfirst (.inr hc)⟩

/-- What is found lies within the text. -/
theorem Finds.le {follow w back : Text} {found : Option Symbol} {n : Nat}
    (h : Finds follow w back found n) : n ≤ (w ++ back).length := by
  cases h with
  | first hlead =>
    obtain ⟨-, hs⟩ := hlead
    have hlen := hs.1.length_le
    simp only [List.length_append, List.length_cons]
    omega
  | last hfirst hw hs =>
    have hlen := hs.1.length_le
    rw [List.length_append]
    omega
  | nothing hfirst h => exact Nat.zero_le _

end Text

namespace Scan

open Text

/-- What has to stand behind a symbol position: a token, which is an arrow or a comma in a
transition, or the end of the line. -/
def following (follow : Text) : Scan Unit := if follow = [] then atEnd else token follow

variable {follow v s w back : Text}

theorem skips_following (follow : Text) : Skips (following follow) := by
  unfold following
  split
  · exact skips_atEnd
  · exact skips_token follow

theorem following_apply (hs : EndsRun isSpace s) :
    following follow s = if Continues follow s then some ((), s.drop follow.length) else none := by
  by_cases hnil : follow = []
  · subst hnil
    cases s with
    | nil => rfl
    | cons b s =>
      have hb : isSpace b = false := hs b rfl
      simp [following, atEnd, continues_nil, hb]
  · simp only [following, if_neg hnil, token, dropWhile_of_endsRun hs, continues_of_ne_nil hnil,
      List.isPrefixOf_iff_prefix]

/-- Behind the white space there is no symbol but the first byte. -/
theorem symbol_of_not_leads (hback : EndsRun isSpace back)
    (hfirst : ∀ x v, ¬Leads follow back x v) : symbol (following follow) back = none := by
  cases back with
  | nil => exact symbol_nil (following follow)
  | cons x r =>
    obtain ⟨v, s, hv, hs, rfl⟩ := exists_cut r
    have hnot : ¬Continues follow s := fun hc => hfirst x v ⟨hv, hc⟩
    rw [symbol_cons_of_not_isSpace _ (hback x rfl), (skips_following follow).append hv,
      following_apply hs, if_neg hnot]
    rfl

/-- White space is no symbol if what stands behind all of it is not what has to follow. -/
theorem symbol_spaces_append_eq_none (hw : Spaces w) (hback : EndsRun isSpace back)
    (hnone : symbol (following follow) back = none) (h : ¬Continues follow back) :
    symbol (following follow) (w ++ back) = none := by
  induction w with
  | nil => exact hnone
  | cons b w ih =>
    obtain ⟨hb, hw⟩ := spaces_cons.1 hw
    rw [List.cons_append, symbol_cons_of_isSpace _ hb, ih hw, (skips_following follow).append hw,
      following_apply hback, if_neg h]
    rfl

/-- The scan finds what the rule says, and leaves what stands behind it. -/
theorem symbol_of_finds (hfollow : follow = [] ∨ Solid follow) (hw : Spaces w)
    (hback : EndsRun isSpace back) {found : Option Symbol} {n : Nat}
    (h : Finds follow w back found n) :
    symbol (following follow) (w ++ back) = found.map (·, (w ++ back).drop n) := by
  cases h with
  | first hlead =>
    rename_i x v
    obtain ⟨hv, hs⟩ := hlead
    rename_i s
    have hread : symbol (following follow) (x :: (v ++ s)) = some (⟨x⟩, s.drop follow.length) := by
      rw [symbol_cons_of_not_isSpace _ (hback x rfl), (skips_following follow).append hv,
        following_apply (hs.endsRun hfollow), if_pos hs]
      rfl
    have hdrop : (w ++ x :: (v ++ s)).drop (w.length + 1 + v.length + follow.length) =
        s.drop follow.length := by
      simp [Nat.add_assoc, ← List.drop_drop]
    rw [symbol_spaces_append hw hread, hdrop]
    rfl
  | last hfirst hlast hc =>
    rename_i b
    obtain ⟨u, rfl⟩ := List.getLast?_eq_some_iff.1 hlast
    have hread : symbol (following follow) (b :: back) =
        some (⟨b⟩, back.drop follow.length) := by
      rw [symbol_cons_of_isSpace _ (hw b (by simp)), symbol_of_not_leads hback hfirst,
        following_apply hback, if_pos hc]
      rfl
    have hu : Spaces u := fun y hy => hw y (by simp [hy])
    rw [List.append_assoc, List.singleton_append, symbol_spaces_append hu hread]
    simp [← List.drop_drop]
  | nothing hfirst hnot =>
    have hnone := symbol_of_not_leads hback hfirst
    rcases hnot with rfl | hnot
    · exact hnone
    · exact symbol_spaces_append_eq_none hw hback hnone hnot

end Scan

namespace Cursor

open Text

variable {l follow : Text}

section Position

variable {pos : Nat} {w back : Text}

theorem tryBelow_first (hfollow : follow = [] ∨ Solid follow) (h : Remains l pos (w ++ back))
    {x : UInt8} {v : Text} (hlead : Leads follow back x v) (c : Nat) :
    tryBelow l follow pos (pos + w.length + 1) c =
      some (some ⟨x⟩, pos + w.length + 1 + v.length + follow.length) := by
  obtain ⟨hv, hs⟩ := hlead
  rw [tryBelow_succ follow h.behind hv (hs.endsRun hfollow), if_pos hs]

theorem tryBelow_not_first (h : Remains l pos (w ++ back))
    (hfirst : ∀ x v, ¬Leads follow back x v) (c : Nat) :
    ∃ c', tryBelow l follow pos (pos + w.length + 1) c =
      tryBelow l follow pos (pos + w.length) c' := by
  cases back with
  | nil => exact ⟨c, tryBelow_end h.behind c⟩
  | cons x r =>
    obtain ⟨v, s, hv, hs, rfl⟩ := exists_cut r
    have hnot : ¬Continues follow s := fun hc => hfirst x v ⟨hv, hc⟩
    refine ⟨pos + w.length + 1 + v.length, ?_⟩
    rw [tryBelow_succ follow h.behind hv hs, if_neg hnot]

/-- The last byte of the white space is followed by what stands behind all of it. -/
theorem tryBelow_last (h : Remains l pos (w ++ back)) {b : UInt8} (hlast : w.getLast? = some b)
    (hback : EndsRun isSpace back) (hc : Continues follow back) (c : Nat) :
    tryBelow l follow pos (pos + w.length) c =
      some (some ⟨b⟩, pos + w.length + follow.length) := by
  obtain ⟨u, rfl⟩ := List.getLast?_eq_some_iff.1 hlast
  rw [List.append_assoc] at h
  have hb : Remains l (pos + u.length) (b :: ([] ++ back)) := h.behind
  have htry := tryBelow_succ follow hb spaces_nil hback c
  rw [if_pos hc] at htry
  rw [List.length_append]
  exact htry

/-- Every place within white space is followed by what stands behind all of it, so that they fail
together. The white space behind the place that is tried next is `v`. -/
theorem tryBelow_spaces {u v : Text} (h : Remains l pos (u ++ (v ++ back))) (hu : Spaces u)
    (hv : Spaces v) (hback : EndsRun isSpace back) (hnot : ¬Continues follow back) (c : Nat) :
    ∃ c', tryBelow l follow pos (pos + u.length) c = some (none, c') := by
  induction u using List.reverseRecOn generalizing v c with
  | nil => exact ⟨c, tryBelow_start pos c⟩
  | append_singleton u b ih =>
    have hb : isSpace b := hu b (by simp)
    have hu : Spaces u := fun y hy => hu y (by simp [hy])
    rw [List.append_assoc, List.singleton_append] at h
    have htry := tryBelow_succ follow h.behind hv hback c
    rw [if_neg hnot] at htry
    obtain ⟨c', hnext⟩ := ih (v := b :: v) h hu (spaces_cons.2 ⟨hb, hv⟩)
      (pos + u.length + 1 + v.length)
    refine ⟨c', ?_⟩
    rw [List.length_append]
    exact htry.trans hnext

theorem tryBelow_nothing (h : Remains l pos (w ++ back)) (hw : Spaces w)
    (hback : EndsRun isSpace back) (hnot : w = [] ∨ ¬Continues follow back) (c : Nat) :
    ∃ c', tryBelow l follow pos (pos + w.length) c = some (none, c') := by
  rcases hnot with rfl | hnot
  · exact ⟨c, tryBelow_start pos c⟩
  · exact tryBelow_spaces (v := []) h hw spaces_nil hback hnot c

/-- The cursor finds what the rule says. -/
theorem symbol_of_finds (hfollow : follow = [] ∨ Solid follow) (h : Remains l pos (w ++ back))
    (hw : Spaces w) (hback : EndsRun isSpace back) {found : Option Symbol} {n : Nat}
    (hfinds : Finds follow w back found n) : symbol l follow pos = some (found, pos + n) := by
  rw [symbol, bind_apply (get_apply pos), bind_apply (skipSpace_apply h hw hback),
    bind_apply (get_apply _)]
  cases hfinds with
  | first hlead =>
    rw [bind_apply (tryBelow_first hfollow h hlead _)]
    simp only [pure_apply, Nat.add_assoc]
  | last hfirst hlast hc =>
    obtain ⟨c, htry⟩ := tryBelow_not_first h hfirst (pos + w.length)
    rw [bind_apply (htry.trans (tryBelow_last h hlast hback hc c))]
    simp only [pure_apply, Nat.add_assoc]
  | nothing hfirst hnot =>
    obtain ⟨c, htry⟩ := tryBelow_not_first h hfirst (pos + w.length)
    obtain ⟨c', hnone⟩ := tryBelow_nothing h hw hback hnot c
    have hstart : moveTo l pos c' = some ((), pos) := h.moveTo c'
    rw [bind_apply (htry.trans hnone)]
    exact bind_apply hstart _

/-- At every place of a line and whatever has to follow, trying comes to an end without a look or a
move outside of the line. What is found is what the rule says and what is scanned from the rest of
the line; the cursor is then just behind what follows the symbol, or where it was before. -/
theorem symbol_finds (l follow : Text) (pos : Nat) (hpos : pos ≤ l.length)
    (hfollow : follow = [] ∨ Solid follow) :
    ∃ found n, symbol l follow pos = some (found, pos + n) ∧ pos + n ≤ l.length ∧
      Scan.symbol (Scan.following follow) (l.drop pos) =
        found.map (·, l.drop (pos + n)) ∧
      ∀ found' n', Finds follow ((l.drop pos).takeWhile isSpace)
        ((l.drop pos).dropWhile isSpace) found' n' ↔ found' = found ∧ n' = n := by
  let w := (l.drop pos).takeWhile isSpace
  let back := (l.drop pos).dropWhile isSpace
  have hsplit : w ++ back = l.drop pos := List.takeWhile_append_dropWhile
  have hw : Spaces w := List.all_eq_true.1 List.all_takeWhile
  have hback : EndsRun isSpace back := endsRun_dropWhile isSpace _
  have hremains : Remains l pos (w ++ back) := hsplit ▸ remains_drop hpos
  have hread : ∀ {found n}, Finds follow w back found n →
      symbol l follow pos = some (found, pos + n) := symbol_of_finds hfollow hremains hw hback
  obtain ⟨found, n, hfinds⟩ := exists_finds follow w back
  refine ⟨found, n, hread hfinds, ?_, ?_, fun found' n' => ⟨?_, ?_⟩⟩
  · have hlen := hremains.length_eq
    have hle := hfinds.le
    omega
  · have hscan := Scan.symbol_of_finds hfollow hw hback hfinds
    rwa [hsplit, List.drop_drop] at hscan
  · intro hfinds'
    have hsame := (hread hfinds').symm.trans (hread hfinds)
    simp only [Option.some.injEq, Prod.mk.injEq] at hsame
    exact ⟨hsame.1, Nat.add_left_cancel hsame.2⟩
  · intro hsame
    obtain ⟨rfl, rfl⟩ := hsame
    exact hfinds

/-- The minus sign of an arrow is no symbol in front of the arrow, and the space before it is. -/
theorem symbol_finds_space :
    (2 ≤ (ofString "1,  -> 2, x, _").length ∧ Solid "->") ∧
      symbol "1,  -> 2, x, _" "->" 2 = some (some (.ofChar ' '), 6) := by
  have hpos : 2 ≤ (ofString "1,  -> 2, x, _").length := by decide
  have hfollow : Solid "->" := ⟨45, [62], rfl, rfl⟩
  obtain ⟨found, n, hread, -, -, hrule⟩ :=
    symbol_finds "1,  -> 2, x, _" "->" 2 hpos (.inr hfollow)
  have hfirst : ∀ x v, ¬Leads "->" "-> 2, x, _" x v := by
    intro x v h
    have hnot : ¬Continues "->" ((ofString "> 2, x, _").dropWhile isSpace) := by decide
    exact hnot ((leads_cons_iff (.inr hfollow)).1 h).2.2
  have hfinds : Finds "->" "  " "-> 2, x, _" (some (.ofChar ' ')) 4 :=
    .last hfirst (by decide) (by decide)
  obtain ⟨rfl, rfl⟩ := (hrule _ _).1 hfinds
  exact ⟨⟨hpos, hfollow⟩, hread⟩

example : symbol " " [] 0 = some (some (.ofChar ' '), 1) := by cbv

example : symbol [] [] 0 = some (none, 0) := by cbv

end Position

end Cursor
end SingleTape
