import SingleTape.Source.Lexeme

/-!
What each scan takes from the front of a line and what it leaves, as equivalences.
-/

namespace SingleTape
namespace Text

/-- Nothing but white space. -/
def Spaces (t : Text) : Prop := ∀ b ∈ t, isSpace b

instance (t : Text) : Decidable (Spaces t) := List.decidableBAll (isSpace · = true) t

/-- A text does not begin with a byte of the class. -/
def EndsRun (p : UInt8 → Bool) (t : Text) : Prop := ∀ b ∈ t.head?, p b = false

/-- A text begins with something else than white space. -/
def Solid (t : Text) : Prop := ∃ b r, t = b :: r ∧ isSpace b = false

@[simp] theorem spaces_nil : Spaces [] := by simp [Spaces]

@[simp] theorem spaces_cons {b : UInt8} {t : Text} :
    Spaces (b :: t) ↔ isSpace b ∧ Spaces t := by
  simp [Spaces]

theorem endsRun_dropWhile (p : UInt8 → Bool) (t : Text) : EndsRun p (t.dropWhile p) := by
  intro b hb
  have hhead := List.head?_dropWhile_not p t
  rw [Option.mem_def.1 hb] at hhead
  exact hhead

theorem dropWhile_of_endsRun {p : UInt8 → Bool} {t : Text} (h : EndsRun p t) :
    t.dropWhile p = t := by
  cases t with
  | nil => rfl
  | cons b t => rw [List.dropWhile_cons_of_neg (by simp [h b rfl])]

theorem takeWhile_of_endsRun {p : UInt8 → Bool} {t : Text} (h : EndsRun p t) :
    t.takeWhile p = [] := by
  cases t with
  | nil => rfl
  | cons b t => rw [List.takeWhile_cons_of_neg (by simp [h b rfl])]

/-- Skipping white space takes off a run of it that cannot go on. -/
theorem dropWhile_isSpace_eq_iff {r s : Text} :
    r.dropWhile isSpace = s ↔ EndsRun isSpace s ∧ ∃ u, Spaces u ∧ r = u ++ s := by
  constructor
  · intro h
    subst h
    have hsplit : r = r.takeWhile isSpace ++ r.dropWhile isSpace :=
      List.takeWhile_append_dropWhile.symm
    exact ⟨endsRun_dropWhile isSpace r, r.takeWhile isSpace,
      List.all_eq_true.1 List.all_takeWhile, hsplit⟩
  · intro h
    obtain ⟨hs, u, hu, rfl⟩ := h
    rw [List.dropWhile_append_of_pos hu, dropWhile_of_endsRun hs]

theorem IsWord.solid {w : Text} (h : w.IsWord) : Solid w := by
  obtain ⟨hne, hall⟩ := h
  cases w with
  | nil => exact absurd rfl hne
  | cons b w => exact ⟨b, w, rfl, not_isSpace_of_isWordByte (hall b (by simp))⟩

theorem Solid.endsRun_append {t : Text} (h : Solid t) (r : Text) : EndsRun isSpace (t ++ r) := by
  obtain ⟨b, t, rfl, hb⟩ := h
  intro x hx
  obtain rfl : b = x := by simpa using hx
  exact hb

theorem Solid.dropWhile_append {u t : Text} (hu : Spaces u) (ht : Solid t) (r : Text) :
    (u ++ (t ++ r)).dropWhile isSpace = t ++ r :=
  dropWhile_isSpace_eq_iff.2 ⟨ht.endsRun_append r, u, hu, rfl⟩

theorem not_isWordByte_of_isSpace {b : UInt8} (h : isSpace b) : isWordByte b = false := by
  cases hw : isWordByte b with
  | false => rfl
  | true => simp [not_isSpace_of_isWordByte hw] at h

theorem Spaces.endsRun {u : Text} (hu : Spaces u) : EndsRun isWordByte u := by
  intro b hb
  exact not_isWordByte_of_isSpace (hu b (List.mem_of_mem_head? hb))

/-- White space and then a byte that is no word byte end a word. -/
theorem Spaces.endsRun_append {u : Text} (hu : Spaces u) {x : UInt8} (hx : isWordByte x = false)
    (r : Text) : EndsRun isWordByte (u ++ x :: r) := by
  intro b hb
  cases u with
  | nil =>
    obtain rfl : x = b := by simpa using hb
    exact hx
  | cons y u =>
    obtain rfl : y = b := by simpa using hb
    exact not_isWordByte_of_isSpace (hu y (by simp))

end Text

namespace Scan

open Text

theorem atEnd_eq_some_iff {r rest : Text} {v : Unit} :
    atEnd r = some (v, rest) ↔ Spaces r ∧ rest = [] := by
  unfold atEnd
  split
  · next h =>
    have hr : Spaces r := by simpa [Spaces] using h
    simp [hr, eq_comm]
  · next h =>
    have hr : ¬Spaces r := by simpa [Spaces] using h
    simp [hr]

theorem word_eq_some_iff {r w rest : Text} :
    word r = some (w, rest) ↔
      w.IsWord ∧ EndsRun isWordByte rest ∧ ∃ u, Spaces u ∧ r = u ++ (w ++ rest) := by
  simp only [word, Option.ite_none_left_eq_some, Option.some.injEq, Prod.mk.injEq]
  constructor
  · intro h
    obtain ⟨hne, rfl, rfl⟩ := h
    obtain ⟨-, u, hu, hr⟩ := dropWhile_isSpace_eq_iff.1 (rfl : r.dropWhile isSpace = _)
    refine ⟨⟨hne, List.all_eq_true.1 List.all_takeWhile⟩, endsRun_dropWhile _ _, u, hu, ?_⟩
    rw [List.takeWhile_append_dropWhile]
    exact hr
  · intro h
    obtain ⟨hw, hrest, u, hu, rfl⟩ := h
    rw [hw.solid.dropWhile_append hu, List.takeWhile_append_of_pos hw.2,
      List.dropWhile_append_of_pos hw.2, takeWhile_of_endsRun hrest, dropWhile_of_endsRun hrest,
      List.append_nil]
    exact ⟨hw.1, rfl, rfl⟩

/-- A word with something other than a word byte behind it is read to its end. -/
theorem word_append {u w rest : Text} (hu : Spaces u) (hw : w.IsWord)
    (hrest : EndsRun isWordByte rest) : word (u ++ (w ++ rest)) = some (w, rest) :=
  word_eq_some_iff.2 ⟨hw, hrest, u, hu, rfl⟩

theorem not_spaces_of_word {r w rest : Text} (h : word r = some (w, rest)) : ¬Spaces r := by
  obtain ⟨hw, -, u, -, rfl⟩ := word_eq_some_iff.1 h
  obtain ⟨b, w, rfl, hb⟩ := hw.solid
  intro hr
  simp [hr b (by simp)] at hb

theorem token_eq_some_iff {t r rest : Text} {v : Unit} (ht : Solid t) :
    token t r = some (v, rest) ↔ ∃ u, Spaces u ∧ r = u ++ (t ++ rest) := by
  constructor
  · intro h
    simp only [token, Option.ite_none_right_eq_some, Option.some.injEq, Prod.mk.injEq] at h
    obtain ⟨hpre, -, hrest⟩ := h
    obtain ⟨-, u, hu, hr⟩ := dropWhile_isSpace_eq_iff.1 (rfl : r.dropWhile isSpace = _)
    refine ⟨u, hu, ?_⟩
    rw [← hrest, List.prefix_iff_eq_append.1 (List.isPrefixOf_iff_prefix.1 hpre)]
    exact hr
  · intro h
    obtain ⟨u, hu, rfl⟩ := h
    have hpre : t.isPrefixOf (t ++ rest) = true :=
      List.isPrefixOf_iff_prefix.2 (List.prefix_append t rest)
    simp only [token, ht.dropWhile_append hu, hpre, if_true, List.drop_left]

/-- Where a word is read there is no token that begins with something else than a word byte. -/
theorem token_eq_none_of_word {b : UInt8} (hb : isWordByte b = false) (t : Text) {r w rest : Text}
    (h : word r = some (w, rest)) : token (b :: t) r = none := by
  obtain ⟨hw, -, u, hu, rfl⟩ := word_eq_some_iff.1 h
  obtain ⟨x, w, rfl, -⟩ := hw.solid
  have hx : b ≠ x := by
    intro he
    have hword : isWordByte x = true := hw.2 x (by simp)
    simp [← he, hb] at hword
  have hpre : (b :: t).isPrefixOf (x :: w ++ rest) = false := by
    rw [List.cons_append, List.isPrefixOf, beq_false_of_ne hx, Bool.false_and]
  simp only [token, hw.solid.dropWhile_append hu, hpre, Bool.false_eq_true, if_false]

theorem char_eq_some_iff_append {r rest : Text} {c : Symbol} :
    char r = some (c, rest) ↔ isSpace c.byte = false ∧ ∃ u, Spaces u ∧ r = u ++ c.byte :: rest := by
  rw [char_eq_some_iff, dropWhile_isSpace_eq_iff]
  simp [EndsRun]

theorem keyword_eq_some_iff {t r rest : Text} {v : Unit} (ht : Solid t) :
    keyword t r = some (v, rest) ↔
      ∃ u x, Spaces u ∧ isSpace x ∧ r = u ++ (t ++ x :: rest) := by
  constructor
  · intro h
    unfold keyword at h
    split at h
    · next w x s hs =>
      simp only [Option.ite_none_right_eq_some, Option.some.injEq, Prod.mk.injEq] at h
      obtain ⟨hx, -, rfl⟩ := h
      obtain ⟨u, hu, hr⟩ := (token_eq_some_iff ht).1 hs
      exact ⟨u, x, hu, hx, hr⟩
    · simp at h
  · intro h
    obtain ⟨u, x, hu, hx, rfl⟩ := h
    have htoken : token t (u ++ (t ++ x :: rest)) = some ((), x :: rest) :=
      (token_eq_some_iff ht).2 ⟨u, hu, rfl⟩
    simp only [keyword, htoken, hx, if_true]

/-- A scan that makes nothing of white space in front. -/
def Skips (follow : Scan Unit) : Prop :=
  ∀ b r, isSpace b → follow (b :: r) = follow r

theorem Skips.append {follow : Scan Unit} (h : Skips follow) {u : Text} (hu : Spaces u)
    (r : Text) : follow (u ++ r) = follow r := by
  induction u with
  | nil => rfl
  | cons b u ih =>
    obtain ⟨hb, hu⟩ := spaces_cons.1 hu
    rw [List.cons_append, h b _ hb, ih hu]

theorem skips_token (t : Text) : Skips (token t) := by
  intro b r hb
  simp only [token, List.dropWhile_cons_of_pos hb]

theorem skips_atEnd : Skips atEnd := by
  intro b r hb
  simp only [atEnd, List.all_cons, hb, Bool.true_and]

theorem symbol_nil (follow : Scan Unit) : symbol follow [] = none := rfl

theorem symbol_cons_of_not_isSpace (follow : Scan Unit) {b : UInt8} (hb : isSpace b = false)
    (r : Text) : symbol follow (b :: r) = (follow r).map fun (_, rest) => (⟨b⟩, rest) := by
  simp only [symbol, candidates, hb, Bool.false_eq_true, if_false, List.findSome?_cons,
    List.findSome?_nil]
  cases follow r <;> rfl

/-- A white space byte is what a position means when nothing behind the byte serves. -/
theorem symbol_cons_of_isSpace (follow : Scan Unit) {b : UInt8} (hb : isSpace b) (r : Text) :
    symbol follow (b :: r) =
      (symbol follow r).or ((follow r).map fun (_, rest) => (⟨b⟩, rest)) := by
  simp only [symbol, candidates, hb, if_true, List.findSome?_append, List.findSome?_cons,
    List.findSome?_nil]
  cases follow r <;> rfl

/-- A field means a symbol: the symbol alone between white space, or white space that ends in the
symbol. -/
inductive Denotes : Text → Symbol → Prop
  | plain {u v : Text} {c : Symbol} (hu : Spaces u) (hc : isSpace c.byte = false)
      (hv : Spaces v) : Denotes (u ++ c.byte :: v) c
  | space {u : Text} {c : Symbol} (hu : Spaces u) (hc : isSpace c.byte) : Denotes (u ++ [c.byte]) c

theorem Denotes.cons {b : UInt8} (hb : isSpace b) {f : Text} {c : Symbol} (h : Denotes f c) :
    Denotes (b :: f) c := by
  cases h with
  | plain hu hc hv => exact .plain (spaces_cons.2 ⟨hb, hu⟩) hc hv
  | space hu hc => exact .space (spaces_cons.2 ⟨hb, hu⟩) hc

/-- At most one byte of a field is not white space. -/
theorem Denotes.length_filter_le {f : Text} {c : Symbol} (h : Denotes f c) :
    (f.filter fun b => !isSpace b).length ≤ 1 := by
  have none_of_spaces : ∀ {u : Text}, Spaces u → u.filter (fun b => !isSpace b) = [] := by
    intro u hu
    rw [List.filter_eq_nil_iff]
    intro b hb
    simp [hu b hb]
  cases h with
  | plain hu hc hv => simp [none_of_spaces hu, none_of_spaces hv, hc]
  | space hu hc => simp [none_of_spaces hu, hc]

theorem Denotes.spaces_right {u v : Text} {b : UInt8} {c : Symbol} (h : Denotes (u ++ b :: v) c)
    (hb : isSpace b = false) : Spaces v := by
  have hlen := h.length_filter_le
  simp only [List.filter_append, List.filter_cons, hb, Bool.not_false, if_true, List.length_append,
    List.length_cons] at hlen
  have hv : v.filter (fun b => !isSpace b) = [] := List.eq_nil_of_length_eq_zero (by omega)
  intro x hx
  simpa using List.filter_eq_nil_iff.1 hv x hx

/-- The follower does not come behind white space that means nothing. -/
theorem endsRun_of_symbol_eq_none {follow : Scan Unit} (hskip : Skips follow) {r : Text}
    (h : symbol follow r = none) (hf : follow r ≠ none) : EndsRun isSpace r := by
  intro b hb
  cases r with
  | nil => simp at hb
  | cons x r =>
    obtain rfl : x = b := by simpa using hb
    cases hx : isSpace x with
    | false => rfl
    | true =>
      rw [hskip x r hx] at hf
      rw [symbol_cons_of_isSpace follow hx, Option.or_eq_none_iff, Option.map_eq_none_iff] at h
      exact absurd h.2 hf

/-- What is read in a symbol position is a field that means the symbol, in front of something that
the follower takes. -/
theorem denotes_of_symbol_eq_some {follow : Scan Unit} (hskip : Skips follow) {r rest : Text}
    {c : Symbol} (h : symbol follow r = some (c, rest)) :
    ∃ f s, Denotes f c ∧ r = f ++ s ∧ EndsRun isSpace s ∧ follow s = some ((), rest) := by
  induction r with
  | nil => simp [symbol_nil] at h
  | cons b r ih =>
    cases hb : isSpace b with
    | false =>
      rw [symbol_cons_of_not_isSpace follow hb, Option.map_eq_some_iff] at h
      obtain ⟨⟨_, rest'⟩, hf, he⟩ := h
      obtain ⟨rfl, rfl⟩ := Prod.mk.inj he
      -- The follower skips white space, which the field takes over.
      obtain ⟨hs, u, hu, hr⟩ := dropWhile_isSpace_eq_iff.1 (rfl : r.dropWhile isSpace = _)
      rw [hr, hskip.append hu] at hf
      exact ⟨b :: u, r.dropWhile isSpace, .plain spaces_nil hb hu, congrArg (b :: ·) hr, hs, hf⟩
    | true =>
      rw [symbol_cons_of_isSpace follow hb] at h
      cases hr : symbol follow r with
      | some p =>
        have hp : p = (c, rest) := by simpa [hr] using h
        obtain ⟨f, s, hf, he, hs, hfs⟩ := ih (hr.trans (congrArg some hp))
        exact ⟨b :: f, s, hf.cons hb, congrArg (b :: ·) he, hs, hfs⟩
      | none =>
        rw [hr, Option.none_or, Option.map_eq_some_iff] at h
        obtain ⟨⟨_, rest'⟩, hf, he⟩ := h
        obtain ⟨rfl, rfl⟩ := Prod.mk.inj he
        have hs : EndsRun isSpace r := endsRun_of_symbol_eq_none hskip hr (by simp [hf])
        exact ⟨[b], r, .space spaces_nil hb, rfl, hs, hf⟩

theorem symbol_spaces_append {follow : Scan Unit} {u r rest : Text} {c : Symbol} (hu : Spaces u)
    (h : symbol follow r = some (c, rest)) : symbol follow (u ++ r) = some (c, rest) := by
  induction u with
  | nil => exact h
  | cons b u ih =>
    obtain ⟨hb, hu⟩ := spaces_cons.1 hu
    rw [List.cons_append, symbol_cons_of_isSpace follow hb, ih hu, Option.some_or]

/-- A field is read as the symbol that it means, if what follows it cannot be taken for the symbol
as well. -/
theorem symbol_append {follow : Scan Unit} (hskip : Skips follow) {f s rest : Text} {c : Symbol}
    (h : Denotes f c) (hs : follow s = some ((), rest)) (hnone : symbol follow s = none) :
    symbol follow (f ++ s) = some (c, rest) := by
  cases h with
  | plain hu hc hv =>
    rename_i u v
    rw [List.append_assoc]
    apply symbol_spaces_append hu
    rw [List.cons_append, symbol_cons_of_not_isSpace follow hc, hskip.append hv, hs]
    rfl
  | space hu hc =>
    rw [List.append_assoc]
    apply symbol_spaces_append hu
    rw [List.singleton_append, symbol_cons_of_isSpace follow hc, hnone, hs]
    rfl

theorem eq_append_of_token_eq_some {t r rest : Text} {v : Unit} (ht : Solid t)
    (hr : EndsRun isSpace r) (h : token t r = some (v, rest)) : r = t ++ rest := by
  obtain ⟨u, hu, rfl⟩ := (token_eq_some_iff ht).1 h
  cases u with
  | nil => rfl
  | cons b u =>
    have hb : isSpace b = false := hr b (by simp)
    simp [hu b (by simp)] at hb

theorem denotes_of_symbol_token {t r rest : Text} {c : Symbol} (ht : Solid t)
    (h : symbol (token t) r = some (c, rest)) : ∃ f, Denotes f c ∧ r = f ++ (t ++ rest) := by
  obtain ⟨f, s, hf, hr, hs, htoken⟩ := denotes_of_symbol_eq_some (skips_token t) h
  rw [eq_append_of_token_eq_some ht hs htoken] at hr
  exact ⟨f, hf, hr⟩

/-- A symbol in front of a token is read, unless the token could begin at its own second byte. -/
theorem symbol_token_append {t f rest : Text} {c : Symbol} (ht : Solid t) (hf : Denotes f c)
    (hnone : token t (t.tail ++ rest) = none) :
    symbol (token t) (f ++ (t ++ rest)) = some (c, rest) := by
  have htoken : token t (t ++ rest) = some ((), rest) :=
    (token_eq_some_iff ht).2 ⟨[], spaces_nil, rfl⟩
  apply symbol_append (skips_token t) hf htoken
  obtain ⟨b, t, rfl, hb⟩ := ht
  rw [List.cons_append, symbol_cons_of_not_isSpace _ hb]
  rw [List.tail_cons] at hnone
  rw [hnone]
  rfl

/-- A symbol at the end of the line. -/
theorem symbol_atEnd_eq_some_iff {r rest : Text} {c : Symbol} :
    symbol atEnd r = some (c, rest) ↔ Denotes r c ∧ rest = [] := by
  constructor
  · intro h
    obtain ⟨f, s, hf, hr, hs, hend⟩ := denotes_of_symbol_eq_some skips_atEnd h
    obtain ⟨hspaces, hrest⟩ := atEnd_eq_some_iff.1 hend
    cases s with
    | nil =>
      rw [List.append_nil] at hr
      exact ⟨hr ▸ hf, hrest⟩
    | cons b s =>
      have hb : isSpace b = false := hs b (by simp)
      simp [hspaces b (by simp)] at hb
  · intro h
    obtain ⟨hr, hrest⟩ := h
    have hread := symbol_append skips_atEnd hr (atEnd_eq_some_iff.2 ⟨spaces_nil, rfl⟩) rfl
    rwa [List.append_nil, ← hrest] at hread

theorem bind_eq_some_iff {α β : Type} {x : Scan α} {f : α → Scan β} {r rest : Text} {b : β} :
    (x >>= f) r = some (b, rest) ↔ ∃ a s, x r = some (a, s) ∧ f a s = some (b, rest) := by
  simp [bind, StateT.bind, Option.bind_eq_some_iff]

theorem pure_eq_some_iff {α : Type} {a b : α} {r rest : Text} :
    (pure a : Scan α) r = some (b, rest) ↔ a = b ∧ r = rest := by
  have hpure : (pure a : Scan α) r = some (a, r) := rfl
  simp [hpure]

theorem lift_eq_some_iff {α : Type} {x : Option α} {r rest : Text} {a : α} :
    (liftM x : Scan α) r = some (a, rest) ↔ x = some a ∧ r = rest := by
  cases x <;> simp [liftM, monadLift, MonadLift.monadLift, StateT.lift]

end Scan
end SingleTape
