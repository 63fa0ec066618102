import SingleTape.Proofs.Source.Scanning
import SingleTape.Source.Statement

/-!
The grammar of lines. It is given without regard to how a line is read, and it leaves no choice: a
line says at most one statement, and that is the one which is recognised.
-/

namespace SingleTape
namespace Statement

open Text Scan

/-- The lines of one transition. -/
inductive TransitionLine (q : State) (a : Symbol) (t : State) (b : Symbol) (m : Move) : Text → Prop
  | mk {w₀ w₁ w₂ w₃ w₄ w₅ f g : Text} (h₀ : Spaces w₀) (hq : q.IsWord) (h₁ : Spaces w₁)
      (ha : Denotes f a) (h₂ : Spaces w₂) (ht : t.IsWord) (h₃ : Spaces w₃) (hb : Denotes g b)
      (h₄ : Spaces w₄) (hm : m.isValid) (h₅ : Spaces w₅) :
      TransitionLine q a t b m
        (w₀ ++ q ++ w₁ ++ comma ++ f ++ arrow ++ w₂ ++ t ++ w₃ ++ comma ++ g ++ comma ++ w₄ ++
          m.token.text ++ w₅)

/-- The lines of a keyword with a state behind it. -/
inductive StateLine (k : Text) (q : State) : Text → Prop
  | mk {w₀ w₁ w₂ : Text} (h₀ : Spaces w₀) (h₁ : Spaces w₁) (hne : w₁ ≠ []) (hq : q.IsWord)
      (h₂ : Spaces w₂) : StateLine k q (w₀ ++ k ++ w₁ ++ q ++ w₂)

/-- The lines of a blank; one white space byte belongs to the keyword. -/
inductive BlankLine (c : Symbol) : Text → Prop
  | mk {w f : Text} {x : UInt8} (hw : Spaces w) (hx : isSpace x) (hf : Denotes f c) :
      BlankLine c (w ++ blankKeyword ++ x :: f)

/-- Anything may stand behind the mark of a comment. -/
inductive CommentLine : Text → Prop
  | mk {w r : Text} (hw : Spaces w) : CommentLine (w ++ commentMark ++ r)

/-- The line says the statement. -/
def Spells (l : Text) : Statement → Prop
  | transition q a t b m => TransitionLine q a t b m l
  | comment => CommentLine l
  | final q => StateLine finalKeyword q l
  | initial q => StateLine initialKeyword q l
  | blank c => BlankLine c l
  | halt q => StateLine haltKeyword q l

theorem solid_comma : Solid comma := ⟨44, [], rfl, rfl⟩

theorem solid_arrow : Solid arrow := ⟨45, [62], rfl, rfl⟩

theorem solid_commentMark : Solid commentMark := ⟨37, [], rfl, rfl⟩

theorem isWord_finalKeyword : finalKeyword.IsWord := by decide

theorem isWord_initialKeyword : initialKeyword.IsWord := by decide

theorem isWord_blankKeyword : blankKeyword.IsWord := by decide

theorem isWord_haltKeyword : haltKeyword.IsWord := by decide

theorem isSpace_token {m : Move} (h : m.isValid) : isSpace m.token.byte = false := by
  cases m with
  | left => rfl
  | right => rfl
  | stay => rfl
  | invalid code hc => simp [Move.isValid] at h

theorem transitionLine_of_scan {l rest : Text} {s : Statement}
    (h : scanTransition l = some (s, rest)) :
    ∃ q a t b m, s = transition q a t b m ∧ TransitionLine q a t b m l := by
  simp only [scanTransition, bind_eq_some_iff, lift_eq_some_iff, pure_eq_some_iff] at h
  obtain ⟨q, r₁, hq, _, r₂, hcomma, a, r₃, ha, t, r₄, ht, _, r₅, hcomma', b, r₆, hb, k, r₇, hk, m,
    r₈, ⟨hm, hr⟩, _, r₉, hend, hs, -⟩ := h
  obtain ⟨hq, -, w₀, h₀, hl⟩ := word_eq_some_iff.1 hq
  obtain ⟨w₁, h₁, hr₁⟩ := (token_eq_some_iff solid_comma).1 hcomma
  obtain ⟨f, hf, hr₂⟩ := denotes_of_symbol_token solid_arrow ha
  obtain ⟨ht, -, w₂, h₂, hr₃⟩ := word_eq_some_iff.1 ht
  obtain ⟨w₃, h₃, hr₄⟩ := (token_eq_some_iff solid_comma).1 hcomma'
  obtain ⟨g, hg, hr₅⟩ := denotes_of_symbol_token solid_comma hb
  obtain ⟨-, w₄, h₄, hr₆⟩ := char_eq_some_iff_append.1 hk
  obtain ⟨h₅, -⟩ := atEnd_eq_some_iff.1 hend
  obtain ⟨hvalid, hk⟩ := Move.ofToken?_eq_some hm
  refine ⟨q, a, t, b, m, hs.symm, ?_⟩
  have hline := TransitionLine.mk h₀ hq h₁ hf h₂ ht h₃ hg h₄ hvalid h₅
  rw [hl, hr₁, hr₂, hr₃, hr₄, hr₅, hr₆, hr, ← hk]
  simpa only [List.append_assoc, Symbol.text, List.singleton_append] using hline

theorem endsRun_comma {u : Text} (hu : Spaces u) (r : Text) :
    EndsRun isWordByte (u ++ (comma ++ r)) :=
  hu.endsRun_append (x := 44) rfl r

theorem token_arrow_tail (r : Text) : token arrow (arrow.tail ++ r) = none := rfl

/-- No move is written as a comma. -/
theorem token_comma_move {u : Text} (hu : Spaces u) {m : Move} (hm : m.isValid) (r : Text) :
    token comma (u ++ (m.token.text ++ r)) = none := by
  have hsolid : Solid m.token.text := ⟨_, [], rfl, isSpace_token hm⟩
  have hother : comma.isPrefixOf (m.token.text ++ r) = false := by cases m <;> rfl
  simp only [token, hsolid.dropWhile_append hu, hother, Bool.false_eq_true, if_false]

theorem TransitionLine.scan {q t : State} {a b : Symbol} {m : Move} {l : Text}
    (h : TransitionLine q a t b m l) : scanTransition l = some (transition q a t b m, []) := by
  obtain ⟨h₀, hq, h₁, ha, h₂, ht, h₃, hb, h₄, hm, h₅⟩ := h
  rename_i w₀ w₁ w₂ w₃ w₄ w₅ f g
  let r₆ := w₄ ++ (m.token.text ++ w₅)
  let r₄ := w₃ ++ (comma ++ (g ++ (comma ++ r₆)))
  let r₃ := w₂ ++ (t ++ r₄)
  let r₁ := w₁ ++ (comma ++ (f ++ (arrow ++ r₃)))
  have hword : word (w₀ ++ (q ++ r₁)) = some (q, r₁) := word_append h₀ hq (endsRun_comma h₁ _)
  have hcomma : token comma r₁ = some ((), f ++ (arrow ++ r₃)) :=
    (token_eq_some_iff solid_comma).2 ⟨w₁, h₁, rfl⟩
  have hread : symbol (token arrow) (f ++ (arrow ++ r₃)) = some (a, r₃) :=
    symbol_token_append solid_arrow ha (token_arrow_tail r₃)
  have hword' : word r₃ = some (t, r₄) := word_append h₂ ht (endsRun_comma h₃ _)
  have hcomma' : token comma r₄ = some ((), g ++ (comma ++ r₆)) :=
    (token_eq_some_iff solid_comma).2 ⟨w₃, h₃, rfl⟩
  have hwrite : symbol (token comma) (g ++ (comma ++ r₆)) = some (b, r₆) :=
    symbol_token_append solid_comma hb (token_comma_move h₄ hm w₅)
  have hchar : char r₆ = some (m.token, w₅) :=
    char_eq_some_iff_append.2 ⟨isSpace_token hm, w₄, h₄, rfl⟩
  simp only [List.append_assoc]
  simp only [scanTransition, bind_eq_some_iff, lift_eq_some_iff, pure_eq_some_iff]
  exact ⟨q, r₁, hword, _, _, hcomma, a, r₃, hread, t, r₄, hword', _, _, hcomma', b, r₆, hwrite,
    m.token, w₅, hchar, m, w₅, ⟨Move.ofToken?_token hm, rfl⟩, (), [],
    atEnd_eq_some_iff.2 ⟨h₅, rfl⟩, rfl, rfl⟩

theorem stateLine_of_scan {k l rest : Text} {f : State → Statement} {s : Statement} (hk : k.IsWord)
    (h : scanState k f l = some (s, rest)) : ∃ q, s = f q ∧ StateLine k q l := by
  simp only [scanState, bind_eq_some_iff, pure_eq_some_iff] at h
  obtain ⟨_, r₁, hkeyword, q, r₂, hq, _, r₃, hend, hs, -⟩ := h
  obtain ⟨w₀, x, h₀, hx, hl⟩ := (keyword_eq_some_iff hk.solid).1 hkeyword
  obtain ⟨hq, -, w₁, h₁, hr₁⟩ := word_eq_some_iff.1 hq
  obtain ⟨h₂, -⟩ := atEnd_eq_some_iff.1 hend
  refine ⟨q, hs.symm, ?_⟩
  have hline := StateLine.mk (k := k) h₀ (spaces_cons.2 ⟨hx, h₁⟩) (List.cons_ne_nil x w₁) hq h₂
  rw [hl, hr₁]
  simpa only [List.append_assoc, List.cons_append] using hline

theorem StateLine.scan {k l : Text} {q : State} (hk : k.IsWord) (h : StateLine k q l)
    (f : State → Statement) : scanState k f l = some (f q, []) := by
  obtain ⟨h₀, h₁, hne, hq, h₂⟩ := h
  rename_i w₀ w₁ w₂
  cases w₁ with
  | nil => exact absurd rfl hne
  | cons x w₁ =>
    obtain ⟨hx, h₁⟩ := spaces_cons.1 h₁
    have hkeyword : keyword k (w₀ ++ (k ++ x :: (w₁ ++ (q ++ w₂)))) =
        some ((), w₁ ++ (q ++ w₂)) :=
      (keyword_eq_some_iff hk.solid).2 ⟨w₀, x, h₀, hx, rfl⟩
    have hword : word (w₁ ++ (q ++ w₂)) = some (q, w₂) := word_append h₁ hq h₂.endsRun
    simp only [List.append_assoc, List.cons_append]
    simp only [scanState, bind_eq_some_iff, pure_eq_some_iff]
    exact ⟨_, _, hkeyword, q, w₂, hword, (), [], atEnd_eq_some_iff.2 ⟨h₂, rfl⟩, rfl, rfl⟩

theorem blankLine_of_scan {l rest : Text} {s : Statement} (h : scanBlank l = some (s, rest)) :
    ∃ c, s = blank c ∧ BlankLine c l := by
  simp only [scanBlank, bind_eq_some_iff, pure_eq_some_iff] at h
  obtain ⟨_, r₁, hkeyword, c, r₂, hc, hs, -⟩ := h
  obtain ⟨w, x, hw, hx, hl⟩ := (keyword_eq_some_iff isWord_blankKeyword.solid).1 hkeyword
  have hline := BlankLine.mk hw hx (symbol_atEnd_eq_some_iff.1 hc).1
  refine ⟨c, hs.symm, ?_⟩
  rw [hl]
  simpa only [List.append_assoc] using hline

theorem BlankLine.scan {l : Text} {c : Symbol} (h : BlankLine c l) :
    scanBlank l = some (blank c, []) := by
  obtain ⟨hw, hx, hf⟩ := h
  rename_i w f x
  have hkeyword : keyword blankKeyword (w ++ (blankKeyword ++ x :: f)) = some ((), f) :=
    (keyword_eq_some_iff isWord_blankKeyword.solid).2 ⟨w, x, hw, hx, rfl⟩
  simp only [List.append_assoc]
  simp only [scanBlank, bind_eq_some_iff, pure_eq_some_iff]
  exact ⟨_, _, hkeyword, c, [], symbol_atEnd_eq_some_iff.2 ⟨hf, rfl⟩, rfl, rfl⟩

theorem commentLine_of_scan {l rest : Text} {s : Statement}
    (h : scanComment l = some (s, rest)) : s = comment ∧ CommentLine l := by
  simp only [scanComment, bind_eq_some_iff, pure_eq_some_iff] at h
  obtain ⟨_, r, hmark, hs, -⟩ := h
  obtain ⟨w, hw, hl⟩ := (token_eq_some_iff solid_commentMark).1 hmark
  have hline := CommentLine.mk (r := r) hw
  refine ⟨hs.symm, ?_⟩
  rw [hl]
  simpa only [List.append_assoc] using hline

theorem CommentLine.scan {l : Text} (h : CommentLine l) :
    ∃ rest, scanComment l = some (comment, rest) := by
  obtain ⟨hw⟩ := h
  rename_i w r
  have hmark : token commentMark (w ++ (commentMark ++ r)) = some ((), r) :=
    (token_eq_some_iff solid_commentMark).2 ⟨w, hw, rfl⟩
  refine ⟨r, ?_⟩
  simp only [List.append_assoc]
  simp only [scanComment, bind_eq_some_iff, pure_eq_some_iff]
  exact ⟨_, _, hmark, trivial, rfl⟩

/-! The first word of a line, or what stands behind it, tells the six kinds of lines apart. -/

theorem TransitionLine.word_eq {q t : State} {a b : Symbol} {m : Move} {l : Text}
    (h : TransitionLine q a t b m l) :
    ∃ r s, word l = some (q, r) ∧ token comma r = some ((), s) ∧ 45 ∈ s := by
  obtain ⟨h₀, hq, h₁, ha, h₂, ht, h₃, hb, h₄, hm, h₅⟩ := h
  rename_i w₀ w₁ w₂ w₃ w₄ w₅ f g
  simp only [List.append_assoc]
  refine ⟨_, _, word_append h₀ hq (endsRun_comma h₁ _),
    (token_eq_some_iff solid_comma).2 ⟨w₁, h₁, rfl⟩, ?_⟩
  have harrow : 45 ∈ arrow := by decide
  simp [harrow]

theorem StateLine.word_eq {k q l : Text} (hk : k.IsWord) (h : StateLine k q l) :
    ∃ r s, word l = some (k, r) ∧ word r = some (q, s) := by
  obtain ⟨h₀, h₁, hne, hq, h₂⟩ := h
  rename_i w₀ w₁ w₂
  simp only [List.append_assoc]
  refine ⟨w₁ ++ (q ++ w₂), w₂, word_append h₀ hk ?_, word_append h₁ hq h₂.endsRun⟩
  cases w₁ with
  | nil => exact absurd rfl hne
  | cons x w₁ =>
    intro b hb
    obtain rfl : x = b := by simpa using hb
    exact not_isWordByte_of_isSpace (h₁ x (by simp))

theorem BlankLine.word_eq {l : Text} {c : Symbol} (h : BlankLine c l) :
    ∃ x f, isSpace x ∧ Denotes f c ∧ word l = some (blankKeyword, x :: f) := by
  obtain ⟨hw, hx, hf⟩ := h
  rename_i w f x
  simp only [List.append_assoc]
  refine ⟨x, f, hx, hf, word_append hw isWord_blankKeyword ?_⟩
  intro b hb
  obtain rfl : x = b := by simpa using hb
  exact not_isWordByte_of_isSpace hx

theorem CommentLine.word_eq_none {l : Text} (h : CommentLine l) : word l = none := by
  obtain ⟨hw⟩ := h
  simp only [List.append_assoc, word, solid_commentMark.dropWhile_append hw]
  rfl

theorem TransitionLine.not_stateLine {q t k p : State} {a b : Symbol} {m : Move} {l : Text}
    (h : TransitionLine q a t b m l) (hk : k.IsWord) : ¬StateLine k p l := by
  intro hs
  obtain ⟨r, s, hword, hcomma, -⟩ := h.word_eq
  obtain ⟨r', s', hword', hstate⟩ := hs.word_eq hk
  obtain ⟨-, rfl⟩ : q = k ∧ r = r' := by simpa using hword.symm.trans hword'
  have hnone : token comma r = none := token_eq_none_of_word (b := 44) rfl [] hstate
  simp [hnone] at hcomma

theorem TransitionLine.not_blankLine {q t : State} {a b c : Symbol} {m : Move} {l : Text}
    (h : TransitionLine q a t b m l) : ¬BlankLine c l := by
  intro hs
  obtain ⟨r, s, hword, hcomma, harrow⟩ := h.word_eq
  obtain ⟨x, f, hx, hf, hword'⟩ := hs.word_eq
  obtain ⟨-, rfl⟩ : q = blankKeyword ∧ r = x :: f := by simpa using hword.symm.trans hword'
  obtain ⟨u, hu, hr⟩ := (token_eq_some_iff solid_comma).1 hcomma
  -- The comma would be the blank, and nothing but white space could follow it.
  have hspaces : Spaces s := by
    cases u with
    | nil =>
      obtain rfl : x = 44 := (List.cons.inj hr).1
      exact absurd hx (by decide)
    | cons y u =>
      obtain ⟨-, rfl⟩ : x = y ∧ f = u ++ 44 :: s := List.cons.inj hr
      exact hf.spaces_right rfl
  exact absurd (hspaces 45 harrow) (by decide)

theorem CommentLine.not_transitionLine {q t : State} {a b : Symbol} {m : Move} {l : Text}
    (h : CommentLine l) : ¬TransitionLine q a t b m l := by
  intro ht
  obtain ⟨r, s, hword, -⟩ := ht.word_eq
  simp [h.word_eq_none] at hword

theorem CommentLine.not_stateLine {k q l : Text} (h : CommentLine l) (hk : k.IsWord) :
    ¬StateLine k q l := by
  intro hs
  obtain ⟨r, s, hword, -⟩ := hs.word_eq hk
  simp [h.word_eq_none] at hword

theorem CommentLine.not_blankLine {l : Text} {c : Symbol} (h : CommentLine l) :
    ¬BlankLine c l := by
  intro hb
  obtain ⟨x, f, -, -, hword⟩ := hb.word_eq
  simp [h.word_eq_none] at hword

theorem StateLine.eq {k k' q q' l : Text} (hk : k.IsWord) (hk' : k'.IsWord)
    (h : StateLine k q l) (h' : StateLine k' q' l) : k = k' ∧ q = q' := by
  obtain ⟨r, s, hword, hstate⟩ := h.word_eq hk
  obtain ⟨r', s', hword', hstate'⟩ := h'.word_eq hk'
  obtain ⟨rfl, rfl⟩ : k = k' ∧ r = r' := by simpa using hword.symm.trans hword'
  exact ⟨rfl, congrArg Prod.fst (Option.some.inj (hstate.symm.trans hstate'))⟩

theorem StateLine.not_blankLine {k q l : Text} {c : Symbol} (hk : k.IsWord)
    (hne : k ≠ blankKeyword) (h : StateLine k q l) : ¬BlankLine c l := by
  intro hb
  obtain ⟨r, s, hword, -⟩ := h.word_eq hk
  obtain ⟨x, f, -, -, hword'⟩ := hb.word_eq
  exact hne (congrArg Prod.fst (Option.some.inj (hword.symm.trans hword')))

theorem TransitionLine.eq_of_spells {q t : State} {a b : Symbol} {m : Move} {l : Text}
    {s : Statement} (h : TransitionLine q a t b m l) (hs : Spells l s) :
    transition q a t b m = s := by
  cases s with
  | transition q' a' t' b' m' =>
    have hs : TransitionLine q' a' t' b' m' l := hs
    exact congrArg Prod.fst (Option.some.inj (h.scan.symm.trans hs.scan))
  | comment => exact absurd h (CommentLine.not_transitionLine hs)
  | final p => exact absurd hs (h.not_stateLine isWord_finalKeyword)
  | initial p => exact absurd hs (h.not_stateLine isWord_initialKeyword)
  | blank c => exact absurd hs h.not_blankLine
  | halt p => exact absurd hs (h.not_stateLine isWord_haltKeyword)

theorem CommentLine.eq_of_spells {l : Text} {s : Statement} (h : CommentLine l)
    (hs : Spells l s) : comment = s := by
  cases s with
  | transition q a t b m => exact absurd hs h.not_transitionLine
  | comment => rfl
  | final p => exact absurd hs (h.not_stateLine isWord_finalKeyword)
  | initial p => exact absurd hs (h.not_stateLine isWord_initialKeyword)
  | blank c => exact absurd hs h.not_blankLine
  | halt p => exact absurd hs (h.not_stateLine isWord_haltKeyword)

theorem BlankLine.eq_of_spells {l : Text} {c : Symbol} {s : Statement} (h : BlankLine c l)
    (hs : Spells l s) : blank c = s := by
  cases s with
  | transition q a t b m => exact absurd h (TransitionLine.not_blankLine hs)
  | comment => exact absurd h (CommentLine.not_blankLine hs)
  | final p => exact absurd h (StateLine.not_blankLine isWord_finalKeyword (by decide) hs)
  | initial p => exact absurd h (StateLine.not_blankLine isWord_initialKeyword (by decide) hs)
  | blank c' =>
    have hs : BlankLine c' l := hs
    exact congrArg Prod.fst (Option.some.inj (h.scan.symm.trans hs.scan))
  | halt p => exact absurd h (StateLine.not_blankLine isWord_haltKeyword (by decide) hs)

/-- A line with a keyword and a state says the statement of the keyword. -/
theorem StateLine.eq_of_spells {k q l : Text} {s : Statement} (hk : k.IsWord)
    (h : StateLine k q l) (hs : Spells l s) :
    s = final q ∧ k = finalKeyword ∨ s = initial q ∧ k = initialKeyword ∨
      s = halt q ∧ k = haltKeyword ∨ k = blankKeyword := by
  cases s with
  | transition q' a t b m => exact absurd h (TransitionLine.not_stateLine hs hk)
  | comment => exact absurd h (CommentLine.not_stateLine hs hk)
  | final p =>
    obtain ⟨rfl, rfl⟩ := h.eq hk isWord_finalKeyword hs
    simp
  | initial p =>
    obtain ⟨rfl, rfl⟩ := h.eq hk isWord_initialKeyword hs
    simp
  | blank c =>
    by_cases hblank : k = blankKeyword
    · simp [hblank]
    · exact absurd hs (h.not_blankLine hk hblank)
  | halt p =>
    obtain ⟨rfl, rfl⟩ := h.eq hk isWord_haltKeyword hs
    simp

/-- A line says at most one statement. -/
theorem eq_of_spells {l : Text} {s s' : Statement} (h : Spells l s) (h' : Spells l s') :
    s = s' := by
  cases s with
  | transition q a t b m => exact TransitionLine.eq_of_spells h h'
  | comment => exact CommentLine.eq_of_spells h h'
  | final q =>
    rcases StateLine.eq_of_spells isWord_finalKeyword h h' with ⟨rfl, -⟩ | ⟨-, hk⟩ | ⟨-, hk⟩ | hk
    · rfl
    all_goals exact absurd hk (by decide)
  | initial q =>
    rcases StateLine.eq_of_spells isWord_initialKeyword h h' with ⟨-, hk⟩ | ⟨rfl, -⟩ | ⟨-, hk⟩ | hk
    · exact absurd hk (by decide)
    · rfl
    all_goals exact absurd hk (by decide)
  | blank c => exact BlankLine.eq_of_spells h h'
  | halt q =>
    rcases StateLine.eq_of_spells isWord_haltKeyword h h' with ⟨-, hk⟩ | ⟨-, hk⟩ | ⟨rfl, -⟩ | hk
    · exact absurd hk (by decide)
    · exact absurd hk (by decide)
    · rfl
    · exact absurd hk (by decide)

/-- Each form reads the lines of its own kind. -/
theorem spells_of_form {form : Scan Statement} (hform : form ∈ forms) {l rest : Text}
    {s : Statement} (h : form l = some (s, rest)) : Spells l s := by
  simp only [forms, List.mem_cons, List.not_mem_nil, or_false] at hform
  rcases hform with rfl | rfl | rfl | rfl | rfl | rfl
  · obtain ⟨q, a, t, b, m, rfl, hl⟩ := transitionLine_of_scan h
    exact hl
  · obtain ⟨rfl, hl⟩ := commentLine_of_scan h
    exact hl
  · obtain ⟨q, rfl, hl⟩ := stateLine_of_scan isWord_finalKeyword h
    exact hl
  · obtain ⟨q, rfl, hl⟩ := stateLine_of_scan isWord_initialKeyword h
    exact hl
  · obtain ⟨c, rfl, hl⟩ := blankLine_of_scan h
    exact hl
  · obtain ⟨q, rfl, hl⟩ := stateLine_of_scan isWord_haltKeyword h
    exact hl

theorem form_of_spells {l : Text} {s : Statement} (h : Spells l s) :
    ∃ form ∈ forms, ∃ rest, form l = some (s, rest) := by
  cases s with
  | transition q a t b m => exact ⟨scanTransition, by simp [forms], _, TransitionLine.scan h⟩
  | comment => exact ⟨scanComment, by simp [forms], CommentLine.scan h⟩
  | final q => exact ⟨_, by simp [forms], _, StateLine.scan isWord_finalKeyword h final⟩
  | initial q => exact ⟨_, by simp [forms], _, StateLine.scan isWord_initialKeyword h initial⟩
  | blank c => exact ⟨scanBlank, by simp [forms], _, BlankLine.scan h⟩
  | halt q => exact ⟨_, by simp [forms], _, StateLine.scan isWord_haltKeyword h halt⟩

theorem spells_of_ofLine? {l : Text} {s : Statement} (h : ofLine? l = some s) : Spells l s := by
  obtain ⟨form, hform, hs⟩ := List.exists_of_findSome?_eq_some h
  obtain ⟨⟨s', rest⟩, hread, rfl⟩ := Option.map_eq_some_iff.1 hs
  exact spells_of_form hform hread

/-- No form that comes earlier takes the line for something else. -/
theorem ofLine?_of_spells {l : Text} {s : Statement} (h : Spells l s) : ofLine? l = some s := by
  obtain ⟨form, hform, rest, hread⟩ := form_of_spells h
  cases hl : ofLine? l with
  | none =>
    have hnone := List.findSome?_eq_none_iff.1 hl form hform
    simp [hread] at hnone
  | some s' => rw [eq_of_spells (spells_of_ofLine? hl) h]

/-- A line of white space says nothing. -/
theorem not_spaces_of_spells {l : Text} {s : Statement} (h : Spells l s) : ¬Spaces l := by
  cases s with
  | transition q a t b m =>
    obtain ⟨r, s, hword, -⟩ := TransitionLine.word_eq h
    exact not_spaces_of_word hword
  | comment =>
    obtain ⟨hw⟩ := h
    intro hl
    exact absurd (hl 37 (by simp [show 37 ∈ commentMark by decide])) (by decide)
  | final q =>
    obtain ⟨r, s, hword, -⟩ := StateLine.word_eq isWord_finalKeyword h
    exact not_spaces_of_word hword
  | initial q =>
    obtain ⟨r, s, hword, -⟩ := StateLine.word_eq isWord_initialKeyword h
    exact not_spaces_of_word hword
  | blank c =>
    obtain ⟨x, f, -, -, hword⟩ := BlankLine.word_eq h
    exact not_spaces_of_word hword
  | halt q =>
    obtain ⟨r, s, hword, -⟩ := StateLine.word_eq isWord_haltKeyword h
    exact not_spaces_of_word hword

/-- Recognising a line is the grammar, and no line has two meanings. -/
theorem ofLine?_eq_some_iff_spells (l : Text) :
    (∀ s, ofLine? l = some s ↔ Spells l s) ∧ (ofLine? l = none ↔ ∀ s, ¬Spells l s) ∧
      ∀ s s', Spells l s → Spells l s' → s = s' := by
  have hsome : ∀ s, ofLine? l = some s ↔ Spells l s := by
    intro s
    exact ⟨spells_of_ofLine?, ofLine?_of_spells⟩
  refine ⟨hsome, ?_, ?_⟩
  · rw [Option.eq_none_iff_forall_ne_some]
    exact forall_congr' fun s => not_congr (hsome s)
  · intro s s' h h'
    exact eq_of_spells h h'

end Statement
end SingleTape
