import SingleTape.Proofs.Source.Reading

/-!
The forms of a line exclude each other, so it makes no difference in which order they are tried.
-/

namespace SingleTape

/-- Trying alternatives in another order finds the same, if no two of them come into question. -/
theorem findSome?_eq_of_perm {α β : Type} {f : α → Option β} {l m : List α} (hperm : l.Perm m)
    (h : l.Pairwise fun a b => f a = none ∨ f b = none) : l.findSome? f = m.findSome? f := by
  induction hperm with
  | nil => rfl
  | cons a _ ih =>
    rw [List.findSome?_cons, List.findSome?_cons, ih (List.pairwise_cons.1 h).2]
  | swap a b l =>
    have hab : f b = none ∨ f a = none := (List.pairwise_cons.1 h).1 a (by simp)
    simp only [List.findSome?_cons]
    rcases hab with hb | ha
    · rw [hb]
    · rw [ha]
  | trans hlm _ ih ih' =>
    have hsymm : ∀ {a b : α}, f a = none ∨ f b = none → f b = none ∨ f a = none := Or.symm
    rw [ih h, ih' ((hlm.pairwise_iff hsymm).1 h)]

namespace Statement

open Text

/-- The kinds of statements, in the order in which their forms are tried. -/
inductive Kind where
  | transition
  | comment
  | final
  | initial
  | blank
  | halt
  deriving DecidableEq

namespace Kind

def all : List Kind := [transition, comment, final, initial, blank, halt]

def form : Kind → Scan Statement
  | transition => scanTransition
  | comment => scanComment
  | final => scanState finalKeyword .final
  | initial => scanState initialKeyword .initial
  | blank => scanBlank
  | halt => scanState haltKeyword .halt

end Kind

def kind : Statement → Kind
  | transition _ _ _ _ _ => .transition
  | comment => .comment
  | final _ => .final
  | initial _ => .initial
  | blank _ => .blank
  | halt _ => .halt

theorem forms_eq_map : forms = Kind.all.map Kind.form := rfl

theorem kind_of_form {k : Kind} {l rest : Text} {s : Statement} (h : k.form l = some (s, rest)) :
    s.kind = k := by
  cases k with
  | transition =>
    obtain ⟨q, a, t, b, m, rfl, -⟩ := transitionLine_of_scan h
    rfl
  | comment =>
    obtain ⟨rfl, -⟩ := commentLine_of_scan h
    rfl
  | final =>
    obtain ⟨q, rfl, -⟩ := stateLine_of_scan isWord_finalKeyword h
    rfl
  | initial =>
    obtain ⟨q, rfl, -⟩ := stateLine_of_scan isWord_initialKeyword h
    rfl
  | blank =>
    obtain ⟨c, rfl, -⟩ := blankLine_of_scan h
    rfl
  | halt =>
    obtain ⟨q, rfl, -⟩ := stateLine_of_scan isWord_haltKeyword h
    rfl

theorem form_mem_forms (k : Kind) : k.form ∈ forms := by
  rw [forms_eq_map]
  exact List.mem_map_of_mem (by cases k <;> decide)

theorem spells_of_kind_form {k : Kind} {l : Text} {x : Statement × Text} (h : k.form l = some x) :
    Spells l x.1 ∧ x.1.kind = k :=
  ⟨spells_of_form (form_mem_forms k) h, kind_of_form h⟩

/-- Forms of different kinds do not fit the same line: what they read off it would be the same
statement. -/
theorem form_eq_none_of_ne {k k' : Kind} (hne : k ≠ k') (l : Text) :
    k.form l = none ∨ k'.form l = none := by
  cases hk : k.form l with
  | none => exact .inl rfl
  | some x =>
    cases hk' : k'.form l with
    | none => exact .inr rfl
    | some y =>
      obtain ⟨hx, hkx⟩ := spells_of_kind_form hk
      obtain ⟨hy, hky⟩ := spells_of_kind_form hk'
      have hsame : x.1 = y.1 := eq_of_spells hx hy
      exact absurd (by rw [← hkx, hsame, hky]) hne

theorem forms_exclusive (l : Text) : forms.Pairwise fun f g => f l = none ∨ g l = none := by
  rw [forms_eq_map, List.pairwise_map]
  have hnodup : Kind.all.Pairwise (· ≠ ·) := by decide
  exact hnodup.imp fun hne => form_eq_none_of_ne hne l

theorem form_eq_none_of_spaces {l : Text} (h : Spaces l) {f : Scan Statement} (hf : f ∈ forms) :
    f l = none := by
  cases hl : f l with
  | none => rfl
  | some x => exact absurd h (not_spaces_of_spells (spells_of_form hf hl))

/-- The statement on a line when the forms are tried in the given order. -/
def ofLineBy? (order : List (Scan Statement)) (line : Text) : Option Statement :=
  order.findSome? fun form => (form line).map Prod.fst

theorem ofLineBy?_forms : ofLineBy? forms = ofLine? := rfl

theorem ofLineBy?_of_perm {order : List (Scan Statement)} (h : order.Perm forms) (l : Text) :
    ofLineBy? order l = ofLine? l := by
  have hexclusive : forms.Pairwise fun f g =>
      (f l).map Prod.fst = none ∨ (g l).map Prod.fst = none := by
    simpa only [Option.map_eq_none_iff] using forms_exclusive l
  rw [← ofLineBy?_forms]
  exact (findSome?_eq_of_perm h.symm hexclusive).symm

end Statement

namespace Draft

open Statement

/-- Reads a line like `readLine`, with the forms tried in the given order. -/
def readLineBy (order : List (Scan Statement)) (d : Draft) (line : Text) : Except Error Draft :=
  if line.all Text.isSpace then .ok d
  else match ofLineBy? order line with
    | some s => d.define s
    | none => .error (.parse .unrecognizedLine 0 ("Unrecognized pattern: " ++ line))

theorem readLineBy_forms : readLineBy forms = readLine := rfl

theorem readLineBy_of_perm {order : List (Scan Statement)} (h : order.Perm forms) (d : Draft)
    (l : Text) : d.readLineBy order l = d.readLine l := by
  rw [← readLineBy_forms, readLineBy, readLineBy, ofLineBy?_of_perm h, ofLineBy?_forms]

end Draft

namespace Statement

open Text

/-- No two forms fit the same line and none fits white space. Hence a line is recognised, and read,
in the same way whatever the order of the forms; what it says is found in each of them. -/
theorem ofLine?_any_order (l : Text) :
    (forms.Pairwise fun f g => f l = none ∨ g l = none) ∧
      (Spaces l → ∀ f ∈ forms, f l = none) ∧
      ∀ order : List (Scan Statement), order.Perm forms →
        ofLineBy? order l = ofLine? l ∧ (∀ s, Spells l s → ofLineBy? order l = some s) ∧
          ∀ d : Draft, d.readLineBy order l = d.readLine l := by
  refine ⟨forms_exclusive l, fun hspaces f hf => form_eq_none_of_spaces hspaces hf, ?_⟩
  intro order horder
  have hsame : ofLineBy? order l = ofLine? l := ofLineBy?_of_perm horder l
  refine ⟨hsame, ?_, fun d => Draft.readLineBy_of_perm horder d l⟩
  intro s hs
  rw [hsame, ofLine?_of_spells hs]

/-- A keyword may be a state, and a comma and the mark of a comment may be symbols. -/
theorem ofLine?_backwards :
    (Spaces " \t" ∧ ∀ f ∈ forms, f " \t" = none) ∧ forms.reverse.Perm forms ∧
      ofLineBy? forms.reverse "FINAL, , -> HALT, %, _" =
        some (.transition "FINAL" (.ofChar ',') "HALT" (.ofChar '%') .stay) := by
  have hspaces : Spaces " \t" := by decide
  have horder : forms.reverse.Perm forms := List.reverse_perm forms
  have hline : ofLine? "FINAL, , -> HALT, %, _" =
      some (.transition "FINAL" (.ofChar ',') "HALT" (.ofChar '%') .stay) := by decide +kernel
  have hsame := ((ofLine?_any_order "FINAL, , -> HALT, %, _").2.2 forms.reverse horder).1
  exact ⟨⟨hspaces, (ofLine?_any_order " \t").2.1 hspaces⟩, horder, hsame.trans hline⟩

end Statement
end SingleTape
