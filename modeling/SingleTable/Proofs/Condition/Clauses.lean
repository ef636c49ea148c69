import SingleTable.Proofs.Binding.Join
import SingleTable.Proofs.Condition.Precedence
import SingleTable.Proofs.Expression.Inventory

/-! The text of clauses.

Clauses never have an empty chain, and for attributes with proper names they are
spelled: the placeholders in their text are those of the tests that they make. -/
namespace SingleTable

open Grammar

namespace Phrase

theorem allLinked_append {xs ys : List Phrase} : AllLinked (xs ++ ys) ↔ AllLinked xs ∧ AllLinked ys := by
  induction xs with
  | nil => simp [AllLinked]
  | cons x rest ih => simp [AllLinked, ih, and_assoc]

theorem allLinked_map_parens {parts : List Phrase} : AllLinked (parts.map .parens) ↔ AllLinked parts := by
  induction parts with
  | nil => rfl
  | cons part rest ih => rw [List.map_cons, AllLinked, AllLinked, Linked, ih]

end Phrase

namespace Clauses

variable {surface : Surface} {c c' : Clauses}

/-- One more condition has a phrase without an empty chain, or none. -/
theorem linked_apply {condition : Condition} (h : c.apply surface condition = .ok c')
    (hlinked : Phrase.AllLinked c.phrases) : Phrase.AllLinked c'.phrases := by
  obtain ⟨phrase, hcompile, hphrases⟩ := apply_ok h
  rw [hphrases, Phrase.allLinked_append]
  refine ⟨hlinked, ?_⟩
  cases phrase with
  | none => trivial
  | some p => exact ⟨(condition.compile_outlines _ _ _ hcompile).linked p rfl, trivial⟩

theorem linked_phrase? (hlinked : Phrase.AllLinked c.phrases) {p : Phrase} (hp : c.phrase? = some p) : p.Linked := by
  unfold phrase? at hp
  split at hp
  · exact nomatch hp
  · next phrase h =>
    obtain rfl := Option.some.inj hp
    rw [h] at hlinked
    exact hlinked.1
  · next phrases hne _ =>
    obtain rfl := Option.some.inj hp
    refine ⟨fun hnil => ?_, Phrase.allLinked_map_parens.mpr hlinked⟩
    exact hne (List.map_eq_nil_iff.mp hnil)

/-- Apply conditions one after another; the first that fails is the last. -/
def applyAll (c : Clauses) (surface : Surface) : List Condition → Except Fault Clauses
  | [] => .ok c
  | condition :: rest =>
    match c.apply surface condition with
    | .error fault => .error fault
    | .ok c => c.applyAll surface rest

theorem applyAll_cons_ok {condition : Condition} {rest : List Condition}
    (h : c.applyAll surface (condition :: rest) = .ok c') :
    ∃ next, c.apply surface condition = .ok next ∧ next.applyAll surface rest = .ok c' := by
  rw [applyAll] at h
  split at h
  · exact nomatch h
  · next next hnext => exact ⟨next, hnext, h⟩

theorem applyAll_append (c : Clauses) (surface : Surface) (before after : List Condition) :
    c.applyAll surface (before ++ after) =
      match c.applyAll surface before with
      | .error fault => .error fault
      | .ok c => c.applyAll surface after := by
  induction before generalizing c with
  | nil => rfl
  | cons condition rest ih =>
    rw [List.cons_append, applyAll, applyAll]
    cases c.apply surface condition with
    | error fault => rfl
    | ok next => exact ih next

/-- Conditions that are applied together are applied one part after the other. -/
theorem applyAll_split {before after : List Condition} (h : c.applyAll surface (before ++ after) = .ok c') :
    ∃ c₁, c.applyAll surface before = .ok c₁ ∧ c₁.applyAll surface after = .ok c' := by
  rw [applyAll_append] at h
  split at h
  · exact nomatch h
  · next c₁ hbefore => exact ⟨c₁, hbefore, h⟩

theorem Of.applyAll {before conditions : List Condition} (h : Of surface before c)
    (happly : c.applyAll surface conditions = .ok c') : Of surface (before ++ conditions) c' := by
  induction conditions generalizing c before with
  | nil =>
    obtain rfl := Except.ok.inj happly
    rwa [List.append_nil]
  | cons condition rest ih =>
    obtain ⟨next, hnext, hothers⟩ := applyAll_cons_ok happly
    have hrest := ih (h.apply hnext) hothers
    rwa [List.append_assoc] at hrest

theorem linked_applyAll {conditions : List Condition} (h : c.applyAll surface conditions = .ok c')
    (hlinked : Phrase.AllLinked c.phrases) : Phrase.AllLinked c'.phrases := by
  induction conditions generalizing c with
  | nil =>
    obtain rfl := Except.ok.inj h
    exact hlinked
  | cons condition rest ih =>
    obtain ⟨next, hnext, hrest⟩ := applyAll_cons_ok h
    exact ih hrest (linked_apply hnext hlinked)

/-- What clauses write for attributes with proper names is spelled. -/
theorem Of.spelled {conditions : List Condition} (h : Of surface conditions c) (hnames : ∀ name ∈ surface.names, IsName name) :
    ∀ t ∈ Phrase.testsOf c.phrases, t.Spelled := by
  intro t ht
  obtain ⟨n, hn⟩ := List.getElem?_of_mem ht
  obtain ⟨test, htest, hwrites⟩ := exists_getElem?_of_forall₂ h.writes hn
  obtain ⟨other, hother, hstands⟩ := exists_getElem?_of_forall₂ h.stands hn
  obtain rfl := Option.some.inj (htest.symm.trans hother)
  obtain ⟨field, hfield, -⟩ := hstands.field
  obtain ⟨a, ha, -⟩ := Surface.field_ok hfield
  refine Condition.spelled_of_writes hwrites (hnames test.name ?_)
  exact Dict.contains_iff.mp (Option.isSome_iff_exists.mpr ⟨a, ha⟩)

theorem Of.spelled_phrase? {conditions : List Condition} (h : Of surface conditions c)
    (hnames : ∀ name ∈ surface.names, IsName name) (hlinked : Phrase.AllLinked c.phrases) {p : Phrase}
    (hp : c.phrase? = some p) : p.Spelled := by
  have htests : p.tests = Phrase.testsOf c.phrases := by
    rw [← testsOf_phrase?, hp, Option.toList_some, Phrase.testsOf, Phrase.testsOf, List.append_nil]
  refine Phrase.spelled_of_linked p (linked_phrase? hlinked hp) fun t ht => ?_
  rw [htests] at ht
  exact h.spelled hnames t ht

/-- **The placeholders in the text of clauses are those of their tests.** -/
theorem Of.lists {conditions : List Condition} (h : Of surface conditions c)
    (hnames : ∀ name ∈ surface.names, IsName name) (hlinked : Phrase.AllLinked c.phrases) :
    Phrase.Lists (c.phrase?.toList.flatMap fun p => Grammar.tokens p.text.toList) (Phrase.testsOf c.phrases) := by
  rw [← testsOf_phrase?]
  cases hphrase : c.phrase? with
  | none => exact ⟨rfl, rfl⟩
  | some p =>
    rw [Option.toList_some, List.flatMap_singleton, Phrase.testsOf, Phrase.testsOf, List.append_nil]
    have hspelled := h.spelled_phrase? hnames hlinked hphrase
    rw [Phrase.tokens_text p hspelled]
    exact p.lists hspelled

end Clauses

end SingleTable
