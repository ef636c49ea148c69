import SingleTable.Proofs.Binding.Fresh
import SingleTable.Proofs.Condition.Tests

/-! What stays of bindings, and what their placeholders resolve to.

Binding adds to the maps of a request and changes nothing that they have. A
written test stands for the test of a condition if its placeholders resolve to
the field and the operands of that test; it goes on standing for it however the
maps are extended. -/
namespace SingleTable

/-! ### Extended maps -/

/-- Whatever the first map has, the second has too. -/
def Dict.Extends {α : Type} (d e : Dict α) : Prop :=
  ∀ key value, d.get? key = some value → e.get? key = some value

namespace Dict.Extends
variable {α : Type} {d e f : Dict α}

theorem refl (d : Dict α) : d.Extends d := fun _ _ h => h

theorem trans (h : d.Extends e) (h' : e.Extends f) : d.Extends f :=
  fun key value hget => h' key value (h key value hget)

/-- A new name takes nothing away. -/
theorem insert {key : String} (h : key ∉ d.keys) (value : α) : d.Extends (d.insert key value) := by
  intro other v hget
  have hne : key ≠ other := by
    rintro rfl
    rw [Dict.get?_eq_none_iff.mpr h] at hget
    exact absurd hget (by simp)
  rw [Dict.get?_insert, if_neg hne, hget]

theorem insertNew (d : Dict α) (key : String) (value : α) : d.Extends (d.insertNew key value) := by
  intro other v hget
  have hkeep : ¬(key = other ∧ key ∉ d.keys) := by
    rintro ⟨rfl, hkey⟩
    rw [Dict.get?_eq_none_iff.mpr hkey] at hget
    exact absurd hget (by simp)
  rw [Dict.get?_insertNew, if_neg hkeep, hget]

end Dict.Extends

/-! ### Related lists -/

section Related
variable {α β : Type} {r : α → β → Prop} {xs : List α} {ys : List β}

/-- Related lists have related elements at every place. -/
theorem exists_getElem?_of_forall₂ (h : List.Forall₂ r xs ys) {n : Nat} {x : α} (hx : xs[n]? = some x) :
    ∃ y, ys[n]? = some y ∧ r x y := by
  obtain ⟨hlt, rfl⟩ := List.getElem?_eq_some_iff.mp hx
  have hlt' : n < ys.length := by rwa [← h.length_eq]
  exact ⟨ys[n], List.getElem?_eq_getElem hlt', h.get hlt hlt'⟩

theorem exists_mem_of_forall₂ (h : List.Forall₂ r xs ys) {x : α} (hx : x ∈ xs) : ∃ y ∈ ys, r x y := by
  obtain ⟨n, hn⟩ := List.getElem?_of_mem hx
  obtain ⟨y, hy, hr⟩ := exists_getElem?_of_forall₂ h hn
  exact ⟨y, List.mem_of_getElem? hy, hr⟩

end Related

/-! ### Tests and what they stand for -/

/-- The placeholders of a written test resolve to the field and the operands of a test. -/
structure Phrase.Test.StandsFor (surface : Surface) (names : Dict String) (values : Dict Json)
    (t : Phrase.Test) (c : Condition.Test) : Prop where
  operator : t.operator = c.operator
  field : ∃ field, surface.field c.name = .ok field ∧ names.get? t.name = some field
  operands : List.Forall₂ (fun placeholder operand => values.get? placeholder = some operand)
    t.values c.operands

theorem Phrase.Test.StandsFor.extend {surface : Surface} {names names' : Dict String}
    {values values' : Dict Json} {t : Phrase.Test} {c : Condition.Test}
    (h : t.StandsFor surface names values c) (hnames : names.Extends names')
    (hvalues : values.Extends values') : t.StandsFor surface names' values' c := by
  obtain ⟨hoperator, ⟨field, hfield, hname⟩, hoperands⟩ := h
  refine ⟨hoperator, ⟨field, hfield, hnames _ _ hname⟩, ?_⟩
  exact hoperands.imp fun placeholder operand => hvalues placeholder operand

/-- The placeholders of a written test are made from the name of its attribute. -/
structure Phrase.Test.Writes (t : Phrase.Test) (c : Condition.Test) : Prop where
  arity : t.values.length = t.operator.arity
  name : t.name = Placeholder.ofName c.name
  values : ∀ value ∈ t.values, ∃ n, value = Bindings.numbered c.name n

def Phrase.placeholders (tests : List Phrase.Test) : List String := tests.flatMap Phrase.Test.values

namespace Bindings

/-- Every name placeholder in use is the one of an attribute, bound to its field. -/
def Named (surface : Surface) (b : Bindings) : Prop :=
  ∀ placeholder field, b.names.get? placeholder = some field →
    ∃ name, placeholder = Placeholder.ofName name ∧ surface.field name = .ok field

/-- Bindings that go on from `b` with some written tests, which stand for the given ones. -/
structure Extends (surface : Surface) (written : List Phrase.Test) (tests : List Condition.Test)
    (b b' : Bindings) : Prop where
  named : b'.Named surface
  names : b.names.Extends b'.names
  values : b.values.Extends b'.values
  bound : ∀ placeholder ∈ b'.names.keys, placeholder ∈ b.names.keys ∨ placeholder ∈ written.map Phrase.Test.name
  keys : b'.values.keys = b.values.keys ++ Phrase.placeholders written
  stands : List.Forall₂ (Phrase.Test.StandsFor surface b'.names b'.values) written tests
  writes : List.Forall₂ Phrase.Test.Writes written tests

variable {surface : Surface}

theorem named_empty (surface : Surface) : empty.Named surface := fun _ _ h => absurd h (by simp [empty])

theorem Extends.refl {b : Bindings} (h : b.Named surface) : Extends surface [] [] b b :=
  ⟨h, .refl _, .refl _, fun _ hmem => .inl hmem, by simp [Phrase.placeholders], .nil, .nil⟩

/-- One after another. -/
theorem Extends.trans {ws ws' : List Phrase.Test} {ts ts' : List Condition.Test} {a b c : Bindings}
    (h : Extends surface ws ts a b) (h' : Extends surface ws' ts' b c) :
    Extends surface (ws ++ ws') (ts ++ ts') a c := by
  refine ⟨h'.named, h.names.trans h'.names, h.values.trans h'.values, fun placeholder hmem => ?_, ?_, ?_, ?_⟩
  · rw [List.map_append, List.mem_append, ← or_assoc]
    exact (h'.bound placeholder hmem).imp_left (h.bound placeholder)
  · rw [h'.keys, h.keys, Phrase.placeholders, Phrase.placeholders, Phrase.placeholders,
      List.flatMap_append, List.append_assoc]
  · have hstands := h.stands.imp fun w t hw => hw.extend h'.names h'.values
    exact List.rel_append hstands h'.stands
  · exact List.rel_append h.writes h'.writes

/-! ### One test -/

theorem ofName_inj {a b : String} (h : Placeholder.ofName a = Placeholder.ofName b) : a = b :=
  (String.append_right_inj _).mp h

theorem names_bindName {b : Bindings} {name field : String} (hb : b.Named surface)
    (hfield : surface.field name = .ok field) :
    (b.bindName name field).names.get? (Placeholder.ofName name) = some field := by
  unfold bindName
  rw [Dict.get?_insertNew]
  split
  · rfl
  · next h =>
    have hmem : Placeholder.ofName name ∈ b.names.keys := by
      by_contra hn
      exact h ⟨rfl, hn⟩
    obtain ⟨f, hf⟩ : ∃ f, b.names.get? (Placeholder.ofName name) = some f := by
      rw [← Option.isSome_iff_exists, ← Dict.contains, Dict.contains_iff]
      exact hmem
    obtain ⟨other, hother, hof⟩ := hb _ _ hf
    rw [← ofName_inj hother, hfield] at hof
    rw [hf, Except.ok.inj hof]

theorem named_bindName {b : Bindings} {name field : String} (hb : b.Named surface)
    (hfield : surface.field name = .ok field) : (b.bindName name field).Named surface := by
  intro placeholder f hf
  unfold bindName at hf
  rw [Dict.get?_insertNew] at hf
  split at hf
  · next h => exact ⟨name, h.1.symm, by rw [hfield, Option.some.inj hf]⟩
  · exact hb placeholder f hf

/-- All operands of a test are bound, each under a placeholder of its own. -/
theorem mintAll_spec {name : String} {operands : List Json} {b b' : Bindings} {placeholders : List String}
    (h : b.mintAll name operands = (placeholders, b')) :
    b'.names = b.names ∧ b.values.Extends b'.values ∧ b'.values.keys = b.values.keys ++ placeholders ∧
      List.Forall₂ (fun placeholder operand => b'.values.get? placeholder = some operand)
        placeholders operands ∧
      ∀ placeholder ∈ placeholders, ∃ n, placeholder = numbered name n := by
  induction operands generalizing b placeholders with
  | nil =>
    obtain ⟨rfl, rfl⟩ := Prod.mk.inj h
    exact ⟨rfl, .refl _, by simp, .nil, by simp⟩
  | cons operand rest ih =>
    rw [mintAll] at h
    obtain ⟨first, b₁, hfirst⟩ : ∃ first b₁, b.mint name operand = (first, b₁) := ⟨_, _, rfl⟩
    obtain ⟨others, b₂, hothers⟩ : ∃ others b₂, b₁.mintAll name rest = (others, b₂) := ⟨_, _, rfl⟩
    rw [hfirst] at h
    simp only [hothers] at h
    obtain ⟨rfl, rfl⟩ := Prod.mk.inj h
    obtain ⟨hnumber, hnew, hnames, hvalues⟩ := mint_spec hfirst
    obtain ⟨hnames', hextends, hkeys, hresolve, hnumbers⟩ := ih hothers
    have hinsert : b.values.Extends b₁.values := by
      rw [hvalues]
      exact .insert hnew operand
    refine ⟨hnames'.trans hnames, hinsert.trans hextends, ?_, .cons ?_ hresolve, ?_⟩
    · rw [hkeys, hvalues, Dict.keys_insert, if_neg hnew, List.append_assoc]
      rfl
    · refine hextends _ _ ?_
      rw [hvalues, Dict.get?_insert_self]
    · intro placeholder hmem
      rcases List.mem_cons.mp hmem with rfl | hmem
      · exact hnumber
      · exact hnumbers placeholder hmem

/-- **A test is written so that it stands for itself.** -/
theorem extends_test {b b' : Bindings} {name field : String} {operator : Operator} {operands : List Json}
    {placeholders : List String} (hb : b.Named surface) (hfield : surface.field name = .ok field)
    (harity : operands.length = operator.arity)
    (h : (b.bindName name field).mintAll name operands = (placeholders, b')) :
    Extends surface [⟨operator, Placeholder.ofName name, placeholders⟩] [⟨name, operator, operands⟩] b b' := by
  obtain ⟨hnames, hvalues, hkeys, hresolve, hnumbers⟩ := mintAll_spec h
  have hname := names_bindName hb hfield
  rw [← hnames] at hname
  refine ⟨?_, ?_, hvalues, fun placeholder hmem => ?_, by simp [hkeys, Phrase.placeholders, bindName], ?_, ?_⟩
  · have hnamed := named_bindName hb hfield
    unfold Named at hnamed ⊢
    rwa [hnames]
  · rw [hnames]
    exact .insertNew _ _ _
  · rw [hnames] at hmem
    exact (Dict.mem_keys_insertNew.mp hmem).imp_right List.mem_singleton.mpr
  · exact .cons ⟨rfl, ⟨field, hfield, hname⟩, hresolve⟩ .nil
  · exact .cons ⟨by rw [hresolve.length_eq, harity], rfl, hnumbers⟩ .nil

end Bindings

end SingleTable
