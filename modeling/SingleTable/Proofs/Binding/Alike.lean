import SingleTable.Store.Call

/-! Placeholders do not depend on what they are bound to.

Two maps are told apart here by their names only. A placeholder is chosen by which names are in use
and by their number, so on maps with the same names the same one is chosen, whatever values are bound:
`mintAll_alike` says so of the operands of a test, `bindValue_alike` of the values of a request and
`Expressions.join_alike` of the maps that are joined in the end. -/
namespace SingleTable

/-! ### Maps with the same names -/

namespace Dict

variable {α β : Type}

theorem size_eq (d : Dict α) : d.size = d.keys.length := (List.length_map Prod.fst).symm

theorem size_congr {d : Dict α} {e : Dict β} (h : d.keys = e.keys) : d.size = e.size := by
  rw [size_eq, size_eq, h]

theorem isEmpty_congr {d : Dict α} {e : Dict β} (h : d.keys = e.keys) : d.isEmpty = e.isEmpty := by
  have hkeys (γ : Type) (d : Dict γ) : d.isEmpty = d.keys.isEmpty := List.isEmpty_map.symm
  rw [hkeys, hkeys, h]

theorem contains_congr {d : Dict α} {e : Dict β} (h : d.keys = e.keys) (key : String) :
    d.contains key = e.contains key := by
  rw [Bool.eq_iff_iff, contains_iff, contains_iff, h]

theorem keys_insert_congr {d : Dict α} {e : Dict β} (h : d.keys = e.keys) (key : String) (a : α) (b : β) :
    (d.insert key a).keys = (e.insert key b).keys := by
  rw [keys_insert, keys_insert, h]

theorem keys_insertNew_congr {d : Dict α} {e : Dict β} (h : d.keys = e.keys) (key : String) (a : α) (b : β) :
    (d.insertNew key a).keys = (e.insertNew key b).keys := by
  unfold insertNew
  rw [contains_congr h]
  split
  · exact h
  · exact keys_insert_congr h key a b

theorem keys_extend_congr {d d' : Dict α} {e e' : Dict β} (h : d.keys = e.keys) (h' : d'.keys = e'.keys) :
    (d.extend d').keys = (e.extend e').keys := by
  have hgo (pairs : List (String × α)) (pairs' : List (String × β)) (hpairs : Assoc.keys pairs = Assoc.keys pairs')
      {d : Dict α} {e : Dict β} (h : d.keys = e.keys) :
      (pairs.foldl (fun acc pair => acc.insertNew pair.1 pair.2) d).keys =
        (pairs'.foldl (fun acc pair => acc.insertNew pair.1 pair.2) e).keys := by
    induction pairs generalizing pairs' d e with
    | nil =>
      obtain rfl := List.map_eq_nil_iff.mp hpairs.symm
      exact h
    | cons pair rest ih =>
      cases pairs' with
      | nil => exact nomatch hpairs
      | cons pair' rest' =>
        obtain ⟨hname, hrest⟩ := List.cons.inj hpairs
        rw [List.foldl_cons, List.foldl_cons]
        refine ih rest' hrest ?_
        rw [hname]
        exact keys_insertNew_congr h _ _ _
  exact hgo _ _ h' h

end Dict

/-! ### Values of a request -/

/-- **The placeholder of a value is chosen without looking at any value.** -/
theorem Placeholder.bindValue_alike {values values' taken taken' : Dict Json} (hvalues : values.keys = values'.keys)
    (htaken : taken.keys = taken'.keys) (base : String) (value value' : Json) :
    (bindValue values taken base value).1 = (bindValue values' taken' base value').1 ∧
      (bindValue values taken base value).2.keys = (bindValue values' taken' base value').2.keys := by
  have hfree : freeValue values taken = freeValue values' taken' := by
    funext placeholder
    rw [freeValue, freeValue, Dict.contains_congr hvalues, Dict.contains_congr htaken]
  unfold bindValue
  rw [hfree, Dict.size_congr hvalues, Dict.size_congr htaken]
  exact ⟨rfl, Dict.keys_insert_congr hvalues _ _ _⟩

/-! ### Bindings -/

namespace Bindings

/-- Bindings that differ in nothing but the values that placeholders are bound to. -/
structure Alike (b b' : Bindings) : Prop where
  names : b.names = b'.names
  values : b.values.keys = b'.values.keys
  counts : b.counts = b'.counts

namespace Alike

variable {b b' b'' : Bindings}

theorem refl (b : Bindings) : b.Alike b := ⟨rfl, rfl, rfl⟩

theorem symm (h : b.Alike b') : b'.Alike b := ⟨h.names.symm, h.values.symm, h.counts.symm⟩

theorem trans (h : b.Alike b') (h' : b'.Alike b'') : b.Alike b'' :=
  ⟨h.names.trans h'.names, h.values.trans h'.values, h.counts.trans h'.counts⟩

theorem bindName (h : b.Alike b') (name field : String) : (b.bindName name field).Alike (b'.bindName name field) :=
  ⟨congrArg (Dict.insertNew · _ _) h.names, h.values, h.counts⟩

/-- The number of an operand is chosen without looking at any operand. -/
theorem mint (h : b.Alike b') (name : String) (operand operand' : Json) :
    (b.mint name operand).1 = (b'.mint name operand').1 ∧
      (b.mint name operand).2.Alike (b'.mint name operand').2 := by
  have hfree : (fun n => !b.values.contains (numbered name n)) = fun n => !b'.values.contains (numbered name n) := by
    funext n
    rw [Dict.contains_congr h.values]
  unfold Bindings.mint count
  rw [hfree, Dict.size_congr h.values, h.counts]
  exact ⟨rfl, h.names, Dict.keys_insert_congr h.values _ _ _, rfl⟩

/-- **Operands get the same placeholders as as many others.** -/
theorem mintAll (h : b.Alike b') (name : String) {operands operands' : List Json}
    (hlength : operands.length = operands'.length) :
    (b.mintAll name operands).1 = (b'.mintAll name operands').1 ∧
      (b.mintAll name operands).2.Alike (b'.mintAll name operands').2 := by
  induction operands generalizing operands' b b' with
  | nil =>
    obtain rfl := List.length_eq_zero_iff.mp hlength.symm
    exact ⟨rfl, h⟩
  | cons operand rest ih =>
    cases operands' with
    | nil => exact nomatch hlength
    | cons operand' rest' =>
      obtain ⟨hplaceholder, hnext⟩ := h.mint name operand operand'
      obtain ⟨hothers, hlast⟩ := ih hnext (Nat.succ.inj hlength)
      exact ⟨List.cons_eq_cons.mpr ⟨hplaceholder, hothers⟩, hlast⟩

end Alike

end Bindings

/-! ### Clauses -/

/-- Clauses that differ in nothing but the values of their operands. -/
structure Clauses.Alike (c c' : Clauses) : Prop where
  bindings : c.bindings.Alike c'.bindings
  phrases : c.phrases = c'.phrases

theorem Clauses.Alike.refl (c : Clauses) : c.Alike c := ⟨.refl _, rfl⟩

/-- **Joined maps have the same names if those have that are joined.** -/
theorem Expressions.join_alike {c c' : Clauses} (h : c.Alike c') (names : Dict String) {values values' : Dict Json}
    (hvalues : values.keys = values'.keys) :
    (join names values c).condition = (join names values' c').condition ∧
      (join names values c).names = (join names values' c').names ∧
      (join names values c).values.keys = (join names values' c').values.keys := by
  have hphrase : c.phrase? = c'.phrase? := by rw [Clauses.phrase?, Clauses.phrase?, h.phrases]
  unfold join
  rw [hphrase]
  cases c'.phrase? with
  | none => exact ⟨rfl, rfl, hvalues⟩
  | some phrase =>
    exact ⟨rfl, congrArg names.extend h.bindings.names, Dict.keys_extend_congr hvalues h.bindings.values⟩

end SingleTable
