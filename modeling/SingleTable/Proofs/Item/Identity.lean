import SingleTable.Proofs.Index.Legible
import SingleTable.Proofs.Item.Resolve

/-! The primary key identifies an item, as far as its values are legible.

Every key of a stored item is composed of all its facets, so items with the same
key have the same values for them, unless a value reads like the segments of
others. In the primary index this says that one item does not overwrite another. -/
namespace SingleTable

namespace Entity

/-! ### Values of their kinds -/

/-- The values that attributes have are of the kinds of these. -/
def Typed (e : Entity) (values : Facets) : Prop :=
  ∀ name value a, values.value? name = some value → e.attributes.get? name = some a → a.kind.refusal? value = none

variable {e : Entity}

theorem Fits.typed {values : Facets} (h : e.Fits values) : e.Typed values := by
  intro name value a hvalue ha
  obtain ⟨b, hb, hkind⟩ := h name value (Facets.value?_eq_some_iff.mp hvalue).1
  obtain rfl := Option.some.inj (ha.symm.trans hb)
  exact hkind

/-- Nothing is found wrong with the entries of some facets exactly when they are of their kinds. -/
theorem findSome?_entryFault?_eq_none_iff {facets : Facets} :
    facets.entries.findSome? e.entryFault? = none ↔ e.Typed facets := by
  rw [List.findSome?_eq_none_iff]
  constructor
  · intro h name value a hvalue ha
    obtain ⟨hget, hnull⟩ := Facets.value?_eq_some_iff.mp hvalue
    have hentry := h (name, value) (Dict.mem_entries_iff.mpr hget)
    simpa [entryFault?, Attribute.isNull_eq_false hnull, ha] using hentry
  · intro h entry hentry
    unfold entryFault?
    split
    · rfl
    · next hnull =>
      have hvalue : facets.value? entry.1 = some entry.2 := by
        rw [Facets.value?, Dict.mem_entries_iff.mp hentry]
        simp [hnull]
      cases ha : e.attributes.get? entry.1 with
      | none => rfl
      | some a => rw [Option.bind_some, h _ _ _ hvalue ha, Option.map_none]

/-- **What a caller supplies is accepted exactly when it is facets whose values are of the kinds that
are asked for.** -/
theorem facets_ok_iff {input : Json} {facets : Facets} :
    e.facets input = .ok facets ↔ Facets.ofJson input = .ok facets ∧ e.Typed facets := by
  unfold Entity.facets
  cases Facets.ofJson input with
  | error fault => exact ⟨(nomatch ·), fun h => nomatch h.1⟩
  | ok given =>
    simp only
    cases hfault : given.entries.findSome? e.entryFault? with
    | some fault =>
      refine ⟨(nomatch ·), fun ⟨hgiven, htyped⟩ => ?_⟩
      obtain rfl := Except.ok.inj hgiven
      rw [findSome?_entryFault?_eq_none_iff.mpr htyped] at hfault
      exact nomatch hfault
    | none =>
      refine ⟨fun h => ?_, And.left⟩
      obtain rfl := Except.ok.inj h
      exact ⟨rfl, findSome?_entryFault?_eq_none_iff.mp hfault⟩

/-- A facet's values with one text are the same value. -/
theorem Accepted.eq_of_keyText (h : e.Accepted) {i : Index} (hi : i ∈ e.registry.indexes) {a b : Facets}
    (ha : e.Typed a) (hb : e.Typed b) {name : String} (hname : name ∈ i.facetNames) {x y : Json}
    (hx : a.value? name = some x) (hy : b.value? name = some y) (htext : x.keyText = y.keyText) : x = y := by
  obtain ⟨declared, hdeclared⟩ := h.facet i hi name hname
  exact Kind.eq_of_keyText (ha name x declared hx hdeclared) (hb name y declared hy hdeclared) htext

/-! ### Items with one key -/

theorem Accepted.fits_of_put (h : e.Accepted) {input : Json} {p : Put} (hput : e.put input = .ok p) :
    e.Fits p.attributes := by
  obtain ⟨⟨supplied, -, hresolve⟩, -, -⟩ := put_ok hput
  exact (h.resolved_of_resolveAll hresolve).fits

/-- A key of a stored item is the one that its attributes compose. -/
theorem Accepted.get?_key_of_put (h : e.Accepted) {input : Json} {p : Put} (hput : e.put input = .ok p) {i : Index}
    (hi : i ∈ e.registry.indexes) {key : String × KeyField} (hkey : key ∈ e.registry.scopedKeys i) :
    p.item.get? key.2.field = some (.string (composeKey key.1 key.2.facets p.attributes)) := by
  obtain ⟨-, -, hitem⟩ := put_ok hput
  rw [hitem]
  exact h.item_key p.attributes hi hkey

/-- **Items with one key have the same values for its facets**, if these are legible. -/
theorem Accepted.eq_of_key (h : e.Accepted) {input input' : Json} {p p' : Put} (hput : e.put input = .ok p)
    (hput' : e.put input' = .ok p') {i : Index} (hi : i ∈ e.registry.indexes) {key : KeyField}
    (hkey : key ∈ i.keyFields) (hlegible : p.attributes.Legible key.facets)
    (hlegible' : p'.attributes.Legible key.facets) (hsame : p.item.get? key.field = p'.item.get? key.field) :
    ∀ name ∈ key.facets, p.attributes.get? name = p'.attributes.get? name := by
  obtain ⟨scope, hscoped⟩ := e.registry.exists_scoped hkey
  obtain ⟨-, hhas, -⟩ := put_ok hput
  obtain ⟨-, hhas', -⟩ := put_ok hput'
  have hfits := h.fits_of_put hput
  have hfits' := h.fits_of_put hput'
  have hfacet (name : String) (hname : name ∈ key.facets) : name ∈ i.facetNames :=
    Registry.mem_facetNames_of_keyField hkey hname
  have hcomposed : composeKey scope key.facets p.attributes = composeKey scope key.facets p'.attributes := by
    rw [h.get?_key_of_put hput hi hscoped, h.get?_key_of_put hput' hi hscoped] at hsame
    exact Json.string.inj (Option.some.inj hsame)
  intro name hname
  rw [← hfits.value?_eq, ← hfits'.value?_eq]
  exact eq_of_composeKey (fun n hn => hhas i hi n (hfacet n hn)) (fun n hn => hhas' i hi n (hfacet n hn)) hlegible
    hlegible' (fun n hn x y => h.eq_of_keyText hi hfits.typed hfits'.typed (hfacet n hn)) hcomposed name hname

/-- **Items that differ in a facet of the primary index differ in the key it goes into**, if the
facets of that key are legible in both. -/
theorem primary_key_identifies {s : Schema} {e : Entity} (he : ofSchema s = .ok e) {input input' : Json}
    {p p' : Put} (hput : e.put input = .ok p) (hput' : e.put input' = .ok p') {key : KeyField}
    (hkey : key ∈ e.registry.primary.keyFields) {name : String} (hname : name ∈ key.facets)
    (hlegible : p.attributes.Legible key.facets) (hlegible' : p'.attributes.Legible key.facets)
    (hdiffer : p.attributes.get? name ≠ p'.attributes.get? name) :
    p.item.get? key.field ≠ p'.item.get? key.field := by
  have hacc := accepted_of_ofSchema he
  exact fun hsame => hdiffer (hacc.eq_of_key hput hput' hacc.primary hkey hlegible hlegible' hsame name hname)

end Entity

/-! ### Pairs -/

/-- Items whose sort key is composed of two strings. -/
def pairs : Schema where
  service := "s"
  entity := "pair"
  table := "t"
  version := "1"
  attributes := .ofList
    [("id", ⟨none, none, none, false, false, .scalar .string⟩),
      ("a", ⟨none, none, none, false, false, .scalar .string⟩),
      ("b", ⟨none, none, none, false, false, .scalar .string⟩)]
  indexes := .ofList [("pair", ⟨none, ⟨"pk", ["id"]⟩, some ⟨"sk", ["a", "b"]⟩⟩)]
  filters := .empty

def pair (a b : String) : Json := .object [("id", .string "1"), ("a", .string a), ("b", .string b)]

/-- The theorem for values that hold the character of the marks, but no mark. -/
theorem Entity.primary_key_identifies_pair : ∃ e p p', ofSchema pairs = .ok e ∧ e.put (pair "x#b" "_z") = .ok p ∧
    e.put (pair "x" "#b_z") = .ok p' ∧ p.item.get? "sk" ≠ p'.item.get? "sk" := by
  refine ⟨_, _, _, rfl, rfl, rfl, ?_⟩
  exact @primary_key_identifies pairs _ rfl (pair "x#b" "_z") (pair "x" "#b_z") _ _ rfl rfl ⟨"sk", ["a", "b"]⟩
    (List.mem_cons_of_mem _ (List.mem_singleton_self _)) "a" (List.mem_cons_self ..) (by decide) (by decide) (by decide)

/-- A value that holds the mark of the next facet reads like the segment of that facet: these items
differ in two facets and have one key. -/
theorem Entity.primary_key_shared : ∃ e p p', ofSchema pairs = .ok e ∧ e.put (pair "x#b_y" "z") = .ok p ∧
    e.put (pair "x" "y#b_z") = .ok p' ∧
    (∃ name ∈ e.registry.primary.facetNames, p.attributes.get? name ≠ p'.attributes.get? name) ∧
    ∀ key ∈ e.registry.primary.keyFields, p.item.get? key.field = p'.item.get? key.field := by
  refine ⟨_, _, _, rfl, rfl, rfl, ⟨"a", List.mem_cons_of_mem _ (List.mem_cons_self ..), by decide⟩, ?_⟩
  intro key hkey
  rcases List.mem_pair.mp hkey with rfl | rfl <;> decide

end SingleTable
