import SingleTable.Query.Params
import SingleTable.Proofs.Binding.Join
import SingleTable.Proofs.Query.Steps

/-! What the placeholders of a query resolve to.

A query binds placeholders for its keys beside those of its filters, and joins
the maps. `params_resolve` says that after any steps every placeholder resolves
to what it was made for: those of the key condition to the fields and the keys of
the index, those of the filters to the fields and the operands of their tests, and
that no two of the values have one placeholder. -/
namespace SingleTable

open Placeholder (bindName bindValue)

/-! ### Key conditions -/

/-- The placeholders of a sort phrase resolve to the sort field and the bounds of a range. -/
inductive SortPhrase.Resolves (names : Dict String) (values : Dict Json) (field : String) :
    SortPhrase → SortRange → Prop where
  | beginsWith {name start bound} : names.get? name = some field →
      values.get? start = some (.string bound) → Resolves names values field (.beginsWith name start) (.beginsWith bound)
  | between {name low high lower upper} : names.get? name = some field →
      values.get? low = some (.string lower) → values.get? high = some (.string upper) →
      Resolves names values field (.between name low high) (.between lower upper)
  | compare {name comparison placeholder bound} : names.get? name = some field →
      values.get? placeholder = some (.string bound) →
      Resolves names values field (.compare name comparison placeholder) (.compare comparison bound)

/-- The placeholders of a key condition resolve to the fields of an index and its keys. -/
structure KeyPhrase.Resolves (names : Dict String) (values : Dict Json) (index : Index)
    (partitionKey : String) (range : SortRange) (k : KeyPhrase) : Prop where
  name : names.get? k.name = some index.partition.field
  value : values.get? k.value = some (.string partitionKey)
  present : k.sort.isSome = index.sort.isSome
  sort : ∀ phrase key, k.sort = some phrase → index.sort = some key →
    phrase.Resolves names values key.field range

theorem SortPhrase.Resolves.extend {names names' : Dict String} {values values' : Dict Json}
    {field : String} {phrase : SortPhrase} {range : SortRange} (h : phrase.Resolves names values field range)
    (hnames : names.Extends names') (hvalues : values.Extends values') :
    phrase.Resolves names' values' field range := by
  cases h with
  | beginsWith hname hbound => exact .beginsWith (hnames _ _ hname) (hvalues _ _ hbound)
  | between hname hlow hhigh => exact .between (hnames _ _ hname) (hvalues _ _ hlow) (hvalues _ _ hhigh)
  | compare hname hbound => exact .compare (hnames _ _ hname) (hvalues _ _ hbound)

theorem KeyPhrase.Resolves.extend {names names' : Dict String} {values values' : Dict Json} {index : Index}
    {partitionKey : String} {range : SortRange} {k : KeyPhrase}
    (h : k.Resolves names values index partitionKey range) (hnames : names.Extends names')
    (hvalues : values.Extends values') : k.Resolves names' values' index partitionKey range :=
  ⟨hnames _ _ h.name, hvalues _ _ h.value, h.present,
    fun phrase key hphrase hkey => (h.sort phrase key hphrase hkey).extend hnames hvalues⟩

def SortPhrase.placeholders : SortPhrase → List String
  | .beginsWith _ start => [start]
  | .between _ low high => [low, high]
  | .compare _ _ bound => [bound]

/-- The value placeholders of a key condition. -/
def KeyPhrase.placeholders (k : KeyPhrase) : List String :=
  k.value :: k.sort.toList.flatMap SortPhrase.placeholders

namespace Query

/-- A range binds its bound, or both; for both it binds a second name of the sort field. -/
theorem rangePhrase_cases {q : Query} {name field : String} {names names' : Dict String}
    {values values' : Dict Json} {phrase : SortPhrase}
    (h : q.rangePhrase name field names values = (phrase, names', values')) :
    (∃ bound placeholder, bindValue values q.clauses.values ":sk1" (.string bound) = (placeholder, values') ∧
      names' = names ∧
      (q.sortRange = .beginsWith bound ∧ phrase = .beginsWith name placeholder ∨
        ∃ comparison, q.sortRange = .compare comparison bound ∧ phrase = .compare name comparison placeholder)) ∨
    ∃ lower upper low high values₁ second, q.sortRange = .between lower upper ∧ phrase = .between name low high ∧
      bindValue values q.clauses.values ":sk1" (.string lower) = (low, values₁) ∧
      bindValue values₁ q.clauses.values ":sk2" (.string upper) = (high, values') ∧
      bindName names q.clauses.names "#sk2" field = (second, names') := by
  unfold rangePhrase at h
  cases hrange : q.sortRange with
  | beginsWith bound =>
    rw [hrange] at h
    obtain ⟨rfl, rfl, rfl⟩ := h
    exact .inl ⟨bound, _, rfl, rfl, .inl ⟨rfl, rfl⟩⟩
  | compare comparison bound =>
    rw [hrange] at h
    obtain ⟨rfl, rfl, rfl⟩ := h
    exact .inl ⟨bound, _, rfl, rfl, .inr ⟨comparison, rfl, rfl⟩⟩
  | between lower upper =>
    rw [hrange] at h
    obtain ⟨rfl, rfl, rfl⟩ := h
    exact .inr ⟨lower, upper, _, _, _, _, rfl, rfl, rfl, rfl, rfl⟩

/-- A sort phrase with its maps, beside those that are taken. -/
theorem rangePhrase_resolves {q : Query} {name field : String} {names names' : Dict String}
    {values values' : Dict Json} {phrase : SortPhrase}
    (h : q.rangePhrase name field names values = (phrase, names', values'))
    (hname : names.get? name = some field) (hagrees : names.Agrees q.clauses.names) :
    phrase.Resolves names' values' field q.sortRange ∧ names.Extends names' ∧
      names'.Agrees q.clauses.names ∧ values.Extends values' ∧
      values'.keys = values.keys ++ phrase.placeholders ∧
      ∀ placeholder ∈ phrase.placeholders, placeholder ∉ q.clauses.values.keys := by
  rcases rangePhrase_cases h with ⟨bound, placeholder, hbind, rfl, hcases⟩ |
    ⟨lower, upper, low, high, values₁, second, hrange, rfl, hlow, hhigh, hsecond⟩
  · obtain ⟨hextends, hget, hkeys, htaken⟩ := bindValue_keys hbind
    have hresolves : phrase.Resolves names' values' field q.sortRange ∧ phrase.placeholders = [placeholder] := by
      rcases hcases with ⟨hrange, rfl⟩ | ⟨comparison, hrange, rfl⟩
      · exact ⟨hrange ▸ .beginsWith hname hget, rfl⟩
      · exact ⟨hrange ▸ .compare hname hget, rfl⟩
    obtain ⟨hresolves, hplaceholders⟩ := hresolves
    rw [hplaceholders]
    refine ⟨hresolves, .refl _, hagrees, hextends, hkeys, fun other hmem => ?_⟩
    rwa [List.mem_singleton.mp hmem]
  · rw [hrange]
    obtain ⟨hextends, hgetlow, hkeys, htaken⟩ := bindValue_keys hlow
    obtain ⟨hextends', hgethigh, hkeys', htaken'⟩ := bindValue_keys hhigh
    obtain ⟨hnames, -, hagrees'⟩ := bindName_agrees hsecond hagrees
    refine ⟨.between (hnames _ _ hname) (hextends' _ _ hgetlow) hgethigh, hnames, hagrees',
      hextends.trans hextends', ?_, fun placeholder hmem => ?_⟩
    · rw [hkeys', hkeys, List.append_assoc]
      rfl
    · rcases List.mem_pair.mp hmem with rfl | rfl
      · exact htaken
      · exact htaken'

/-- The partition key is bound first, then the range on the sort key, if the index has one. -/
theorem keyPhrase_cases {q : Query} {k : KeyPhrase} {names : Dict String} {values : Dict Json}
    (h : q.keyPhrase = (k, names, values)) :
    ∃ name names₁ value values₁,
      bindName .empty q.clauses.names "#pk" q.index.partition.field = (name, names₁) ∧
      bindValue .empty q.clauses.values ":pk" (.string q.partitionKey) = (value, values₁) ∧
      (q.index.sort = none ∧ k = ⟨name, value, none⟩ ∧ names = names₁ ∧ values = values₁ ∨
        ∃ sort sortName names₂ phrase, q.index.sort = some sort ∧ k = ⟨name, value, some phrase⟩ ∧
          bindName names₁ q.clauses.names "#sk1" sort.field = (sortName, names₂) ∧
          q.rangePhrase sortName sort.field names₂ values₁ = (phrase, names, values)) := by
  unfold keyPhrase at h
  refine ⟨_, _, _, _, rfl, rfl, ?_⟩
  cases hsort : q.index.sort with
  | none =>
    rw [hsort] at h
    obtain ⟨rfl, rfl, rfl⟩ := h
    exact .inl ⟨rfl, rfl, rfl, rfl⟩
  | some sort =>
    rw [hsort] at h
    obtain ⟨rfl, rfl, rfl⟩ := h
    exact .inr ⟨sort, _, _, _, rfl, rfl, rfl, rfl⟩

/-- **A key condition resolves in its own maps, which leave those of the filters alone.** -/
theorem keyPhrase_resolves {q : Query} {k : KeyPhrase} {names : Dict String} {values : Dict Json}
    (h : q.keyPhrase = (k, names, values)) :
    k.Resolves names values q.index q.partitionKey q.sortRange ∧ names.Agrees q.clauses.names ∧
      values.keys = k.placeholders ∧
      ∀ placeholder ∈ k.placeholders, placeholder ∉ q.clauses.values.keys := by
  obtain ⟨name, names₁, value, values₁, hname, hvalue, hcases⟩ := keyPhrase_cases h
  obtain ⟨-, hgetname, hagrees⟩ := bindName_agrees hname (Dict.agrees_empty _)
  obtain ⟨-, hgetvalue, hkeys, htaken⟩ := bindValue_keys hvalue
  have hkeys : values₁.keys = [value] := hkeys
  rcases hcases with ⟨hsort, rfl, rfl, rfl⟩ | ⟨sort, sortName, names₂, phrase, hsort, rfl, hsortName, hphrase⟩
  · refine ⟨⟨hgetname, hgetvalue, by rw [hsort]; rfl, fun phrase key hphrase => nomatch hphrase⟩, hagrees, hkeys,
      fun placeholder hmem => ?_⟩
    rwa [List.mem_singleton.mp hmem]
  · obtain ⟨hextends, hgetsort, hagrees₂⟩ := bindName_agrees hsortName hagrees
    obtain ⟨hresolves, hextends₃, hagrees₃, hvalues, hkeys₃, htaken₃⟩ :=
      rangePhrase_resolves hphrase hgetsort hagrees₂
    refine ⟨⟨hextends₃ _ _ (hextends _ _ hgetname), hvalues _ _ hgetvalue, by rw [hsort]; rfl, ?_⟩,
      hagrees₃, ?_, fun placeholder hmem => ?_⟩
    · intro other key hother hkey
      obtain rfl := Option.some.inj hother
      rw [hsort] at hkey
      obtain rfl := Option.some.inj hkey
      exact hresolves
    · rw [hkeys₃, hkeys]
      simp [KeyPhrase.placeholders]
    · simp only [KeyPhrase.placeholders, Option.toList_some, List.flatMap_singleton, List.mem_cons] at hmem
      rcases hmem with rfl | hmem
      · exact htaken
      · exact htaken₃ placeholder hmem

end Query

/-! ### Parameters -/

namespace Query

/-- The parameters of a query join its key condition to its clauses. -/
theorem params_eq {q : Query} {k : KeyPhrase} {names : Dict String} {values : Dict Json}
    (h : q.keyPhrase = (k, names, values)) :
    q.params.key = k ∧ q.params.names = (Expressions.join names values q.clauses).names ∧
      q.params.values = (Expressions.join names values q.clauses).values ∧
      q.params.filter = (Expressions.join names values q.clauses).condition := by
  unfold params
  rw [h]
  exact ⟨rfl, rfl, rfl, rfl⟩

theorem params_filter (q : Query) : q.params.filter = q.clauses.phrase? := by
  rw [(params_eq rfl).2.2.2, Expressions.join_condition]

/-- The filter makes the tests of all clauses. -/
theorem params_tests (q : Query) :
    Phrase.testsOf q.params.filter.toList = Phrase.testsOf q.clauses.phrases := by
  rw [params_filter, Clauses.testsOf_phrase?]

/-- The key condition of a query resolves to the fields, the key and the range of the query. -/
theorem params_key (q : Query) :
    q.params.key.Resolves q.params.names q.params.values q.index q.partitionKey q.sortRange := by
  obtain ⟨k, names, values, hkey⟩ : ∃ k names values, q.keyPhrase = (k, names, values) := ⟨_, _, _, rfl⟩
  obtain ⟨hresolves, -, -, -⟩ := keyPhrase_resolves hkey
  obtain ⟨hnames, hvalues⟩ := Expressions.join_extends names values q.clauses
  obtain ⟨hk, hpnames, hpvalues, -⟩ := params_eq hkey
  rw [hk, hpnames, hpvalues]
  exact hresolves.extend hnames hvalues

/-- The range of a query is the one that a step put on it, or the beginning that it started with. -/
theorem Reached.sortRange_eq {q₀ q : Query} {steps : List Step} (h : Reached q₀ steps q) :
    q.sortRange = (steps.findSome? (Step.range? q₀)).getD
      (.beginsWith (q₀.entity.registry.sortKey q₀.index q₀.facets)) := by
  rw [sortRange, h.range, h.entity, h.index, h.facets]

section Run

variable {e : Entity} {index : Index} {facets : Facets} {q₀ q : Query} {steps : List Step}

/-- After any steps, the key condition resolves to the start and the range put on it. -/
theorem key_of_run (hstart : start e index facets = .ok q₀) (hrun : q₀.run steps = .ok q) :
    q.params.key.Resolves q.params.names q.params.values index (e.registry.partitionKey index facets)
      ((steps.findSome? (Step.range? q₀)).getD (.beginsWith (e.registry.sortKey index facets))) := by
  have hreached := (Reached.start hstart).run hrun
  have hkey := q.params_key
  rw [hreached.sortRange_eq, hreached.index, hreached.partitionKey] at hkey
  obtain ⟨-, rfl⟩ := start_ok hstart
  exact hkey

/-- After any steps, every written test stands for the test of a filter. -/
theorem tests_of_run (hstart : start e index facets = .ok q₀) (hrun : q₀.run steps = .ok q) :
    List.Forall₂ (Phrase.Test.StandsFor e.surface q.params.names q.params.values)
      (Phrase.testsOf q.params.filter.toList) (Condition.testsOf (conditionsOf e steps)) := by
  obtain ⟨k, names, values, hkey⟩ : ∃ k names values, q.keyPhrase = (k, names, values) := ⟨_, _, _, rfl⟩
  obtain ⟨-, hagrees, hkeys, hfresh⟩ := keyPhrase_resolves hkey
  have hdisjoint : values.Agrees q.clauses.values := Dict.agrees_of_disjoint (by rwa [hkeys])
  obtain ⟨-, hnames, hvalues, -⟩ := params_eq hkey
  rw [params_tests, hnames, hvalues]
  exact Expressions.join_resolves (clauses_of_run hstart hrun) hagrees hdisjoint

/-- After any steps, no two of the keys and operands have one placeholder. -/
theorem placeholders_of_run (hstart : start e index facets = .ok q₀) (hrun : q₀.run steps = .ok q) :
    (q.params.key.placeholders ++ Phrase.placeholders (Phrase.testsOf q.params.filter.toList)).Nodup := by
  have hclauses := clauses_of_run hstart hrun
  obtain ⟨k, names, values, hkey⟩ : ∃ k names values, q.keyPhrase = (k, names, values) := ⟨_, _, _, rfl⟩
  obtain ⟨-, -, hkeys, hfresh⟩ := keyPhrase_resolves hkey
  rw [(params_eq hkey).1, params_tests]
  refine List.nodup_append.mpr ⟨?_, hclauses.nodup, ?_⟩
  · rw [← hkeys]
    exact values.nodup
  · rintro a ha b hb rfl
    have hclausekeys : q.clauses.values.keys = Phrase.placeholders (Phrase.testsOf q.clauses.phrases) := hclauses.keys
    exact hfresh a ha (hclausekeys ▸ hb)

end Run

end Query

/-- **After any steps, every placeholder of a query resolves to what it was made for.** -/
theorem Query.params_resolve {e : Entity} {index : Index} {facets : Facets} {q₀ q : Query} {steps : List Step}
    (hstart : start e index facets = .ok q₀) (hrun : q₀.run steps = .ok q) :
    q.params.key.Resolves q.params.names q.params.values index (e.registry.partitionKey index facets)
        ((steps.findSome? (Step.range? q₀)).getD (.beginsWith (e.registry.sortKey index facets))) ∧
      List.Forall₂ (Phrase.Test.StandsFor e.surface q.params.names q.params.values)
        (Phrase.testsOf q.params.filter.toList) (Condition.testsOf (conditionsOf e steps)) ∧
      (q.params.key.placeholders ++
        Phrase.placeholders (Phrase.testsOf q.params.filter.toList)).Nodup :=
  ⟨key_of_run hstart hrun, tests_of_run hstart hrun, placeholders_of_run hstart hrun⟩

/-! ### Attributes named like the keys -/

/-- An index of letters whose attributes are named like placeholders of the key condition. -/
def byLetter : Index := ⟨"", "byLetter", ⟨"pk", ["pk"]⟩, some ⟨"sk", ["sk1"]⟩⟩

def clashing : Entity where
  table := "t"
  attributes := .ofList
    [("pk", ⟨"pk", "letter", "pk", .scalar .string, none, false, false⟩),
      ("sk1", ⟨"sk1", "number", "sk1", .scalar .string, none, false, false⟩)]
  filters := .empty
  registry := ⟨"$s_1", "$e", [byLetter], byLetter⟩

/-- A range, and a filter whose placeholders want the names of the keys. -/
def clashingSteps : List Query.Step :=
  [.beginsWith (.object [("sk1", .string "y")]), .filter (.and (.eq "pk" .null) (.ne "sk1" .null))]

/-- The theorem for these steps. -/
theorem Query.params_resolve_clashing : ∃ q₀ q,
    start clashing byLetter (.ofList [("pk", .string "x")]) = .ok q₀ ∧ q₀.run clashingSteps = .ok q ∧
    q.params.key.Resolves q.params.names q.params.values byLetter "$s_1#pk_x" (.beginsWith "$e#sk1_y") ∧
    List.Forall₂ (Phrase.Test.StandsFor clashing.surface q.params.names q.params.values)
      (Phrase.testsOf q.params.filter.toList) [⟨"pk", .eq, [.null]⟩, ⟨"sk1", .ne, [.null]⟩] ∧
    (q.params.key.placeholders ++
      Phrase.placeholders (Phrase.testsOf q.params.filter.toList)).Nodup := by
  have hresolve := @params_resolve clashing byLetter (.ofList [("pk", .string "x")]) _ _ clashingSteps rfl rfl
  exact ⟨_, _, rfl, rfl, hresolve⟩

end SingleTable
