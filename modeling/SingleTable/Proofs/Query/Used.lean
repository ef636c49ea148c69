import SingleTable.Proofs.Condition.Clauses
import SingleTable.Proofs.Query.Match
import SingleTable.Proofs.Query.Tokens

/-! Placeholders of a query that none of its expressions uses.

The store refuses a request that binds such a placeholder. `placeholders_used`
says that every value of a query is used, and every name, unless a range between
two bounds was put on it: such a range binds a second name of the sort field, and
then tests the field by the first. -/
namespace SingleTable

open Grammar
open Placeholder (bindName bindValue candidate)

namespace Query

/-! ### Names of the key condition -/

/-- A range between two bounds binds one name beside the one that it is given. -/
theorem rangePhrase_names {q : Query} {name field : String} {names names' : Dict String}
    {values values' : Dict Json} {phrase : SortPhrase}
    (h : q.rangePhrase name field names values = (phrase, names', values')) :
    phrase.name = name ∧ (∀ value ∈ phrase.placeholders, Grammar.tokens value.toList = [.value value]) ∧
      (phrase.isBetween = false ∧ names' = names ∨
        phrase.isBetween = true ∧ ∃ second, bindName names q.clauses.names "#sk2" field = (second, names')) := by
  rcases rangePhrase_cases h with ⟨bound, placeholder, hbind, rfl, hcases⟩ |
    ⟨lower, upper, low, high, values₁, second, hrange, rfl, hlow, hhigh, hsecond⟩
  · have htokens := Placeholder.tokens_bindValue "sk1" (by decide) hbind
    rcases hcases with ⟨-, rfl⟩ | ⟨comparison, -, rfl⟩
    all_goals
      refine ⟨rfl, fun value hmem => ?_, .inl ⟨rfl, rfl⟩⟩
      rwa [List.mem_singleton.mp hmem]
  · refine ⟨rfl, fun value hmem => ?_, .inr ⟨rfl, second, hsecond⟩⟩
    rcases List.mem_pair.mp hmem with rfl | rfl
    · exact Placeholder.tokens_bindValue "sk1" (by decide) hlow
    · exact Placeholder.tokens_bindValue "sk2" (by decide) hhigh

/-- Every placeholder of the key condition is one token. -/
theorem keyPhrase_spelled {q : Query} {k : KeyPhrase} {names : Dict String} {values : Dict Json}
    (h : q.keyPhrase = (k, names, values)) : k.Spelled := by
  obtain ⟨name, names₁, value, values₁, hname, hvalue, hcases⟩ := keyPhrase_cases h
  have hname := Placeholder.tokens_bindName "pk" (by decide) hname
  have hvalue := Placeholder.tokens_bindValue "pk" (by decide) hvalue
  rcases hcases with ⟨-, rfl, -, -⟩ | ⟨sort, sortName, names₂, phrase, -, rfl, hsortName, hphrase⟩
  · refine ⟨fun other hmem => ?_, fun other hmem => ?_⟩ <;> rwa [List.mem_singleton.mp hmem]
  · obtain ⟨hphraseName, hphraseValues, -⟩ := rangePhrase_names hphrase
    refine ⟨fun other hmem => ?_, fun other hmem => ?_⟩
    · rw [KeyPhrase.names, Option.toList_some, List.map_singleton, hphraseName] at hmem
      rcases List.mem_pair.mp hmem with rfl | rfl
      · exact hname
      · exact Placeholder.tokens_bindName "sk1" (by decide) hsortName
    · rw [KeyPhrase.placeholders, Option.toList_some, List.flatMap_singleton] at hmem
      rcases List.mem_cons.mp hmem with rfl | hmem
      · exact hvalue
      · exact hphraseValues other hmem

/-- A second name of the sort field is another one than the first, and no attribute has it. -/
theorem second_spec {names taken names' : Dict String} {field second : String}
    (h : bindName names taken "#sk2" field = (second, names')) :
    (∀ n, second ≠ candidate "#pk" n) ∧ (∀ n, second ≠ candidate "#sk1" n) ∧
      (∀ other, taken.get? second = some other → other = field) := by
  obtain ⟨l, hl⟩ := Placeholder.bindName_candidate h
  have hfree := Placeholder.freeName_iff.mp (Placeholder.bindName_spec h).2
  refine ⟨fun n => ?_, fun n => ?_, hfree.2⟩
  · rw [hl]
    exact Placeholder.candidate_ne (by decide) (by decide) _ _
  · rw [hl]
    exact Placeholder.candidate_ne (by decide) (by decide) _ _

/-- **What names a key condition binds**: its own, and for a range between two bounds another one of the
sort field. -/
theorem keyPhrase_names {q : Query} {k : KeyPhrase} {names : Dict String} {values : Dict Json}
    (h : q.keyPhrase = (k, names, values)) :
    (k.isBetween = false → ∀ name ∈ names.keys, name ∈ k.names) ∧
      (k.isBetween = true → ∃ sort ∈ q.index.sort, ∃ second, second ∉ k.names ∧
        (∀ field, q.clauses.names.get? second = some field → field = sort.field) ∧
        ∀ name, name ∈ names.keys ↔ name ∈ k.names ∨ name = second) := by
  obtain ⟨name, names₁, value, values₁, hname, hvalue, hcases⟩ := keyPhrase_cases h
  have hkeys (other : String) : other ∈ names₁.keys ↔ other = name := by
    rw [(Placeholder.bindName_spec hname).1, Dict.mem_keys_insert]
    exact or_iff_left List.not_mem_nil
  rcases hcases with ⟨-, rfl, rfl, -⟩ | ⟨sort, sortName, names₂, phrase, hsort, rfl, hsortName, hphrase⟩
  · exact ⟨fun _ other hmem => List.mem_singleton.mpr ((hkeys other).mp hmem), nofun⟩
  · obtain ⟨hphraseName, -, hrange⟩ := rangePhrase_names hphrase
    have hnames : KeyPhrase.names ⟨name, value, some phrase⟩ = [name, sortName] := by
      rw [KeyPhrase.names, Option.toList_some, List.map_singleton, hphraseName]
    have hkeys₂ (other : String) : other ∈ names₂.keys ↔ other ∈ [name, sortName] := by
      rw [(Placeholder.bindName_spec hsortName).1, Dict.mem_keys_insert, hkeys, List.mem_pair, or_comm]
    rw [hnames]
    refine ⟨fun hnot other hmem => ?_, fun hbetween => ?_⟩
    · rcases hrange with ⟨-, rfl⟩ | ⟨hbetween, -⟩
      · exact (hkeys₂ other).mp hmem
      · exact absurd (hbetween.symm.trans hnot) (by simp)
    · rcases hrange with ⟨hnot, -⟩ | ⟨-, second, hsecond⟩
      · exact absurd (hnot.symm.trans hbetween) (by simp)
      · obtain ⟨hpk, hsk, hfield⟩ := second_spec hsecond
        obtain ⟨m, hm⟩ := Placeholder.bindName_candidate hname
        obtain ⟨n, hn⟩ := Placeholder.bindName_candidate hsortName
        refine ⟨sort, hsort, second, fun hmem => ?_, hfield, fun other => ?_⟩
        · rcases List.mem_pair.mp hmem with heq | heq
          · exact hpk m (heq.trans hm)
          · exact hsk n (heq.trans hn)
        · rw [(Placeholder.bindName_spec hsecond).1, Dict.mem_keys_insert, hkeys₂, or_comm]

end Query

/-! ### Phrases of the filters -/

namespace Query

theorem linked_step {q q' : Query} {s : Step} (h : q.step s = .ok q') (hlinked : Phrase.AllLinked q.clauses.phrases) :
    Phrase.AllLinked q'.clauses.phrases := by
  rcases step_ok h with ⟨range, -, -, -, rfl⟩ | ⟨condition, clauses, -, -, hclauses, rfl⟩
  · exact hlinked
  · exact Clauses.linked_apply hclauses hlinked

/-- No steps make an empty chain in a filter. -/
theorem linked_run {q q' : Query} {steps : List Step} (h : q.run steps = .ok q')
    (hlinked : Phrase.AllLinked q.clauses.phrases) : Phrase.AllLinked q'.clauses.phrases := by
  induction steps generalizing q with
  | nil => exact Except.ok.inj h ▸ hlinked
  | cons s rest ih =>
    obtain ⟨next, hnext, hothers⟩ := run_cons_ok h
    exact ih hothers (linked_step hnext hlinked)

end Query

/-! ### Ranges between two bounds -/

/-- A sort phrase has the form of the range that it resolves to. -/
theorem SortPhrase.Resolves.isBetween_iff {names : Dict String} {values : Dict Json} {field : String}
    {phrase : SortPhrase} {range : SortRange} (h : phrase.Resolves names values field range) :
    phrase.isBetween = true ↔ ∃ lower upper, range = .between lower upper := by
  cases h with
  | between hname hlow hhigh => exact iff_of_true rfl ⟨_, _, rfl⟩
  | beginsWith hname hbound | compare hname hbound =>
    refine iff_of_false Bool.false_ne_true ?_
    rintro ⟨lower, upper, hrange⟩
    cases hrange

namespace Query

/-- No other step puts a range between two bounds. -/
theorem Step.eq_between {q : Query} {s : Step} {lower upper : String} (h : s.range? q = some (.between lower upper)) :
    ∃ low high, s = .between low high := by
  cases s with
  | between low high => exact ⟨low, high, rfl⟩
  | compare comparison facets | beginsWith facets =>
    obtain ⟨bound, -, hbound⟩ := Option.map_eq_some_iff.mp h
    exact nomatch hbound
  | filter condition | named name arguments => exact nomatch h

section Run

variable {e : Entity} {index : Index} {facets : Facets} {q₀ q : Query} {steps : List Step}

/-- A step that puts a range between two bounds is the one whose range the chain keeps. -/
theorem range_of_between (hstart : start e index facets = .ok q₀) (hrun : q₀.run steps = .ok q) {low high : Json}
    (hmem : Step.between low high ∈ steps) :
    index.sort.isSome = true ∧ ∃ lower upper, steps.findSome? (Step.range? q₀) = some (.between lower upper) := by
  obtain ⟨hsort, range, hput, hfind⟩ := range_of_mem hstart hrun hmem rfl
  obtain ⟨lower, -, hupper⟩ := Option.bind_eq_some_iff.mp hput
  obtain ⟨upper, -, rfl⟩ := Option.map_eq_some_iff.mp hupper
  exact ⟨hsort, lower, upper, hfind⟩

/-- The key condition is a range between two bounds exactly if a step put one on the chain. -/
theorem isBetween_of_run (hstart : start e index facets = .ok q₀) (hrun : q₀.run steps = .ok q) :
    q.params.key.isBetween = true ↔ ∃ low high, Step.between low high ∈ steps := by
  have hkey := key_of_run hstart hrun
  constructor
  · intro hbetween
    obtain ⟨phrase, hphrase, hphraseBetween⟩ := (Option.any_eq_true _ _).mp hbetween
    obtain ⟨sort, hsort⟩ := Option.isSome_iff_exists.mp (hkey.present.symm.trans (by rw [hphrase]; rfl))
    obtain ⟨lower, upper, hrange⟩ := (hkey.sort phrase sort hphrase hsort).isBetween_iff.mp hphraseBetween
    cases hfind : steps.findSome? (Step.range? q₀) with
    | none =>
      rw [hfind] at hrange
      cases hrange
    | some range =>
      rw [hfind, Option.getD_some] at hrange
      obtain ⟨s, hs, hput⟩ := List.exists_of_findSome?_eq_some hfind
      rw [hrange] at hput
      obtain ⟨low, high, rfl⟩ := Step.eq_between hput
      exact ⟨low, high, hs⟩
  · rintro ⟨low, high, hmem⟩
    obtain ⟨hsort, lower, upper, hfind⟩ := range_of_between hstart hrun hmem
    rw [hfind, Option.getD_some] at hkey
    obtain ⟨sort, hsort⟩ := Option.isSome_iff_exists.mp hsort
    obtain ⟨phrase, hphrase⟩ := Option.isSome_iff_exists.mp (hkey.present.trans (by rw [hsort]; rfl))
    rw [KeyPhrase.isBetween, hphrase]
    exact (hkey.sort phrase sort hphrase hsort).isBetween_iff.mpr ⟨lower, upper, rfl⟩

end Run

end Query

/-! ### Tokens of a request -/

/-- The tokens of the expressions of a request. -/
def QueryParams.tokens (p : QueryParams) : List Grammar.Token :=
  Grammar.tokens p.key.text.toList ++ p.filter.toList.flatMap fun phrase => Grammar.tokens phrase.text.toList

namespace Query

section Run

variable {e : Entity} {index : Index} {facets : Facets} {q₀ q : Query} {steps : List Step}

/-- **The placeholders that stand in the expressions of a query** are those of its key condition and of
its tests. -/
theorem tokens_of_run (hnames : ∀ name ∈ e.attributes.keys, IsName name) (hstart : start e index facets = .ok q₀)
    (hrun : q₀.run steps = .ok q) :
    q.params.tokens.filterMap Grammar.Token.name? =
        q.params.key.names ++ (Phrase.testsOf q.params.filter.toList).map Phrase.Test.name ∧
      q.params.tokens.filterMap Grammar.Token.value? =
        q.params.key.placeholders ++ Phrase.placeholders (Phrase.testsOf q.params.filter.toList) := by
  have hlinked : Phrase.AllLinked q.clauses.phrases := by
    refine linked_run hrun ?_
    obtain ⟨-, rfl⟩ := start_ok hstart
    trivial
  have hlists := (clauses_of_run hstart hrun).lists hnames hlinked
  obtain ⟨k, names, values, hkey⟩ : ∃ k names values, q.keyPhrase = (k, names, values) := ⟨_, _, _, rfl⟩
  obtain ⟨hkeyNames, hkeyValues⟩ := k.filterMap_tokens
  rw [params_tests, QueryParams.tokens, params_filter, (params_eq hkey).1, KeyPhrase.tokens_text (keyPhrase_spelled hkey),
    List.filterMap_append, List.filterMap_append, hkeyNames, hkeyValues, hlists.names, hlists.values]
  exact ⟨rfl, rfl⟩

/-- What a query binds are the placeholders of its key condition and of its tests. -/
theorem keys_of_run (hstart : start e index facets = .ok q₀) (hrun : q₀.run steps = .ok q) {k : KeyPhrase}
    {names : Dict String} {values : Dict Json} (hkey : q.keyPhrase = (k, names, values)) (p : String) :
    (p ∈ q.params.names.keys ↔
      p ∈ names.keys ∨ p ∈ (Phrase.testsOf q.params.filter.toList).map Phrase.Test.name) ∧
    (p ∈ q.params.values.keys ↔
      p ∈ values.keys ∨ p ∈ Phrase.placeholders (Phrase.testsOf q.params.filter.toList)) := by
  obtain ⟨-, hnames, hvalues, hfilter⟩ := params_eq hkey
  rw [hnames, hvalues, hfilter]
  exact Expressions.mem_keys_join (clauses_of_run hstart hrun) names values p

/-- No filter has the name of a key field. -/
theorem notMem_tests_of_run (he : e.Accepted) (hindex : index ∈ e.registry.indexes)
    (hstart : start e index facets = .ok q₀) (hrun : q₀.run steps = .ok q) {key : KeyField}
    (hkey : key ∈ index.keyFields) {p : String}
    (hp : ∀ field, q.clauses.names.get? p = some field → field = key.field) :
    p ∉ (Phrase.testsOf q.params.filter.toList).map Phrase.Test.name := by
  have hclauses := clauses_of_run hstart hrun
  rw [params_tests, ← hclauses.mem_names, ← Dict.contains_iff]
  intro hbound
  obtain ⟨field, hget⟩ := Option.isSome_iff_exists.mp hbound
  obtain ⟨name, -, hfield⟩ := hclauses.named p field hget
  obtain ⟨a, ha, rfl⟩ := Surface.field_ok hfield
  exact he.field_ne (Dict.mem_values_of_get? ha) (Entity.field_mem_keyFields hindex hkey) (hp _ hget)

end Run

/-- **Every placeholder of a query stands in its expressions**, but one name of a range between two bounds. -/
theorem placeholders_used {s : Schema} {e : Entity} (he : Entity.ofSchema s = .ok e)
    (hnames : ∀ name ∈ e.attributes.keys, IsName name) {index : Index} (hindex : index ∈ e.registry.indexes)
    {facets : Facets} {q₀ q : Query} {steps : List Step} (hstart : start e index facets = .ok q₀)
    (hrun : q₀.run steps = .ok q) :
    (∀ p ∈ q.params.values.keys, Grammar.Token.value p ∈ q.params.tokens) ∧
      ((∀ low high, Step.between low high ∉ steps) →
        ∀ p ∈ q.params.names.keys, Grammar.Token.name p ∈ q.params.tokens) ∧
      ((∃ low high, Step.between low high ∈ steps) →
        ∃! p, p ∈ q.params.names.keys ∧ Grammar.Token.name p ∉ q.params.tokens) := by
  obtain ⟨k, names, values, hkey⟩ : ∃ k names values, q.keyPhrase = (k, names, values) := ⟨_, _, _, rfl⟩
  obtain ⟨hk, -, -, -⟩ := params_eq hkey
  obtain ⟨hnamesIn, hvaluesIn⟩ := tokens_of_run hnames hstart hrun
  have hkeys := keys_of_run hstart hrun hkey
  have hbetween := isBetween_of_run hstart hrun
  obtain ⟨hall, hone⟩ := keyPhrase_names hkey
  obtain ⟨-, -, hkeyValues, -⟩ := keyPhrase_resolves hkey
  rw [hk] at hnamesIn hvaluesIn hbetween
  simp only [← Grammar.Token.mem_names, ← Grammar.Token.mem_values, hnamesIn, hvaluesIn, List.mem_append]
  refine ⟨fun p hp => ?_, fun hnone p hp => ?_, fun hsome => ?_⟩
  · rw [← hkeyValues]
    exact (hkeys p).2.mp hp
  · have hnot : k.isBetween = false := by
      rw [← Bool.not_eq_true, hbetween]
      rintro ⟨low, high, hmem⟩
      exact hnone low high hmem
    exact ((hkeys p).1.mp hp).imp_left (hall hnot p)
  · obtain ⟨sort, hsort, second, hnew, hfield, hmem⟩ := hone (hbetween.mpr hsome)
    rw [index_of_run hstart hrun] at hsort
    have htests := notMem_tests_of_run (Entity.accepted_of_ofSchema he) hindex hstart hrun
      (Registry.mem_keyFields_of_sort hsort) hfield
    refine ⟨second, ⟨(hkeys second).1.mpr (.inl ((hmem second).mpr (.inr rfl))), not_or.mpr ⟨hnew, htests⟩⟩, ?_⟩
    rintro other ⟨hother, hunused⟩
    rw [not_or] at hunused
    have hbound := ((hkeys other).1.mp hother).resolve_right hunused.2
    exact ((hmem other).mp hbound).resolve_left hunused.1

/-! ### Rooms on some floors -/

def onFloors (low high : String) : Step :=
  .between (.object [("floor", .string low)]) (.object [("floor", .string high)])

/-- The theorem for the rooms of a building on some floors, of which a note is asked for. -/
theorem placeholders_used_floors : ∃ e q₀ q, Entity.ofSchema rooms = .ok e ∧ e.query "building" inBuilding = .ok q₀ ∧
    q₀.run [onFloors "1" "3", .filter (.eq "note" (.string "x"))] = .ok q ∧
    (∀ p ∈ q.params.values.keys, Grammar.Token.value p ∈ q.params.tokens) ∧
    ∃! p, p ∈ q.params.names.keys ∧ Grammar.Token.name p ∉ q.params.tokens := by
  have hused := @placeholders_used rooms _ rfl (by decide) _ (List.mem_cons_of_mem _ (List.mem_cons_self ..))
    (.ofList [("building", .string "A")]) _ _ [onFloors "1" "3", .filter (.eq "note" (.string "x"))] rfl rfl
  exact ⟨_, _, _, rfl, rfl, rfl, hused.1, hused.2.2 ⟨_, _, List.mem_cons_self ..⟩⟩

/-- A range between two floors binds a second name of the sort field, and uses the first. -/
theorem second_name_unused : ∃ e q₀ q, Entity.ofSchema rooms = .ok e ∧ (∀ name ∈ e.attributes.keys, IsName name) ∧
    e.query "building" inBuilding = .ok q₀ ∧ q₀.run [onFloors "1" "3"] = .ok q ∧
    q.params.key.text = "#pk = :pk and #sk1 BETWEEN :sk1 AND :sk2" ∧ q.params.filter = none ∧
    q.params.names.get? "#sk2" = some "gsi1sk" ∧ Grammar.Token.name "#sk2" ∉ q.params.tokens := by
  refine ⟨_, _, _, rfl, by decide, rfl, rfl, rfl, rfl, rfl, ?_⟩
  decide

end Query

end SingleTable
