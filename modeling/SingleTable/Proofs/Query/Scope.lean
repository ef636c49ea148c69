import SingleTable.Proofs.Index.Legible
import SingleTable.Proofs.Item.Identity
import SingleTable.Proofs.Query.Holds

/-! How far the scope of a key keeps entities of one table apart.

Keys of an entity begin with its scope: service and version for partition keys,
the entity for sort keys. Nothing closes a scope, so a condition of one entity
may hold of items of another: with a bound that is no more than a scope, of those
whose scope goes on from it, and with a comparison, of all that lie on its open
side. `scopes_keys` says that, for names without `#`, this is all: the partition
scopes are one text and the range `Reaches` the other scope. -/
namespace SingleTable

open Text (stem)

/-! ### Scopes -/

/-- The stem of a composed key with a scope: the scope, closed if any facet goes into it. -/
def scopeStem (scope : String) (composed : Bool) : List Char := scope.toList ++ if composed then ['#'] else []

theorem stem_segments (pairs : List (String × Json)) :
    stem (Facets.segments pairs) = if pairs.isEmpty then [] else ['#'] := by
  cases pairs with
  | nil => rfl
  | cons pair rest => rfl

theorem stem_composeKey {scope : String} (h : '#' ∉ scope.toList) (names : List String) (values : Facets) :
    stem (composeKey scope names values).toList = scopeStem scope !(values.leading names).isEmpty := by
  rw [toList_composeKey, Text.stem_append h, stem_segments, scopeStem]
  cases (values.leading names).isEmpty <;> rfl

/-- A composed key that is its own stem is no more than a scope. -/
theorem stem_eq_self_iff {scope : String} (h : '#' ∉ scope.toList) (names : List String) (values : Facets) :
    stem (composeKey scope names values).toList = (composeKey scope names values).toList ↔
      composeKey scope names values = scope := by
  rw [stem_composeKey h, ← String.toList_inj, toList_composeKey, scopeStem, List.append_cancel_left_eq,
    List.append_right_eq_self]
  cases values.leading names with
  | nil => simp [Facets.segments]
  | cons pair rest =>
    obtain ⟨name, value⟩ := pair
    simp [Facets.segments_cons, marker]

/-- Different scopes have different stems. -/
theorem scopeStem_ne {scope scope' : String} (h : '#' ∉ scope.toList) (h' : '#' ∉ scope'.toList) (hne : scope ≠ scope')
    (composed composed' : Bool) : scopeStem scope composed ≠ scopeStem scope' composed' := by
  have hscope {scope : String} (h : '#' ∉ scope.toList) (composed : Bool) :
      (scopeStem scope composed).filter (· ≠ '#') = scope.toList := by
    rw [scopeStem, List.filter_append, List.filter_eq_self.mpr fun c hc => ?_]
    · cases composed <;> simp
    · exact decide_eq_true fun heq : c = '#' => h (heq ▸ hc)
  intro hsame
  have hfilter := congrArg (List.filter (· ≠ '#')) hsame
  rw [hscope h, hscope h'] at hfilter
  exact hne (String.toList_inj.mp hfilter)

/-- A composed key tells its scope. -/
theorem scope_eq_of_composeKey {scope scope' : String} (h : '#' ∉ scope.toList) (h' : '#' ∉ scope'.toList)
    {names names' : List String} {values values' : Facets}
    (hkeys : composeKey scope names values = composeKey scope' names' values') : scope = scope' := by
  by_contra hne
  have hstems := congrArg (fun key => stem key.toList) hkeys
  simp only [stem_composeKey h, stem_composeKey h'] at hstems
  exact scopeStem_ne h h' hne _ _ hstems

/-! ### Ranges -/

namespace SortRange

def bounds : SortRange → List String
  | .beginsWith start => [start]
  | .between low high => [low, high]
  | .compare _ bound => [bound]

/-- A range whose own keys begin with one scope goes on to keys with the stem of another. -/
def Reaches (own : String) (other : List Char) : SortRange → Prop
  | .beginsWith start => start = own ∧ own.toList <+: other
  | .between low high => low = own ∧ own.toList <+: other ∧ other ≤ stem high.toList
  | .compare comparison bound => comparison.Holds other (stem bound.toList)

end SortRange

theorem scopeStem_le (scope : String) (composed : Bool) : scopeStem scope composed ≤ scope.toList ++ ['#'] := by
  unfold scopeStem
  split
  · exact le_rfl
  · rw [List.append_nil]
    exact Text.le_of_begins (List.prefix_append _ _)

/-- Between two keys of one scope, the lower of which composes a facet, is no stem of another scope. -/
theorem eq_scope_of_between {scope : String} (h : '#' ∉ scope.toList) {names : List String} {lower upper : Facets}
    {x : List Char} (hlow : stem (composeKey scope names lower).toList ≤ x)
    (hhigh : x ≤ stem (composeKey scope names upper).toList) (hne : stem (composeKey scope names lower).toList ≠ x) :
    composeKey scope names lower = scope := by
  cases hleading : lower.leading names with
  | nil =>
    rw [composeKey, hleading]
    rfl
  | cons pair rest =>
    have hclosed : stem (composeKey scope names lower).toList = scope.toList ++ ['#'] := by
      rw [stem_composeKey h, hleading]
      rfl
    have hwithin : stem (composeKey scope names upper).toList ≤ scope.toList ++ ['#'] := by
      rw [stem_composeKey h]
      exact scopeStem_le _ _
    rw [hclosed] at hlow hne
    exact absurd (le_antisymm hlow (hhigh.trans hwithin)) hne

section Reach

variable {own other : String} (hown : '#' ∉ own.toList) (hother : '#' ∉ other.toList) (hne : own ≠ other)
  {names : List String} {full : Facets}

include hown hother hne

theorem stem_ne_of_scope (values : Facets) :
    stem (composeKey own names values).toList ≠ stem (composeKey other names full).toList := by
  rw [stem_composeKey hown, stem_composeKey hother]
  exact scopeStem_ne hown hother hne _ _

/-- **A range with bounds of one scope admits a key of another exactly when it reaches its stem.** -/
theorem SortRange.admits_iff_reaches {range : SortRange}
    (hbounds : ∀ bound ∈ range.bounds, ∃ values, bound = composeKey own names values) :
    range.Admits (composeKey other names full) ↔
      range.Reaches own (stem (composeKey other names full).toList) := by
  cases range with
  | beginsWith start =>
    obtain ⟨values, rfl⟩ := hbounds start (List.mem_singleton_self _)
    rw [admits_beginsWith, Text.begins_iff_of_stem_ne (stem_ne_of_scope hown hother hne values),
      stem_eq_self_iff hown, Reaches]
    refine and_congr_right fun hscope => ?_
    rw [hscope]
  | compare comparison bound =>
    obtain ⟨values, rfl⟩ := hbounds bound (List.mem_singleton_self _)
    have hstem := @stem_ne_of_scope own other hown hother hne names full values
    rw [admits_compare, Reaches]
    cases comparison with
    | gt => exact Text.lt_iff_of_stem_ne hstem
    | lt => exact Text.lt_iff_of_stem_ne hstem.symm
    | gte => exact Text.le_iff_of_stem_ne hstem
    | lte => exact Text.le_iff_of_stem_ne hstem.symm
  | between low high =>
    obtain ⟨lower, rfl⟩ := hbounds low (List.mem_cons_self ..)
    obtain ⟨upper, rfl⟩ := hbounds high (List.mem_cons_of_mem _ (List.mem_singleton_self _))
    have hlower := @stem_ne_of_scope own other hown hother hne names full lower
    have hupper := @stem_ne_of_scope own other hown hother hne names full upper
    have hupper_eq := stem_composeKey hown names upper
    rw [admits_between, Reaches, Text.le_iff_of_stem_ne hlower, Text.le_iff_of_stem_ne hupper.symm]
    constructor
    · rintro ⟨hlow, hhigh⟩
      have hscope := eq_scope_of_between hown hlow hhigh hlower
      have hstart := (stem_eq_self_iff hown names lower).mpr hscope
      rw [hstart, hscope] at hlow
      rw [hupper_eq, scopeStem] at hhigh
      exact ⟨hscope, Text.begins_of_between hlow hhigh, hupper_eq ▸ hhigh⟩
    · rintro ⟨hscope, hbegins, hhigh⟩
      refine ⟨?_, hhigh⟩
      rw [(stem_eq_self_iff hown names lower).mpr hscope, hscope]
      exact Text.le_of_begins hbegins

end Reach

/-! ### Chains -/

namespace Query

theorem boundOf_ok {q : Query} {given : Json} {bound : String} (h : q.boundOf given = .ok bound) :
    ∃ values, bound = q.entity.registry.sortKey q.index values := by
  unfold boundOf at h
  split at h
  · exact nomatch h
  next facets _ =>
  simp only at h
  split at h
  · exact ⟨_, (Except.ok.inj h).symm⟩
  · exact nomatch h

/-- The bounds that a step puts on a chain are composed with the chain's scope. -/
theorem Step.bounds_of_range? {q : Query} {s : Step} {range : SortRange} (h : s.range? q = some range) :
    ∀ bound ∈ range.bounds, ∃ values, bound = q.entity.registry.sortKey q.index values := by
  have hbound {given : Json} {bound : String} (h : (q.boundOf given).toOption = some bound) :
      ∃ values, bound = q.entity.registry.sortKey q.index values := boundOf_ok (Fault.ok_of_toOption h)
  cases s with
  | compare comparison given | beginsWith given =>
    obtain ⟨bound, hgiven, rfl⟩ := Option.map_eq_some_iff.mp h
    intro other hother
    obtain rfl := List.mem_singleton.mp hother
    exact hbound hgiven
  | between low high =>
    obtain ⟨lower, hlow, hrest⟩ := Option.bind_eq_some_iff.mp h
    obtain ⟨upper, hhigh, rfl⟩ := Option.map_eq_some_iff.mp hrest
    intro other hother
    rcases List.mem_pair.mp hother with rfl | rfl
    · exact hbound hlow
    · exact hbound hhigh
  | filter | named => exact nomatch h

/-- So are those of every chain, also of one without a range. -/
theorem Reached.bounds {q₀ q : Query} {steps : List Step} (h : Reached q₀ steps q) :
    ∀ bound ∈ q.sortRange.bounds, ∃ values, bound = q₀.entity.registry.sortKey q₀.index values := by
  rw [h.sortRange_eq]
  cases hrange : steps.findSome? (Step.range? q₀) with
  | none =>
    intro bound hmem
    obtain rfl := List.mem_singleton.mp hmem
    exact ⟨q₀.facets, rfl⟩
  | some range =>
    obtain ⟨s, -, hs⟩ := List.exists_of_findSome?_eq_some hrange
    exact s.bounds_of_range? hs

end Query

/-! ### Entities of one table -/

namespace Entity

/-- Names without the character of the marks make scopes without it. -/
theorem plain_scopes {service entity version : String} (h : ∀ name ∈ [service, entity, version], '#' ∉ name.toList) :
    '#' ∉ ("$" ++ service ++ "_" ++ version).toList ∧ '#' ∉ ("$" ++ entity).toList := by
  have hservice := h service (by simp)
  have hentity := h entity (by simp)
  have hversion := h version (by simp)
  simp only [String.toList_append, List.mem_append]
  exact ⟨by simp [hservice, hversion], by simp [hentity]⟩

/-- **A condition of an entity holds of an item of another only where their scopes let it.** The
schemas differ in the names of their scopes only; the partition scopes are one text, and the range
on the sort key reaches the stem of the other entity's sort keys. -/
theorem scopes_keys {s : Schema} {service entity version : String} {e e' : Entity} (he : ofSchema s = .ok e)
    (he' : ofSchema { s with service := service, entity := entity, version := version } = .ok e')
    (hplain : ∀ name ∈ [s.service, s.entity, s.version] ++ [service, entity, version], '#' ∉ name.toList)
    (hdiffer : (s.service ++ "_" ++ s.version, s.entity) ≠ (service ++ "_" ++ version, entity))
    {input : Json} {p : Put} (hput : e.put input = .ok p) {index : Index} (hindex : index ∈ e'.registry.indexes)
    {sort : KeyField} (hsort : index.sort = some sort) {facets : Facets} {q₀ q : Query} {steps : List Query.Step}
    (hstart : Query.start e' index facets = .ok q₀) (hrun : q₀.run steps = .ok q)
    (hholds : q.params.key.Holds q.params.names q.params.values p.item) :
    s.service ++ "_" ++ s.version = service ++ "_" ++ version ∧
      q.sortRange.Reaches ("$" ++ entity) (scopeStem ("$" ++ s.entity) !sort.facets.isEmpty) := by
  have hacc := accepted_of_ofSchema he
  obtain ⟨hscope, hsortScope, hindexes⟩ := scopes_of_ofSchema he
  obtain ⟨hscope', hsortScope', hindexes'⟩ := scopes_of_ofSchema he'
  obtain ⟨hplainP, hplainS⟩ := plain_scopes fun name hname => hplain name (List.mem_append_left _ hname)
  obtain ⟨hplainP', hplainS'⟩ := plain_scopes fun name hname => hplain name (List.mem_append_right _ hname)
  have hi : index ∈ e.registry.indexes := by
    rw [hindexes]
    exact hindexes' ▸ hindex
  have hreached := (Query.Reached.start hstart).run hrun
  have hbounds := hreached.bounds
  obtain ⟨hpartition, hrange⟩ := q.params_hold_iff.mp hholds
  rw [hreached.index] at hpartition hrange
  rw [hreached.partitionKey] at hpartition
  obtain ⟨-, rfl⟩ := Query.start_ok hstart
  simp only at hpartition hrange hbounds
  have hservice : s.service ++ "_" ++ s.version = service ++ "_" ++ version := by
    rw [hacc.get?_key_of_put hput hi (List.mem_cons_self ..), hscope] at hpartition
    have hkeys := Json.string.inj (Option.some.inj hpartition)
    rw [Registry.partitionKey, hscope'] at hkeys
    have hscopes := scope_eq_of_composeKey hplainP hplainP' hkeys
    simpa only [String.append_assoc, String.append_right_inj] using hscopes
  refine ⟨hservice, ?_⟩
  have hentity : "$" ++ entity ≠ "$" ++ s.entity := by
    intro hsame
    exact hdiffer (Prod.ext hservice ((String.append_right_inj "$").mp hsame).symm)
  obtain ⟨key, hkey, hadmits⟩ := hrange sort hsort
  rw [hacc.get?_key_of_put hput hi (e.registry.scoped_sort hsort), hsortScope] at hkey
  obtain rfl := Json.string.inj (Option.some.inj hkey)
  have hreaches := (SortRange.admits_iff_reaches hplainS' hplainS hentity fun bound hbound => ?_).mp hadmits
  · -- The item has all facets of its keys, so its sort key is closed if there are any.
    obtain ⟨-, hhas, -⟩ := put_ok hput
    have hfull : (p.attributes.leading sort.facets).isEmpty = sort.facets.isEmpty :=
      Facets.isEmpty_leading fun name hname => hhas index hi name
        (Registry.mem_facetNames_of_keyField (Registry.mem_keyFields_of_sort hsort) hname)
    rwa [stem_composeKey hplainS, hfull] at hreaches
  · obtain ⟨values, hvalues⟩ := hbounds bound hbound
    exact ⟨values, by rw [hvalues, Registry.sortKey_eq _ hsort, hsortScope']⟩

end Entity

/-! ### Notes -/

/-- Notes under a subject. -/
def notes : Schema where
  service := "a_b"
  entity := "note"
  table := "t"
  version := "c"
  attributes := .ofList
    [("subject", ⟨none, none, none, false, false, .scalar .string⟩),
      ("title", ⟨none, none, none, false, false, .scalar .string⟩)]
  indexes := .ofList [("notes", ⟨none, ⟨"pk", ["subject"]⟩, some ⟨"sk", ["title"]⟩⟩)]
  filters := .empty

def noteOn (subject title : String) : Json := .object [("subject", .string subject), ("title", .string title)]

def note (title : String) : Json := noteOn "s" title

/-- All of a subject. -/
def subject : Json := .object [("subject", .string "s")]

/-- The theorem for an entity whose name begins that of notes. -/
theorem Entity.scopes_keys_no : ∃ e e' p q, ofSchema notes = .ok e ∧
    ofSchema { notes with entity := "no" } = .ok e' ∧ e.put (note "x") = .ok p ∧ e'.query "notes" subject = .ok q ∧
    q.params.key.Holds q.params.names q.params.values p.item ∧
    q.sortRange.Reaches "$no" (scopeStem "$note" true) := by
  have hboth {a b : Prop} (ha : a) (hb : a → b) : a ∧ b := ⟨ha, hb ha⟩
  refine ⟨_, _, _, _, rfl, rfl, rfl, rfl, hboth (Query.holds_of_sorted rfl rfl rfl ?_) fun hholds => ?_⟩
  · exact (by decide : Text.bytes "$no".toList <+: Text.bytes "$note#title_x".toList)
  · exact (@scopes_keys notes "a_b" "no" "c" _ _ rfl rfl (by decide) (by decide) (note "x") _ rfl _
      (List.mem_cons_self ..) _ rfl (.ofList [("subject", .string "s")]) _ _ [] rfl rfl hholds).2

/-- An item of the one entity satisfies the key condition of a chain of the other. -/
def Entity.Leaks (s s' : Schema) (input : Json) (pattern : String) (given : Json) (steps : List Query.Step) : Prop :=
  ∃ e e' p q₀ q, ofSchema s = .ok e ∧ ofSchema s' = .ok e' ∧ e.put input = .ok p ∧ e'.query pattern given = .ok q₀ ∧
    q₀.run steps = .ok q ∧ q.params.key.Holds q.params.names q.params.values p.item

/-- Notes are found from other entities: from one whose name begins theirs, by a comparison from one
whose name comes before theirs, from one whose service and version make the same scope, and from those
whose entity or version reads like a note's key. -/
theorem Entity.scopes_leak :
    Leaks notes { notes with entity := "no" } (note "x") "notes" subject [] ∧
    Leaks notes { notes with entity := "map" } (note "x") "notes" subject [.compare .gt (note "x")] ∧
    Leaks notes { notes with service := "a", version := "b_c" } (note "x") "notes" subject [] ∧
    Leaks notes { notes with entity := "note#title_x" } (note "x#title_y") "notes" (note "y") [] ∧
    Leaks notes { notes with version := "c#subject_x" } (noteOn "x#subject_s" "y") "notes" subject [] := by
  refine ⟨⟨_, _, _, _, _, rfl, rfl, rfl, rfl, rfl, Query.holds_of_sorted rfl rfl rfl ?_⟩,
    ⟨_, _, _, _, _, rfl, rfl, rfl, rfl, rfl, Query.holds_of_sorted rfl rfl rfl ?_⟩,
    ⟨_, _, _, _, _, rfl, rfl, rfl, rfl, rfl, Query.holds_of_sorted rfl rfl rfl ?_⟩,
    ⟨_, _, _, _, _, rfl, rfl, rfl, rfl, rfl, Query.holds_of_sorted rfl rfl rfl ?_⟩,
    ⟨_, _, _, _, _, rfl, rfl, rfl, rfl, rfl, Query.holds_of_sorted rfl rfl rfl ?_⟩⟩
  · exact (by decide : Text.bytes "$no".toList <+: Text.bytes "$note#title_x".toList)
  · exact (by decide : Text.bytes "$map#title_x".toList < Text.bytes "$note#title_x".toList)
  · exact (by decide : Text.bytes "$note".toList <+: Text.bytes "$note#title_x".toList)
  · exact (by decide : Text.bytes "$note#title_x#title_y".toList <+: Text.bytes "$note#title_x#title_y".toList)
  · exact (by decide : Text.bytes "$note".toList <+: Text.bytes "$note#title_y".toList)

end SingleTable
