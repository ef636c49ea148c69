import SingleTable.Proofs.Item.Identity
import SingleTable.Proofs.Query.Absent
import SingleTable.Proofs.Query.Match

/-! The order in which a chain takes its steps.

A chain takes at most one range and, behind it, any number of filters, and its stage says which of
these it has taken: `Course.step` for one step, `Course.run` for all of them. A range can be put on a
chain that has taken no step, on an index with a sort key, exactly when its facets leave the partition
key as it is. Nothing that a step puts on a chain is changed by a later one, so the parameters of a
chain are told by its start and by the range among its steps (`run_protocol`). -/
namespace SingleTable

/-- The identifiers of the indexes of an accepted entity are their own, so each is found by its own. -/
theorem Entity.Accepted.get_of_mem {e : Entity} (h : e.Accepted) {i : Index} (hi : i ∈ e.registry.indexes) :
    e.registry.get i.id = .ok i := by
  rw [Registry.get, find?_of_nodup_map h.ids hi]

theorem Registry.compose_of_get {r : Registry} {i : Index} (h : r.get i.id = .ok i) (values : Facets)
    (partials : List Facets) :
    r.compose i.id values partials = .ok ⟨r.partitionKey i values, partials.map (r.sortKey i)⟩ := by
  rw [compose, h]
  rfl

namespace Query

/-! ### Bounds -/

theorem boundOf_ok_iff {q : Query} {input : Json} {bound : String} :
    q.boundOf input = .ok bound ↔ ∃ given, Facets.ofJson input = .ok given ∧ q.entity.Typed given ∧
      q.entity.registry.partitionKey q.index (q.facets.override given) = q.partitionKey ∧
      q.entity.registry.sortKey q.index (q.facets.override given) = bound := by
  constructor
  · intro h
    unfold boundOf at h
    split at h
    · exact nomatch h
    next given hgiven =>
    obtain ⟨hofJson, htyped⟩ := Entity.facets_ok_iff.mp hgiven
    simp only at h
    split at h
    · next hpartition => exact ⟨given, hofJson, htyped, hpartition, Except.ok.inj h⟩
    · exact nomatch h
  · rintro ⟨given, hofJson, htyped, hpartition, rfl⟩
    rw [boundOf, Entity.facets_ok_iff.mpr ⟨hofJson, htyped⟩]
    exact if_pos hpartition

/-- The bound that a partial map composes over the facets of a chain, beside the chain's partition key. -/
def Composes (e : Entity) (index : Index) (facets : Facets) (input : Json) (bound : String) : Prop :=
  ∃ given, Facets.ofJson input = .ok given ∧
    e.registry.compose index.id (facets.override given) [facets.override given] =
      .ok ⟨e.registry.partitionKey index facets, [bound]⟩

/-- The range that a step asks for, on a chain on an index with some facets. -/
inductive Step.Asks (e : Entity) (index : Index) (facets : Facets) : Step → SortRange → Prop where
  | compare {comparison input bound} : Composes e index facets input bound →
      Asks e index facets (.compare comparison input) (.compare comparison bound)
  | beginsWith {input bound} : Composes e index facets input bound →
      Asks e index facets (.beginsWith input) (.beginsWith bound)
  | between {low high lower upper} : Composes e index facets low lower → Composes e index facets high upper →
      Asks e index facets (.between low high) (.between lower upper)

/-- What a step puts on a chain is the range that it asks for. -/
theorem Step.asks_of_range? {q : Query} (hget : q.entity.registry.get q.index.id = .ok q.index)
    (hkey : q.partitionKey = q.entity.registry.partitionKey q.index q.facets) {s : Step} {range : SortRange}
    (h : s.range? q = some range) : s.Asks q.entity q.index q.facets range := by
  have hbound {input : Json} {bound : String} (h : (q.boundOf input).toOption = some bound) :
      Composes q.entity q.index q.facets input bound := by
    obtain ⟨given, hofJson, -, hpartition, hsort⟩ := boundOf_ok_iff.mp (Fault.ok_of_toOption h)
    refine ⟨given, hofJson, ?_⟩
    rw [Registry.compose_of_get hget, hpartition, hkey, List.map_singleton, hsort]
  cases s with
  | compare comparison input =>
    obtain ⟨bound, hinput, rfl⟩ := Option.map_eq_some_iff.mp h
    exact .compare (hbound hinput)
  | beginsWith input =>
    obtain ⟨bound, hinput, rfl⟩ := Option.map_eq_some_iff.mp h
    exact .beginsWith (hbound hinput)
  | between low high =>
    obtain ⟨lower, hlow, hrest⟩ := Option.bind_eq_some_iff.mp h
    obtain ⟨upper, hhigh, rfl⟩ := Option.map_eq_some_iff.mp hrest
    exact .between (hbound hlow) (hbound hhigh)
  | filter | named => exact nomatch h

/-! ### When a range can be put on a chain -/

theorem rangeFault?_eq_none_iff {q : Query} :
    q.rangeFault? = none ↔ q.stage = .seeded ∧ q.index.sort.isSome = true := by
  refine ⟨rangeFault?_eq_none, fun ⟨hseeded, hsorted⟩ => ?_⟩
  obtain ⟨sort, hsort⟩ := Option.isSome_iff_exists.mp hsorted
  rw [rangeFault?, hseeded, hsort]
  rfl

/-- **A range step succeeds exactly when a range may be put on the chain and its facets compose its bounds.** -/
theorem exists_step_iff {q : Query} {s : Step} (hrange : s.isFilter = false) :
    (∃ q', q.step s = .ok q') ↔
      q.rangeFault? = none ∧ ∀ input ∈ s.partials, ∃ bound, q.boundOf input = .ok bound := by
  have hmap {bound : Except Fault String} (put : String → Query) :
      (∃ q', bound.map put = .ok q') ↔ ∃ key, bound = .ok key := by
    cases bound with
    | error fault =>
      constructor
      · rintro ⟨q', h⟩
        cases h
      · rintro ⟨key, h⟩
        cases h
    | ok key => exact ⟨fun _ => ⟨key, rfl⟩, fun _ => ⟨put key, rfl⟩⟩
  cases s with
  | compare comparison input =>
    simp only [step, compare, Step.partials, List.forall_mem_singleton]
    cases q.rangeFault? with
    | some fault => simp
    | none => simp [hmap]
  | beginsWith input =>
    simp only [step, beginsWith, Step.partials, List.forall_mem_singleton]
    cases q.rangeFault? with
    | some fault => simp
    | none => simp [hmap]
  | between low high =>
    simp only [step, between, Step.partials, List.forall_mem_cons]
    cases q.rangeFault? with
    | some fault => simp
    | none =>
      cases q.boundOf low with
      | error fault => simp
      | ok lower => simp [hmap]
  | filter | named => cases hrange

/-! ### Courses -/

/-- The steps that a chain has taken when it is at a stage. -/
inductive Course : Stage → List Step → Prop where
  | seeded : Course .seeded []
  | ranged {s} : s.isFilter = false → Course .ranged [s]
  | filtered {ranges filters} : ranges.length ≤ 1 → (∀ s ∈ ranges, s.isFilter = false) → filters ≠ [] →
      (∀ s ∈ filters, s.isFilter = true) → Course .filtered (ranges ++ filters)

theorem Course.filter {stage : Stage} {steps : List Step} {s : Step} (h : Course stage steps) (hs : s.isFilter = true) :
    Course .filtered (steps ++ [s]) := by
  have hsingle : ∀ t ∈ [s], t.isFilter = true := List.forall_mem_singleton.mpr hs
  cases h with
  | seeded => exact .filtered (Nat.zero_le 1) (fun t ht => nomatch ht) (List.cons_ne_nil s []) hsingle
  | ranged hrange =>
    exact .filtered (Nat.le_refl 1) (List.forall_mem_singleton.mpr hrange) (List.cons_ne_nil s []) hsingle
  | @filtered ranges filters hone hranges _ hfilters =>
    rw [List.append_assoc]
    exact .filtered hone hranges (List.append_ne_nil_of_right_ne_nil _ (List.cons_ne_nil s []))
      (List.forall_mem_append.mpr ⟨hfilters, hsingle⟩)

/-- **One more step.** Only a chain without steps takes a range, and every chain takes a filter. -/
theorem Course.step {q q' : Query} {steps : List Step} {s : Step} (h : Course q.stage steps) (hs : q.step s = .ok q') :
    Course q'.stage (steps ++ [s]) := by
  rcases step_ok hs with ⟨range, hput, -, hfault, rfl⟩ | ⟨condition, clauses, -, hconditions, -, rfl⟩
  · rw [(rangeFault?_eq_none hfault).1] at h
    cases h
    exact .ranged (Step.isFilter_eq_false_of_range? hput)
  · exact h.filter (Step.isFilter_of_conditions hconditions)

theorem Course.run {q q' : Query} {before steps : List Step} (h : Course q.stage before) (hrun : q.run steps = .ok q') :
    Course q'.stage (before ++ steps) := by
  induction steps generalizing q before with
  | nil =>
    obtain rfl := Except.ok.inj hrun
    rwa [List.append_nil]
  | cons s rest ih =>
    obtain ⟨next, hnext, hothers⟩ := run_cons_ok hrun
    have hrest := ih (h.step hnext) hothers
    rwa [List.append_assoc] at hrest

namespace Course

variable {stage : Stage} {steps : List Step}

/-- The steps of a course are at most one range, and then filters. -/
theorem ordered (h : Course stage steps) : ∃ ranges filters, steps = ranges ++ filters ∧ ranges.length ≤ 1 ∧
    (∀ s ∈ ranges, s.isFilter = false) ∧ ∀ s ∈ filters, s.isFilter = true := by
  cases h with
  | seeded => exact ⟨[], [], rfl, Nat.zero_le 1, (fun s hs => nomatch hs), fun s hs => nomatch hs⟩
  | @ranged s hrange =>
    exact ⟨[s], [], rfl, Nat.le_refl 1, List.forall_mem_singleton.mpr hrange, fun t ht => nomatch ht⟩
  | @filtered ranges filters hone hranges _ hfilters => exact ⟨ranges, filters, rfl, hone, hranges, hfilters⟩

theorem seeded_iff (h : Course stage steps) : stage = .seeded ↔ steps = [] := by
  cases h with
  | seeded => exact iff_of_true rfl rfl
  | ranged => exact iff_of_false (nomatch ·) (List.cons_ne_nil _ _)
  | filtered _ _ hfilters => exact iff_of_false (nomatch ·) (List.append_ne_nil_of_right_ne_nil _ hfilters)

theorem filtered_iff (h : Course stage steps) : stage = .filtered ↔ ∃ s ∈ steps, s.isFilter = true := by
  cases h with
  | seeded => exact iff_of_false (nomatch ·) fun ⟨_, hs, _⟩ => nomatch hs
  | @ranged s hrange =>
    refine iff_of_false (nomatch ·) fun ⟨t, ht, hfilter⟩ => ?_
    rw [List.mem_singleton.mp ht, hrange] at hfilter
    exact nomatch hfilter
  | @filtered ranges filters _ _ hsome hfilters =>
    obtain ⟨s, hs⟩ := List.exists_mem_of_ne_nil filters hsome
    exact iff_of_true rfl ⟨s, List.mem_append_right ranges hs, hfilters s hs⟩

theorem ranged_iff (h : Course stage steps) : stage = .ranged ↔ ∃ s, steps = [s] ∧ s.isFilter = false := by
  cases h with
  | seeded => exact iff_of_false (nomatch ·) fun ⟨_, hs, _⟩ => nomatch hs
  | @ranged s hrange => exact iff_of_true rfl ⟨s, rfl, hrange⟩
  | @filtered ranges filters _ _ hsome hfilters =>
    refine iff_of_false (nomatch ·) fun ⟨s, hsteps, hrange⟩ => ?_
    obtain ⟨t, ht⟩ := List.exists_mem_of_ne_nil filters hsome
    have hmem : t ∈ [s] := hsteps ▸ List.mem_append_right ranges ht
    have hfilter := hfilters t ht
    rw [List.mem_singleton.mp hmem, hrange] at hfilter
    exact nomatch hfilter

end Course

/-! ### The protocol -/

/-- **The order of a chain's steps, and what it decides.** Steps that succeed are at most one range and then
filters, and the stage says which of them there are. A range succeeds exactly on a chain without steps, on an
index with a sort key, if what it writes over the facets of the chain is of the kinds of its attributes and
leaves the partition key as it is. The parameters are those of the start, with the range that was asked
for, or else the beginning that the facets of the chain compose; whatever steps come after. -/
theorem run_protocol {s : Schema} {e : Entity} (he : Entity.ofSchema s = .ok e) {index : Index}
    (hindex : index ∈ e.registry.indexes) {facets : Facets} {q₀ q : Query} {steps : List Step}
    (hstart : start e index facets = .ok q₀) (hrun : q₀.run steps = .ok q) :
    (∃ ranges filters, steps = ranges ++ filters ∧ ranges.length ≤ 1 ∧ (∀ s ∈ ranges, s.isFilter = false) ∧
        ∀ s ∈ filters, s.isFilter = true) ∧
      (q.stage = .seeded ↔ steps = []) ∧
      (q.stage = .ranged ↔ ∃ s, steps = [s] ∧ s.isFilter = false) ∧
      (q.stage = .filtered ↔ ∃ s ∈ steps, s.isFilter = true) ∧
      (∀ s : Step, s.isFilter = false → ((∃ q', q.step s = .ok q') ↔
        q.stage = .seeded ∧ index.sort.isSome = true ∧
          ∀ input ∈ s.partials, ∃ given, Facets.ofJson input = .ok given ∧ e.Typed given ∧
            e.registry.partitionKey index (facets.override given) = e.registry.partitionKey index facets)) ∧
      ∃ pk sk range, e.registry.compose index.id facets [facets] = .ok ⟨pk, [sk]⟩ ∧
        (∀ s ∈ steps, s.isFilter = false → s.Asks e index facets range) ∧
        ((∀ s ∈ steps, s.isFilter = true) → range = .beginsWith sk) ∧
        q.params.table = e.table ∧ q.params.index = (if index.isPrimary then none else some index.id) ∧
        q.params.key.Resolves q.params.names q.params.values index pk range := by
  have hget := (Entity.accepted_of_ofSchema he).get_of_mem hindex
  have hreached := (Reached.start hstart).run hrun
  have hkey := key_of_run hstart hrun
  obtain ⟨-, hq₀⟩ := start_ok hstart
  have hcourse : Course q.stage ([] ++ steps) := Course.run (hq₀ ▸ .seeded) hrun
  refine ⟨hcourse.ordered, hcourse.seeded_iff, hcourse.ranged_iff, hcourse.filtered_iff, fun s hrange => ?_,
    _, _, _, Registry.compose_of_get hget facets [facets], fun s hs hrange => ?_, fun hfilters => ?_, ?_, ?_, hkey⟩
  · rw [exists_step_iff hrange, rangeFault?_eq_none_iff, and_assoc, hreached.index]
    simp only [boundOf_ok_iff, hreached.entity, hreached.index, hreached.facets, hreached.partitionKey]
    subst hq₀
    refine and_congr_right fun _ => and_congr_right fun _ => forall₂_congr fun input _ => ?_
    constructor
    · rintro ⟨bound, given, hofJson, htyped, hpartition, -⟩
      exact ⟨given, hofJson, htyped, hpartition⟩
    · rintro ⟨given, hofJson, htyped, hpartition⟩
      exact ⟨_, given, hofJson, htyped, hpartition, rfl⟩
  · obtain ⟨-, range, hput, hfind⟩ := range_of_mem hstart hrun hs hrange
    rw [hfind, Option.getD_some]
    subst hq₀
    exact Step.asks_of_range? hget rfl hput
  · rw [List.findSome?_eq_none_iff.mpr fun s hs => s.range?_of_isFilter (hfilters s hs) q₀, Option.getD_none]
  · show q.entity.table = e.table
    rw [hreached.entity, hq₀]
  · show (if q.index.isPrimary then none else some q.index.id) = _
    rw [index_of_run hstart hrun]

/-- A range on the floors of a building, and a filter behind it. -/
def floorSteps : List Step :=
  [.between (.object [("floor", .string "1")]) (.object [("floor", .string "3")]), .filter (.eq "note" (.string "x"))]

/-- The theorem for these steps: the chain is filtered, and asks for the floors that its range asks for. -/
theorem run_protocol_floors : ∃ e index q₀ q, Entity.ofSchema rooms = .ok e ∧ index ∈ e.registry.indexes ∧
    start e index (.ofList [("building", .string "A")]) = .ok q₀ ∧ q₀.run floorSteps = .ok q ∧
    q.stage = .filtered ∧
    q.params.key.Resolves q.params.names q.params.values index "$s_1#building_A"
      (.between "$room#floor_1" "$room#floor_3") := by
  let building : Index := ⟨"gsi1", "building", ⟨"gsi1pk", ["building"]⟩, some ⟨"gsi1sk", ["floor", "id"]⟩⟩
  obtain ⟨-, -, -, hfiltered, -, pk, sk, range, hstart, hasks, -, -, -, hkey⟩ :=
    @run_protocol rooms _ rfl building (by decide) (.ofList [("building", .string "A")]) _ _ floorSteps rfl rfl
  obtain ⟨rfl, -⟩ := ComposedKey.mk.inj (Except.ok.inj hstart)
  have hrange : range = .between "$room#floor_1" "$room#floor_3" := by
    cases hasks _ (List.mem_cons_self ..) rfl with
    | between hlow hhigh =>
      obtain ⟨given, hgiven, hlower⟩ := hlow
      obtain ⟨given', hgiven', hupper⟩ := hhigh
      obtain rfl := Except.ok.inj hgiven
      obtain rfl := Except.ok.inj hgiven'
      obtain ⟨-, hlower⟩ := ComposedKey.mk.inj (Except.ok.inj hlower)
      obtain ⟨-, hupper⟩ := ComposedKey.mk.inj (Except.ok.inj hupper)
      rw [← (List.cons.inj hlower).1, ← (List.cons.inj hupper).1]
      rfl
  refine ⟨_, building, _, _, rfl, by decide, rfl, rfl, hfiltered.mpr ?_, hrange ▸ hkey⟩
  exact ⟨_, List.mem_cons_of_mem _ (List.mem_singleton_self _), rfl⟩

end Query

end SingleTable
