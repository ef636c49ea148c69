import Mathlib.Data.Prod.Lex
import SingleTable.Index.Route
import SingleTable.Proofs.Entity.Accepted

/-! Which index is chosen.

A candidate is an index whose partition facets are all supplied, with the longest supplied run of its
sort facets. Candidates are ranked: more facets before fewer, of as many a secondary index before the
primary one, and then the one that is declared first. Ranks are in a linear order and no two places
have the same, so one candidate is before all others, and `bestMatch_first` says that it is the one
chosen, whatever the order in which names are supplied. -/
namespace SingleTable

/-! ### Candidates -/

namespace Index

/-- All partition facets of the index are supplied. -/
def Viable (supplied : List String) (i : Index) : Prop := ∀ name ∈ i.partition.facets, name ∈ supplied

instance (supplied : List String) (i : Index) : Decidable (i.Viable supplied) :=
  inferInstanceAs (Decidable (∀ name ∈ i.partition.facets, name ∈ supplied))

/-- The longest beginning of the sort facets of an index that is supplied. -/
structure Run (supplied : List String) (i : Index) (run : List String) : Prop where
  begins : run <+: i.sortFacets
  known : ∀ name ∈ run, name ∈ supplied
  longest : ∀ other, other <+: i.sortFacets → (∀ name ∈ other, name ∈ supplied) → other.length ≤ run.length

end Index

/-- What an index can serve of the supplied names. -/
structure Candidate (indexes : List Index) (supplied : List String) where
  place : Nat
  index : Index
  run : List String
  declared : indexes[place]? = some index
  viable : index.Viable supplied
  matched : index.Run supplied run

namespace Candidate

variable {indexes : List Index} {supplied : List String}

def score (c : Candidate indexes supplied) : Nat := c.index.partition.facets.length + c.run.length

/-- The least rank goes first: by the score from the highest down, secondary indexes before the primary
one, and by the place. -/
def rank (c : Candidate indexes supplied) : ℕᵒᵈ ×ₗ Bool ×ₗ ℕ :=
  toLex (OrderDual.toDual c.score, toLex (c.index.isPrimary, c.place))

def keys (c : Candidate indexes supplied) : List (String × KeyRole) :=
  c.index.partition.facets.map (·, .partition) ++ c.run.map (·, .sort)

end Candidate

/-! ### Runs -/

namespace Index.Run

variable {supplied : List String} {i : Index} {run run' : List String}

theorem takeWhile (supplied : List String) (i : Index) : i.Run supplied (i.sortFacets.takeWhile (· ∈ supplied)) := by
  refine ⟨List.takeWhile_prefix _, fun name hname => ?_, fun other hbegins hsupplied => ?_⟩
  · exact of_decide_eq_true (List.all_eq_true.mp List.all_takeWhile name hname)
  · obtain ⟨rest, hrest⟩ := hbegins
    rw [← hrest, List.takeWhile_append_of_pos fun name hname => decide_eq_true (hsupplied name hname),
      List.length_append]
    exact Nat.le_add_right _ _

/-- There is one longest run. -/
theorem unique (h : i.Run supplied run) (h' : i.Run supplied run') : run = run' := by
  have hlength : run.length = run'.length :=
    Nat.le_antisymm (h'.longest run h.begins h.known) (h.longest run' h'.begins h'.known)
  exact (List.prefix_of_prefix_length_le h.begins h'.begins hlength.le).eq_of_length hlength

end Index.Run

/-! ### Routes -/

namespace Route

variable {supplied : List String}

/-- A route is an index that is viable, with its run. -/
theorem of?_eq_some_iff {i : Index} {r : Route} :
    of? supplied i = some r ↔ r.index = i ∧ i.Viable supplied ∧ i.Run supplied r.sortFacets := by
  have hviable : (i.partition.facets.all (· ∈ supplied)) = true ↔ i.Viable supplied := by
    simp [Index.Viable]
  unfold of?
  constructor
  · intro h
    split at h
    · next hall =>
      obtain rfl := Option.some.inj h
      exact ⟨rfl, hviable.mp hall, .takeWhile supplied i⟩
    · exact nomatch h
  · rintro ⟨rfl, hall, hrun⟩
    rw [if_pos (hviable.mpr hall), (Index.Run.takeWhile supplied r.index).unique hrun]

/-- What a route is chosen by, apart from where it is declared. -/
def merit (r : Route) : ℕ ×ₗ Bool := toLex (r.score, !r.index.isPrimary)

theorem outranks_iff {r earlier : Route} : r.outranks earlier = true ↔ earlier.merit < r.merit := by
  rw [outranks, merit, merit, Prod.Lex.toLex_lt_toLex, Bool.or_eq_true, Bool.and_eq_true, Bool.and_eq_true]
  cases earlier.index.isPrimary <;> cases r.index.isPrimary <;> simp

/-- **The best route is better than all before it, and as good as any behind it.** -/
theorem best?_split {routes : List Route} {r : Route} (h : best? routes = some r) :
    ∃ before after, routes = before ++ r :: after ∧ (∀ other ∈ before, other.merit < r.merit) ∧
      ∀ other ∈ after, other.merit ≤ r.merit := by
  induction routes generalizing r with
  | nil => exact nomatch h
  | cons head rest ih =>
    rw [best?] at h
    cases hrest : best? rest with
    | none =>
      rw [hrest] at h
      obtain rfl := Option.some.inj h
      obtain rfl := best?_eq_none_iff.mp hrest
      exact ⟨[], [], rfl, List.forall_mem_nil _, List.forall_mem_nil _⟩
    | some later =>
      rw [hrest] at h
      obtain ⟨before, after, rfl, hbefore, hafter⟩ := ih hrest
      obtain rfl := Option.some.inj h
      split
      · next houtranks =>
        refine ⟨head :: before, after, rfl, ?_, hafter⟩
        exact List.forall_mem_cons.mpr ⟨outranks_iff.mp houtranks, hbefore⟩
      · next hstays =>
        -- nothing in the rest is better than the best of it, which does not outrank the head
        have hle : later.merit ≤ head.merit := not_lt.mp fun hlt => hstays (outranks_iff.mpr hlt)
        refine ⟨[], before ++ later :: after, rfl, List.forall_mem_nil _, fun other hother => ?_⟩
        rcases List.mem_append.mp hother with hmem | hmem
        · exact (hbefore other hmem).le.trans hle
        · rcases List.mem_cons.mp hmem with rfl | hmem
          · exact hle
          · exact (hafter other hmem).trans hle

end Route

namespace Registry

variable {r : Registry} {supplied : List String}

/-- A route is chosen unless no index is viable. -/
theorem route?_eq_none_iff : r.route? supplied = none ↔ ∀ i ∈ r.indexes, ¬ i.Viable supplied := by
  rw [route?, Route.best?_eq_none_iff, List.filterMap_eq_nil_iff]
  refine forall₂_congr fun i _ => ?_
  rw [← Option.not_isSome_iff_eq_none, not_iff_not, Option.isSome_iff_exists]
  simp only [Route.of?_eq_some_iff]
  constructor
  · rintro ⟨route, -, hviable, -⟩
    exact hviable
  · intro hviable
    exact ⟨⟨i, _⟩, rfl, hviable, .takeWhile supplied i⟩

/-- The chosen index stands among the declared ones. -/
theorem route?_split {route : Route} (h : r.route? supplied = some route) :
    ∃ before after, r.indexes = before ++ route.index :: after ∧ Route.of? supplied route.index = some route ∧
      (∀ i ∈ before, ∀ other, Route.of? supplied i = some other → other.merit < route.merit) ∧
      ∀ i ∈ after, ∀ other, Route.of? supplied i = some other → other.merit ≤ route.merit := by
  obtain ⟨worse, others, hroutes, hworse, hothers⟩ := Route.best?_split h
  obtain ⟨first, rest, hindexes, rfl, hrest⟩ := List.filterMap_eq_append_iff.mp hroutes
  obtain ⟨skipped, i, after, rfl, hskipped, hroute, rfl⟩ := List.filterMap_eq_cons_iff.mp hrest
  obtain rfl := (Route.of?_eq_some_iff.mp hroute).1
  refine ⟨first ++ skipped, after, ?_, hroute, fun i hi other hother => ?_, fun i hi other hother => ?_⟩
  · rw [hindexes, List.append_assoc]
  · rcases List.mem_append.mp hi with hi | hi
    · exact hworse other (List.mem_filterMap.mpr ⟨i, hi, hother⟩)
    · rw [hskipped i hi] at hother
      exact nomatch hother
  · exact hothers other (List.mem_filterMap.mpr ⟨i, hi, hother⟩)

end Registry

namespace Candidate

variable {indexes : List Index} {supplied : List String}

def route (c : Candidate indexes supplied) : Route := ⟨c.index, c.run⟩

theorem of?_index (c : Candidate indexes supplied) : Route.of? supplied c.index = some c.route :=
  Route.of?_eq_some_iff.mpr ⟨rfl, c.viable, c.matched⟩

theorem rank_lt_iff {c other : Candidate indexes supplied} :
    c.rank < other.rank ↔
      other.route.merit < c.route.merit ∨ other.route.merit = c.route.merit ∧ c.place < other.place := by
  rw [rank, rank, Route.merit, Route.merit, Prod.Lex.toLex_lt_toLex, Prod.Lex.toLex_lt_toLex, Prod.Lex.toLex_lt_toLex]
  have hscore (d : Candidate indexes supplied) : d.route.score = d.score := rfl
  have hindex (d : Candidate indexes supplied) : d.route.index = d.index := rfl
  simp only [hscore, hindex, OrderDual.toDual_lt_toDual, EmbeddingLike.apply_eq_iff_eq, Prod.mk.injEq]
  cases c.index.isPrimary <;> cases other.index.isPrimary <;> simp [@eq_comm _ c.score]

end Candidate

/-- Where an element of a list stands, to one that the list is split at. -/
theorem side_of_getElem? {α : Type} {list before after : List α} {a b : α} (hlist : list = before ++ a :: after)
    {n : Nat} (h : list[n]? = some b) :
    n < before.length ∧ b ∈ before ∨ n = before.length ∧ b = a ∨ before.length < n ∧ b ∈ after := by
  subst hlist
  rcases Nat.lt_trichotomy n before.length with hless | rfl | hmore
  · rw [List.getElem?_append_left hless] at h
    exact .inl ⟨hless, List.mem_of_getElem? h⟩
  · rw [List.getElem?_append_right (Nat.le_refl _), Nat.sub_self, List.getElem?_cons_zero] at h
    exact .inr (.inl ⟨rfl, (Option.some.inj h).symm⟩)
  · obtain ⟨behind, rfl⟩ := Nat.exists_eq_add_of_lt hmore
    rw [List.getElem?_append_right hmore.le, Nat.add_assoc, Nat.add_sub_cancel_left, List.getElem?_cons_succ] at h
    exact .inr (.inr ⟨hmore, List.mem_of_getElem? h⟩)

/-- **The chosen index is the candidate that goes first.** -/
theorem Registry.exists_first {r : Registry} {supplied : List String} {route : Route}
    (h : r.route? supplied = some route) :
    ∃ c : Candidate r.indexes supplied, c.route = route ∧
      ∀ other : Candidate r.indexes supplied, other.place ≠ c.place → c.rank < other.rank := by
  obtain ⟨before, after, hindexes, hroute, hbefore, hafter⟩ := route?_split h
  obtain ⟨-, hviable, hrun⟩ := Route.of?_eq_some_iff.mp hroute
  have hplace : r.indexes[before.length]? = some route.index := by
    rw [hindexes, List.getElem?_append_right (Nat.le_refl _), Nat.sub_self, List.getElem?_cons_zero]
  refine ⟨⟨before.length, route.index, route.sortFacets, hplace, hviable, hrun⟩, rfl, fun other hother => ?_⟩
  rw [Candidate.rank_lt_iff]
  rcases side_of_getElem? hindexes other.declared with ⟨-, hmem⟩ | ⟨hsame, -⟩ | ⟨hmore, hmem⟩
  · exact .inl (hbefore _ hmem _ other.of?_index)
  · exact absurd hsame hother
  · exact (hafter _ hmem _ other.of?_index).lt_or_eq.imp_right fun heq => ⟨heq, hmore⟩

/-! ### Registries -/

namespace Registry

/-- Indexes of a registry have partition facets, and none of their facets twice. -/
theorem facets_of_build {partitionScope sortScope : String} {indexes : List Index} {r : Registry}
    (h : build partitionScope sortScope indexes = .ok r) :
    ∀ i ∈ indexes, i.partition.facets ≠ [] ∧ i.facetNames.Nodup := by
  unfold build at h
  split at h
  · exact nomatch h
  · next hfault => exact (Index.firstFault?_eq_none_iff.mp hfault).2.2

/-- Names that are supplied in another order, or more than once, are matched alike. -/
theorem bestMatch_congr (r : Registry) {names supplied : List String} (h : ∀ name, name ∈ names ↔ name ∈ supplied) :
    r.bestMatch names = r.bestMatch supplied := by
  have hroute : Route.of? names = Route.of? supplied := by
    funext i
    simp only [Route.of?, h]
  rw [bestMatch, bestMatch, route?, route?, hroute]

/-- **The index that goes first is chosen.** -/
theorem bestMatch_first {partitionScope sortScope : String} {indexes : List Index} {r : Registry}
    (hr : build partitionScope sortScope indexes = .ok r) (supplied : List String) :
    ((r.bestMatch supplied).keys = [] ↔ ∀ i ∈ indexes, ¬ i.Viable supplied) ∧
      ((r.bestMatch supplied).keys = [] → (r.bestMatch supplied).index = "") ∧
      ((∃ i ∈ indexes, i.Viable supplied) → ∃ c : Candidate indexes supplied,
        (∀ other : Candidate indexes supplied, other.place ≠ c.place → c.rank < other.rank) ∧
        r.get c.index.id = .ok c.index ∧ r.bestMatch supplied = ⟨c.index.id, c.keys⟩) ∧
      ∀ names, (∀ name, name ∈ names ↔ name ∈ supplied) → r.bestMatch names = r.bestMatch supplied := by
  obtain ⟨⟨-, -, rfl⟩, hids, -, -⟩ := build_ok hr
  cases hroute : r.route? supplied with
  | none =>
    have hnone : r.bestMatch supplied = ⟨"", []⟩ := by rw [bestMatch, hroute]
    have hviable := route?_eq_none_iff.mp hroute
    rw [hnone]
    refine ⟨iff_of_true rfl hviable, fun _ => rfl, fun ⟨i, hi, h⟩ => absurd h (hviable i hi), fun names hnames => ?_⟩
    rw [r.bestMatch_congr hnames, hnone]
  | some route =>
    obtain ⟨c, rfl, hfirst⟩ := exists_first hroute
    have hchosen : r.bestMatch supplied = ⟨c.index.id, c.keys⟩ := by
      rw [bestMatch, hroute]
      rfl
    have hindex := List.mem_of_getElem? c.declared
    have hkeys : c.keys ≠ [] := by
      obtain ⟨name, hname⟩ := List.exists_mem_of_ne_nil _ (facets_of_build hr c.index hindex).1
      exact List.ne_nil_of_mem (List.mem_append_left _ (List.mem_map_of_mem hname))
    rw [hchosen]
    refine ⟨iff_of_false hkeys fun h => h c.index hindex c.viable, fun h => absurd h hkeys,
      fun _ => ⟨c, hfirst, ?_, rfl⟩, fun names hnames => ?_⟩
    · rw [get, find?_of_nodup_map hids hindex]
    · rw [r.bestMatch_congr hnames, hchosen]

/-- An index for each of two names, and one for both that a gap keeps from serving the second. -/
def tiedIndexes : List Index :=
  [⟨"", "byA", ⟨"pk", ["a"]⟩, none⟩, ⟨"gsi1", "byB", ⟨"gsi1pk", ["b"]⟩, none⟩,
    ⟨"gsi2", "byGap", ⟨"gsi2pk", ["b"]⟩, some ⟨"gsi2sk", ["c", "a"]⟩⟩]

/-- The theorem for names that all three indexes match one of: the first secondary index is chosen. -/
theorem bestMatch_first_tied : ∃ r, build "$s_1" "$e" tiedIndexes = .ok r ∧
    (∃ c : Candidate tiedIndexes ["a", "b", "a"], c.index.id = "gsi1" ∧ c.keys = [("b", .partition)] ∧
      ∀ other : Candidate tiedIndexes ["a", "b", "a"], other.place ≠ c.place → c.rank < other.rank) ∧
    r.bestMatch ["b", "a"] = r.bestMatch ["a", "b", "a"] := by
  obtain ⟨-, -, hfirst, hset⟩ := @bestMatch_first "$s_1" "$e" tiedIndexes _ rfl ["a", "b", "a"]
  obtain ⟨c, hrank, -, hchosen⟩ := hfirst ⟨_, List.mem_cons_self .., by decide⟩
  obtain ⟨hid, hkeys⟩ := IndexMatch.mk.inj hchosen
  exact ⟨_, rfl, ⟨c, hid.symm, hkeys.symm, hrank⟩, hset _ (by simp)⟩

end Registry

end SingleTable
