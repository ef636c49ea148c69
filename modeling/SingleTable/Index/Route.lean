import SingleTable.Index.Basic

/-! Choosing an index for the names a caller can supply.

An index is viable when all its partition facets are supplied. It matches these
and the longest supplied run of its sort facets from the first on. The viable
index with the most matched facets is chosen; of several, a secondary index
before the primary one, and then the one declared first. -/
namespace SingleTable

/-- An index with the sort facets that it matches. -/
structure Route where
  index : Index
  sortFacets : List String
deriving DecidableEq

namespace Route

def of? (supplied : List String) (i : Index) : Option Route :=
  if i.partition.facets.all (· ∈ supplied) then
    some ⟨i, i.sortFacets.takeWhile (· ∈ supplied)⟩
  else none

def score (r : Route) : Nat := r.index.partition.facets.length + r.sortFacets.length

/-- Whether `r` is to be chosen although `earlier` is declared before it. -/
def outranks (r earlier : Route) : Bool :=
  earlier.score < r.score ||
    (earlier.score == r.score && earlier.index.isPrimary && !r.index.isPrimary)

/-- The one to choose among routes in declaration order. -/
def best? : List Route → Option Route
  | [] => none
  | r :: rest =>
    match best? rest with
    | some later => some (if later.outranks r then later else r)
    | none => some r

theorem best?_mem {routes : List Route} {r : Route} (h : best? routes = some r) : r ∈ routes := by
  induction routes generalizing r with
  | nil => simp [best?] at h
  | cons head rest ih =>
    rw [best?] at h
    split at h
    · next later hlater =>
      split at h
      · exact List.mem_cons_of_mem _ (ih (by rw [hlater, h]))
      · exact Option.some.inj h ▸ List.mem_cons_self ..
    · exact Option.some.inj h ▸ List.mem_cons_self ..

theorem best?_eq_none_iff {routes : List Route} : best? routes = none ↔ routes = [] := by
  cases routes with
  | nil => simp [best?]
  | cons head rest =>
    rw [best?]
    split <;> simp

def facets (r : Route) : List String := r.index.partition.facets ++ r.sortFacets

def keys (r : Route) : List (String × KeyRole) :=
  r.index.partition.facets.map (·, .partition) ++ r.sortFacets.map (·, .sort)

end Route

def Registry.route? (r : Registry) (supplied : List String) : Option Route :=
  Route.best? (r.indexes.filterMap (Route.of? supplied))

/-- The answer to a choice: the identifier of the index and what it matches. The primary index
has an empty identifier too, but always matches something. -/
structure IndexMatch where
  index : String
  keys : List (String × KeyRole)
deriving DecidableEq

def Registry.bestMatch (r : Registry) (supplied : List String) : IndexMatch :=
  match r.route? supplied with
  | some route => ⟨route.index.id, route.keys⟩
  | none => ⟨"", []⟩

end SingleTable
