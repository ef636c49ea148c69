import SingleTable.Entity

/-! Query chains.

A chain starts on one index with all its partition facets. At most one range may
be put on the sort key, and only before any filter; filters may follow in any
number. -/
namespace SingleTable

inductive Stage where
  | seeded
  | ranged
  | filtered
deriving DecidableEq

def Stage.name : Stage → String
  | .seeded => "Seeded"
  | .ranged => "Ranged"
  | .filtered => "Filtered"

inductive Comparison where
  | gt
  | gte
  | lt
  | lte
deriving DecidableEq

def Comparison.symbol : Comparison → String
  | .gt => ">"
  | .gte => ">="
  | .lt => "<"
  | .lte => "<="

/-- What is asked of the sort key. -/
inductive SortRange where
  | beginsWith (start : String)
  | between (low high : String)
  | compare (comparison : Comparison) (bound : String)
deriving DecidableEq

structure Query where
  entity : Entity
  index : Index
  facets : Facets
  partitionKey : String
  range : Option SortRange
  clauses : Clauses
  stage : Stage

namespace Query

def start (entity : Entity) (index : Index) (facets : Facets) : Except Fault Query :=
  match facets.require index.partition.facets Entity.partitionLabel with
  | .error fault => .error fault
  | .ok _ =>
    .ok ⟨entity, index, facets, entity.registry.partitionKey index facets, none, .empty, .seeded⟩

/-! ### Ranges -/

/-- Why a range cannot be put on the chain now, if it cannot. -/
def rangeFault? (q : Query) : Option ChainFault :=
  match q.stage with
  | .seeded => if q.index.sort.isNone then some (.noSortKey q.index.name) else none
  | .ranged => some .secondRange
  | .filtered => some .rangeAfterFilter

/-- The sort key of the chain's facets with a partial map written over them; it
must leave the partition key as it is. -/
def boundOf (q : Query) (partialFacets : Json) : Except Fault String :=
  match q.entity.facets partialFacets with
  | .error fault => .error fault
  | .ok given =>
    let facets := q.facets.override given
    if q.entity.registry.partitionKey q.index facets = q.partitionKey then
      .ok (q.entity.registry.sortKey q.index facets)
    else .error (.chain (.partitionChanged q.index.name))

def withRange (q : Query) (range : SortRange) : Query := { q with range := some range, stage := .ranged }

def compare (q : Query) (comparison : Comparison) (partialFacets : Json) : Except Fault Query :=
  match q.rangeFault? with
  | some fault => .error (.chain fault)
  | none => (q.boundOf partialFacets).map fun bound => q.withRange (.compare comparison bound)

def beginsWith (q : Query) (partialFacets : Json) : Except Fault Query :=
  match q.rangeFault? with
  | some fault => .error (.chain fault)
  | none => (q.boundOf partialFacets).map fun start => q.withRange (.beginsWith start)

def between (q : Query) (low high : Json) : Except Fault Query :=
  match q.rangeFault? with
  | some fault => .error (.chain fault)
  | none =>
    match q.boundOf low with
    | .error fault => .error fault
    | .ok low => (q.boundOf high).map fun high => q.withRange (.between low high)

/-- The range of the chain: the start that its facets compose, if none was put on it. -/
def sortRange (q : Query) : SortRange :=
  q.range.getD (.beginsWith (q.entity.registry.sortKey q.index q.facets))

/-! ### Filters -/

/-- Add a clause. The chain is filtered even if the condition makes no test. -/
def filter (q : Query) (condition : Condition) : Except Fault Query :=
  (q.clauses.apply q.entity.surface condition).map fun clauses =>
    { q with clauses := clauses, stage := .filtered }

/-- Add the clause of a filter that the schema registers. -/
def named (q : Query) (name : String) (arguments : List Json) : Except Fault Query :=
  match q.entity.filters.get? name with
  | none => .error (.chain (.unknownFilter name))
  | some f => q.filter (f q.entity.surface arguments)

end Query

/-- A chain on the index that serves an access pattern. -/
def Entity.query (e : Entity) (pattern : String) (input : Json) : Except Fault Query :=
  match e.registry.byName pattern with
  | .error fault => .error fault
  | .ok index =>
    match e.facets input with
    | .error fault => .error fault
    | .ok facets => Query.start e index facets

end SingleTable
