import SingleTable.Proofs.Condition.Clauses
import SingleTable.Proofs.Expression.Candidate
import SingleTable.Proofs.Item.Update

/-! The request of an update as the store reads it.

The placeholders of what is set are made from names of attributes and of key fields, those
of the conditions from names of attributes and numbers; they live in the same two maps, and
an attribute may be named like a key field or like another attribute with a number. Still
every assignment looks up to its field and its new value, every test to its field and its
operands, no two values share a placeholder, and the maps hold exactly what the expressions
use: `Update.request_closed`. -/
namespace SingleTable

open Grammar (IsName)

/-! ### The text of the assignments -/

/-- Both placeholders of an assignment are one token each. -/
structure Assignment.Spelled (a : Assignment) : Prop where
  name : Grammar.tokens a.name.toList = [.name a.name]
  value : Grammar.tokens a.value.toList = [.value a.value]

def Assignment.tokens (a : Assignment) : List Grammar.Token := [.name a.name, .comparator .eq, .value a.value]

theorem Assignment.Spelled.tokens_text {a : Assignment} (h : a.Spelled) :
    Grammar.tokens a.text.toList = a.tokens := by
  have htext : a.text.toList = a.name.toList ++ ' ' :: ("=".toList ++ ' ' :: a.value.toList) := by
    simp [Assignment.text]
  have hequals : Grammar.tokens "=".toList = [.comparator .eq] := by decide
  rw [htext, Grammar.tokens_append_word, h.name, hequals, h.value]
  rfl

/-- Assignments are read one by one, with commas between them. -/
theorem tokens_assignments {assignments : List Assignment} (h : ∀ a ∈ assignments, a.Spelled) :
    Grammar.tokens (", ".intercalate (assignments.map Assignment.text)).toList =
      [Grammar.Token.comma].intercalate (assignments.map Assignment.tokens) := by
  induction assignments with
  | nil => rfl
  | cons a rest ih =>
    obtain ⟨hfirst, hrest⟩ := List.forall_mem_cons.mp h
    cases rest with
    | nil =>
      show Grammar.tokens (", ".intercalate [a.text]).toList = [Grammar.Token.comma].intercalate [a.tokens]
      rw [String.intercalate_singleton, hfirst.tokens_text, List.intercalate_singleton]
    | cons b others =>
      have hothers := ih hrest
      have htext : (", ".intercalate ((a :: b :: others).map Assignment.text)).toList =
          a.text.toList ++ ',' :: ([] ++ ' ' :: (", ".intercalate ((b :: others).map Assignment.text)).toList) := by
        simp [String.intercalate_cons_cons]
      rw [htext, Grammar.tokens_append_comma, Grammar.tokens_append_blank, Grammar.tokens_nil, List.nil_append,
        hothers, hfirst.tokens_text, List.map_cons, List.map_cons, List.map_cons, List.intercalate_cons_cons,
        List.append_assoc]
      rfl

theorem UpdateParams.tokens_expression {p : UpdateParams} (h : ∀ a ∈ p.assignments, a.Spelled) :
    Grammar.tokens p.expression.toList =
      .unknown "SET".toList :: [Grammar.Token.comma].intercalate (p.assignments.map Assignment.tokens) := by
  have htext : p.expression.toList =
      "SET".toList ++ ' ' :: (", ".intercalate (p.assignments.map Assignment.text)).toList := by
    simp [UpdateParams.expression]
  have hset : Grammar.tokens "SET".toList = [.unknown "SET".toList] := by decide
  rw [htext, Grammar.tokens_append_blank, hset, tokens_assignments h]
  rfl

/-- The placeholders in the assignments are their own. -/
theorem filterMap_assignments (assignments : List Assignment) :
    ([Grammar.Token.comma].intercalate (assignments.map Assignment.tokens)).filterMap Grammar.Token.name? =
        assignments.map Assignment.name ∧
      ([Grammar.Token.comma].intercalate (assignments.map Assignment.tokens)).filterMap Grammar.Token.value? =
        assignments.map Assignment.value := by
  induction assignments with
  | nil => exact ⟨rfl, rfl⟩
  | cons a rest ih =>
    cases rest with
    | nil => exact ⟨rfl, rfl⟩
    | cons b others =>
      rw [List.map_cons, List.map_cons, List.intercalate_cons_cons, ← List.map_cons, List.filterMap_append,
        List.filterMap_append, List.filterMap_append, List.filterMap_append, ih.1, ih.2]
      exact ⟨rfl, rfl⟩

/-- The tokens of both expressions of an update. -/
def UpdateParams.tokens (p : UpdateParams) : List Grammar.Token :=
  Grammar.tokens p.expression.toList ++
    p.expressions.condition.toList.flatMap fun phrase => Grammar.tokens phrase.text.toList

namespace Update

/-! ### What assigning binds -/

section Assign

variable {taken : Bindings} {writes : List (String × String × Json)} {names names' : Dict String}
  {values values' : Dict Json} {assignments : List Assignment}

/-- Writes for proper names are spelled. -/
theorem assign_spelled (h : assign taken writes names values = (assignments, names', values'))
    (hwrites : ∀ write ∈ writes, IsName write.1) : ∀ a ∈ assignments, a.Spelled := by
  induction writes generalizing names values assignments with
  | nil =>
    obtain ⟨rfl, -⟩ := Prod.mk.inj h
    exact fun a ha => nomatch ha
  | cons write rest ih =>
    obtain ⟨identifier, field, value⟩ := write
    obtain ⟨name, names₁, placeholder, values₁, others, hname, hvalue, hrest, rfl⟩ := assign_cons h
    obtain ⟨hidentifier, hwrites⟩ := List.forall_mem_cons.mp hwrites
    rw [List.forall_mem_cons]
    exact ⟨⟨Placeholder.tokens_bindName identifier hidentifier hname,
      Placeholder.tokens_bindValue identifier hidentifier hvalue⟩, ih hrest hwrites⟩

/-- Assigning contradicts no name that is taken. -/
theorem assign_agrees (h : assign taken writes names values = (assignments, names', values'))
    (hagrees : names.Agrees taken.names) : names'.Agrees taken.names := by
  induction writes generalizing names values assignments with
  | nil =>
    obtain ⟨-, hnames⟩ := Prod.mk.inj h
    obtain ⟨rfl, -⟩ := Prod.mk.inj hnames
    exact hagrees
  | cons write rest ih =>
    obtain ⟨identifier, field, value⟩ := write
    obtain ⟨name, names₁, placeholder, values₁, others, hname, -, hrest, rfl⟩ := assign_cons h
    obtain ⟨-, -, hagrees₁⟩ := bindName_agrees hname hagrees
    exact ih hrest hagrees₁

/-- **Assigning binds the placeholders of the assignments and no others**, those of values to the end
and none that is taken. -/
theorem assign_keys (h : assign taken writes names values = (assignments, names', values')) :
    (∀ p, p ∈ names'.keys ↔ p ∈ names.keys ∨ p ∈ assignments.map Assignment.name) ∧
      values'.keys = values.keys ++ assignments.map Assignment.value ∧
      ∀ p ∈ assignments.map Assignment.value, p ∉ taken.values.keys := by
  induction writes generalizing names values assignments with
  | nil =>
    simp only [assign, Prod.mk.injEq] at h
    obtain ⟨rfl, rfl, rfl⟩ := h
    exact ⟨fun p => (or_iff_left List.not_mem_nil).symm, (List.append_nil _).symm, fun p hp => absurd hp List.not_mem_nil⟩
  | cons write rest ih =>
    obtain ⟨identifier, field, value⟩ := write
    obtain ⟨name, names₁, placeholder, values₁, others, hname, hvalue, hrest, rfl⟩ := assign_cons h
    obtain ⟨hnames, hvalues, htaken⟩ := ih hrest
    obtain ⟨-, -, hkeys, hfree⟩ := bindValue_keys hvalue
    refine ⟨fun p => ?_, ?_, ?_⟩
    · rw [hnames, (Placeholder.bindName_spec hname).1, Dict.mem_keys_insert, List.map_cons, List.mem_cons, or_assoc,
        or_left_comm]
    · rw [hvalues, hkeys, List.map_cons, List.append_assoc]
      rfl
    · exact List.forall_mem_cons.mpr ⟨hfree, htaken⟩

end Assign

/-- What is written for an attribute or for a key is named by it. -/
theorem isName_writes {u : Update} (he : u.entity.Accepted) (hnames : ∀ name ∈ u.entity.attributes.keys, IsName name)
    (hfields : ∀ i ∈ u.entity.registry.indexes, ∀ key ∈ i.keyFields, IsName key.field) :
    ∀ write ∈ u.writes, IsName write.1 := by
  intro write hwrite
  rcases List.mem_append.mp hwrite with hattribute | hkey
  · obtain ⟨a, ha, hvalue⟩ := List.mem_filterMap.mp hattribute
    obtain ⟨value, -, rfl⟩ := Option.map_eq_some_iff.mp hvalue
    apply hnames a.name
    rw [← he.map_names]
    exact List.mem_map_of_mem ha
  · obtain ⟨entry, hentry, rfl⟩ := List.mem_map.mp hkey
    obtain ⟨i, hi, hindex⟩ := List.mem_flatMap.mp hentry
    rw [u.indexKeys_eq] at hindex
    obtain ⟨key, hrecomposed, rfl⟩ := List.mem_map.mp hindex
    have hscoped := (List.mem_filter.mp hrecomposed).1
    exact hfields i (List.mem_filter.mp hi).1 key.2 (Registry.mem_keyFields_of_scoped hscoped)

/-! ### What steps set and ask for -/

/-- The attribute that an entry sets and its new value: the value given, or the default for a null. -/
def setting? (e : Entity) (entry : String × Json) : Option (String × Json) :=
  (e.attributes.get? entry.1).bind fun a =>
    match a.resolve (some entry.2) with
    | .ok (some value) => some (entry.1, value)
    | _ => none

/-- What a step sets, in order. -/
def Step.settings (e : Entity) : Step → List (String × Json)
  | .set values =>
    match e.facets values with
    | .ok values => values.entries.filterMap (setting? e)
    | .error _ => []
  | .condition _ => []

def Step.conditions : Step → List Condition
  | .set _ => []
  | .condition asked => [asked]

theorem setAll_eq {e : Entity} {entries : List (String × Json)} {set set' : Facets}
    (h : setAll e entries set = .ok set') : set' = set.insertAll (entries.filterMap (setting? e)) := by
  induction entries generalizing set with
  | nil => exact (Except.ok.inj h).symm
  | cons entry rest ih =>
    rw [List.filterMap_cons, setting?]
    rcases setAll_cons_ok h with ⟨hget, hrest⟩ | ⟨a, result, hget, -, hresolve, hrest⟩
    · rw [hget]
      exact ih hrest
    · rw [hget]
      simp only [Option.bind_some, hresolve]
      cases result with
      | none => exact ih hrest
      | some new => exact ih hrest

theorem step_ok {u u' : Update} {s : Step} (h : u.step s = .ok u') :
    u'.entity = u.entity ∧ u'.set = u.set.insertAll (s.settings u.entity) ∧
      u.clauses.applyAll u.entity.surface s.conditions = .ok u'.clauses := by
  cases s with
  | set values =>
    simp only [step, setValues] at h
    split at h
    · cases h
    · next given hgiven =>
      obtain ⟨set, hset, rfl⟩ := Fault.map_ok h
      rw [Step.settings, hgiven]
      exact ⟨rfl, setAll_eq hset, rfl⟩
  | condition condition =>
    obtain ⟨clauses, hclauses, rfl⟩ := Fault.map_ok h
    refine ⟨rfl, rfl, ?_⟩
    rw [Step.conditions, Clauses.applyAll, hclauses]
    rfl

/-- **Steps set their values one over another and apply their conditions**, in whatever order they come. -/
theorem run_ok {u u' : Update} {steps : List Step} (h : u.run steps = .ok u') :
    u'.entity = u.entity ∧ u'.set = u.set.insertAll (steps.flatMap (Step.settings u.entity)) ∧
      u.clauses.applyAll u.entity.surface (steps.flatMap Step.conditions) = .ok u'.clauses := by
  induction steps generalizing u with
  | nil =>
    obtain rfl := Except.ok.inj h
    exact ⟨rfl, rfl, rfl⟩
  | cons s rest ih =>
    obtain ⟨next, hnext, hothers⟩ := run_cons_ok h
    obtain ⟨hentity, hset, hclauses⟩ := step_ok hnext
    obtain ⟨hentity', hset', hclauses'⟩ := ih hothers
    refine ⟨hentity'.trans hentity, ?_, ?_⟩
    · rw [hset', hset, hentity, List.flatMap_cons, Dict.insertAll, Dict.insertAll, Dict.insertAll, List.foldl_append]
    · rw [hentity] at hclauses'
      rw [List.flatMap_cons, Clauses.applyAll_append, hclauses]
      exact hclauses'

/-- An update starts without conditions. -/
theorem clauses_of_update {e : Entity} {address : Json} {u : Update} (h : e.update address = .ok u) :
    u.clauses = .empty := by
  obtain ⟨-, taken, -, -, -, rfl⟩ := Entity.update_ok h
  rfl

/-! ### The request -/

section Request

variable {u : Update} {assignments : List Assignment} {names : Dict String} {values : Dict Json}
  {surface : Surface} {conditions : List Condition}

/-- No two of the values and operands have one placeholder. -/
theorem nodup_placeholders (hassign : assign u.clauses.bindings u.writes .empty .empty = (assignments, names, values))
    (hof : Clauses.Of surface conditions u.clauses) :
    (assignments.map Assignment.value ++ Phrase.placeholders (Phrase.testsOf u.clauses.phrases)).Nodup := by
  obtain ⟨-, hkeys, htaken⟩ := assign_keys hassign
  have hvalues : values.keys = assignments.map Assignment.value := hkeys
  have htests : u.clauses.values.keys = Phrase.placeholders (Phrase.testsOf u.clauses.phrases) := hof.keys
  apply List.nodup_append.mpr
  refine ⟨?_, hof.nodup, ?_⟩
  · rw [← hvalues]
    exact values.nodup
  · rintro a ha b hb rfl
    exact htaken a ha (htests ▸ hb)

/-- The joined maps bind what the assignments and the tests use. -/
theorem mem_keys_request (hassign : assign u.clauses.bindings u.writes .empty .empty = (assignments, names, values))
    (hof : Clauses.Of surface conditions u.clauses) (placeholder : String) :
    (placeholder ∈ (Expressions.join names values u.clauses).names.keys ↔
      placeholder ∈ assignments.map Assignment.name ++ (Phrase.testsOf u.clauses.phrases).map Phrase.Test.name) ∧
    (placeholder ∈ (Expressions.join names values u.clauses).values.keys ↔
      placeholder ∈ assignments.map Assignment.value ++ Phrase.placeholders (Phrase.testsOf u.clauses.phrases)) := by
  obtain ⟨hnames, hvalues, -⟩ := assign_keys hassign
  have hjoin := Expressions.mem_keys_join hof names values placeholder
  rw [Expressions.join_condition, u.clauses.testsOf_phrase?, hnames, hvalues] at hjoin
  rw [List.mem_append, List.mem_append, hjoin.1, hjoin.2]
  exact ⟨or_congr_left (or_iff_right List.not_mem_nil), Iff.rfl⟩

end Request

/-- **The request of an update is closed and captures nothing.** Its assignments look up to the fields and
values that its steps set and to the keys that these change, its condition is the one that the conditions
of its steps compile to and looks up to their fields and operands, no two values share a placeholder, and
the maps bind exactly the placeholders that stand in its expressions. -/
theorem request_closed {s : Schema} {e : Entity} (he : Entity.ofSchema s = .ok e)
    (hnames : ∀ name ∈ e.attributes.keys, IsName name)
    (hfields : ∀ i ∈ e.registry.indexes, ∀ key ∈ i.keyFields, IsName key.field)
    {address : Json} {u₀ u : Update} {steps : List Step} (hupdate : e.update address = .ok u₀)
    (hrun : u₀.run steps = .ok u) (hset : u.set.isEmpty = false) :
    ∃ p clauses, u.params = .ok p ∧
      u.set = .ofList (steps.flatMap (Step.settings e)) ∧
      p.assignments.mapM (Assignment.resolve? p.expressions.names p.expressions.values) =
        some (e.attributeEntries u.set ++ u.writtenKeys) ∧
      Clauses.empty.applyAll e.surface (steps.flatMap Step.conditions) = .ok clauses ∧
      p.expressions.condition = clauses.phrase? ∧
      List.Forall₂ (Phrase.Test.StandsFor e.surface p.expressions.names p.expressions.values)
        (Phrase.testsOf p.expressions.condition.toList) (Condition.testsOf (steps.flatMap Step.conditions)) ∧
      (p.assignments.map Assignment.value ++
        Phrase.placeholders (Phrase.testsOf p.expressions.condition.toList)).Nodup ∧
      (∀ placeholder, placeholder ∈ p.expressions.names.keys ↔ Grammar.Token.name placeholder ∈ p.tokens) ∧
      ∀ placeholder, placeholder ∈ p.expressions.values.keys ↔ Grammar.Token.value placeholder ∈ p.tokens := by
  obtain ⟨-, -, -, -, hentity₀, hempty⟩ := update_ok hupdate
  obtain ⟨hentity, hsetting, hclauses⟩ := run_ok hrun
  rw [hentity₀] at hentity hsetting hclauses
  rw [clauses_of_update hupdate] at hclauses
  rw [hempty] at hsetting
  subst hentity
  have hof := (Clauses.of_empty u.entity.surface).applyAll hclauses
  have hlinked := Clauses.linked_applyAll hclauses trivial
  obtain ⟨assignments, names, values, hassign⟩ : ∃ assignments names values,
    assign u.clauses.bindings u.writes .empty .empty = (assignments, names, values) := ⟨_, _, _, rfl⟩
  obtain ⟨-, -, hresolves⟩ := assign_resolves hassign (Dict.agrees_empty _)
  obtain ⟨hextends, hextends'⟩ := Expressions.join_extends names values u.clauses
  have hjoined := hresolves.imp fun assignment write hw => And.intro (hextends _ _ hw.1) (hextends' _ _ hw.2)
  obtain ⟨-, hvalues, htaken⟩ := assign_keys hassign
  have hdisjoint : values.Agrees u.clauses.values := Dict.agrees_of_disjoint (by rwa [hvalues])
  have hspelled := assign_spelled hassign (isName_writes (Entity.accepted_of_ofSchema he) hnames hfields)
  have hlists := hof.lists hnames hlinked
  have hkeys := mem_keys_request hassign hof
  obtain ⟨hassigned, hassigned'⟩ := filterMap_assignments assignments
  refine ⟨_, u.clauses, params_eq hset hassign, hsetting, ?_, hclauses, Expressions.join_condition .., ?_, ?_, ?_, ?_⟩
  · rw [mapM_resolve? hjoined, ← u.written_eq]
    rfl
  · rw [Expressions.join_condition, u.clauses.testsOf_phrase?]
    exact Expressions.join_resolves hof (assign_agrees hassign (Dict.agrees_empty _)) hdisjoint
  · rw [Expressions.join_condition, u.clauses.testsOf_phrase?]
    exact nodup_placeholders hassign hof
  · intro placeholder
    rw [(hkeys placeholder).1, ← Grammar.Token.mem_names, UpdateParams.tokens, UpdateParams.tokens_expression hspelled,
      Expressions.join_condition, List.filterMap_append, hlists.names]
    rw [List.filterMap_cons_none rfl, hassigned]
  · intro placeholder
    rw [(hkeys placeholder).2, ← Grammar.Token.mem_values, UpdateParams.tokens, UpdateParams.tokens_expression hspelled,
      Expressions.join_condition, List.filterMap_append, hlists.values]
    rw [List.filterMap_cons_none rfl, hassigned']

/-! ### Attributes named like placeholders -/

/-- One attribute is named like another with a number, and one like the key field of an index. -/
def crowded : Schema where
  service := "s"
  entity := "letter"
  table := "t"
  version := "1"
  attributes := .ofList
    [("id", ⟨none, none, none, false, false, .scalar .string⟩),
      ("a", ⟨none, none, none, false, false, .scalar .string⟩),
      ("a1", ⟨none, none, none, false, false, .scalar .string⟩),
      ("gsi1pk", ⟨none, some "letter", none, false, false, .scalar .string⟩)]
  indexes := .ofList
    [("letter", ⟨none, ⟨"pk", ["id"]⟩, none⟩), ("byA", ⟨some "gsi1", ⟨"gsi1pk", ["a"]⟩, none⟩)]
  filters := .empty

def crowdedSteps : List Step :=
  [.condition (.eq "a" (.string "x")),
    .set (.object [("a1", .string "2"), ("a", .string "0"), ("gsi1pk", .string "3")]),
    .condition (.eq "a1" (.string "y")), .set (.object [("a", .string "1")])]

/-- The theorem for these attributes, where placeholders step aside for others. -/
theorem request_closed_crowded : ∃ e u₀ u p, Entity.ofSchema crowded = .ok e ∧
    e.update (.object [("id", .string "7")]) = .ok u₀ ∧ u₀.run crowdedSteps = .ok u ∧ u.params = .ok p ∧
    p.expression = "SET #a = :a, #a1 = :a12, #gsi1pk = :gsi1pk, #gsi1pk1 = :gsi1pk1" ∧
    p.expressions.condition.map Phrase.text = some "(#a = :a1) AND (#a1 = :a11)" ∧
    p.assignments.mapM (Assignment.resolve? p.expressions.names p.expressions.values) =
      some [("a", .string "1"), ("a1", .string "2"), ("letter", .string "3"), ("gsi1pk", .string "$s_1#a_1")] ∧
    (∀ placeholder, placeholder ∈ p.expressions.names.keys ↔ Grammar.Token.name placeholder ∈ p.tokens) ∧
    ∀ placeholder, placeholder ∈ p.expressions.values.keys ↔ Grammar.Token.value placeholder ∈ p.tokens := by
  have hclosed := @request_closed crowded _ rfl (by decide) (by decide) (.object [("id", .string "7")]) _ _ crowdedSteps
    rfl rfl rfl
  obtain ⟨p, clauses, hparams, -, hassignments, -, -, -, -, hnames, hvalues⟩ := hclosed
  obtain rfl := Except.ok.inj hparams
  exact ⟨_, _, _, _, rfl, rfl, rfl, rfl, by decide, by decide, hassignments, hnames, hvalues⟩

end Update

end SingleTable
