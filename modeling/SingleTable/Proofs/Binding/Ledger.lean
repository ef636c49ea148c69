import SingleTable.Proofs.Binding.Extends

/-! Bindings as a ledger.

Tests are bound one after another, and each writes only behind what is there: no
name and no value that the bindings have is changed or moved (`Binds.appends`).
What they have then is an account of the tests (`Accounts.binds`): the names of
their attributes in the order in which these first occur, and their operands from
left to right, each under a number of its attribute. The numbers of an attribute
increase, and its counter is the last of them. -/
namespace SingleTable

/-- A new name goes to the end, and a name that is there leaves the map as it is. -/
theorem Dict.entries_insertNew {α : Type} (d : Dict α) (key : String) (value : α) :
    (d.insertNew key value).entries = if key ∈ d.keys then d.entries else d.entries ++ [(key, value)] := by
  unfold insertNew
  by_cases h : key ∈ d.keys
  · rw [if_pos (contains_iff.mpr h), if_pos h]
  · rw [if_neg (by rwa [contains_iff]), if_neg h, entries_insert_of_notMem h]

namespace Bindings

variable {surface : Surface} {b b' b'' : Bindings}

/-! ### Tests one after another -/

/-- Some tests lead from bindings to bindings: each binds its name and then its operands. -/
inductive Binds (surface : Surface) : List Condition.Test → Bindings → Bindings → Prop where
  | nil (b : Bindings) : Binds surface [] b b
  | cons {t rest field} {b b' : Bindings} : surface.field t.name = .ok field →
      Binds surface rest ((b.bindName t.name field).mintAll t.name t.operands).2 b' →
      Binds surface (t :: rest) b b'

theorem Binds.append {ts us : List Condition.Test} (h : Binds surface ts b b') (h' : Binds surface us b' b'') :
    Binds surface (ts ++ us) b b'' := by
  induction h with
  | nil => exact h'
  | cons hfield _ ih => exact .cons hfield (ih h')

/-! ### What stays -/

/-- Bindings that go on from others: what these have keeps its place. -/
structure Appends (b b' : Bindings) : Prop where
  names : b.names.entries <+: b'.names.entries
  values : b.values.entries <+: b'.values.entries

theorem Appends.refl (b : Bindings) : b.Appends b := ⟨List.prefix_refl _, List.prefix_refl _⟩

theorem Appends.trans (h : b.Appends b') (h' : b'.Appends b'') : b.Appends b'' :=
  ⟨h.names.trans h'.names, h.values.trans h'.values⟩

theorem appends_bindName (b : Bindings) (name field : String) : b.Appends (b.bindName name field) := by
  refine ⟨?_, List.prefix_refl _⟩
  show b.names.entries <+: (b.names.insertNew _ _).entries
  rw [Dict.entries_insertNew]
  split
  · exact List.prefix_refl _
  · exact List.prefix_append _ _

/-- **An operand goes to the end of the values**, under a number above the counter of its attribute,
which counts up to it. -/
theorem mint_entries (b : Bindings) (name : String) (operand : Json) : ∃ n, b.count name < n ∧
    (b.mint name operand).2.names = b.names ∧
    (b.mint name operand).2.values.entries = b.values.entries ++ [(numbered name n, operand)] ∧
    ∀ other, (b.mint name operand).2.count other = if name = other then n else b.count other := by
  have hmint : b.mint name operand = ((b.mint name operand).1, (b.mint name operand).2) := rfl
  obtain ⟨-, hnew, -, -⟩ := mint_spec hmint
  refine ⟨_, le_firstFree _ _ _, rfl, Dict.entries_insert_of_notMem hnew, fun other => ?_⟩
  show (Dict.get? (Dict.insert _ _ _) other).getD 0 = _
  rw [Dict.get?_insert]
  split <;> rfl

theorem appends_mintAll (b : Bindings) (name : String) (operands : List Json) :
    b.Appends (b.mintAll name operands).2 := by
  induction operands generalizing b with
  | nil => exact .refl b
  | cons operand rest ih =>
    obtain ⟨n, -, hnames, hentries, -⟩ := b.mint_entries name operand
    have hfirst : b.Appends (b.mint name operand).2 := ⟨by simp [hnames], by simp [hentries]⟩
    exact hfirst.trans (ih _)

/-- **Tests keep what is bound, and add behind it.** -/
theorem Binds.appends {ts : List Condition.Test} (h : Binds surface ts b b') : b.Appends b' := by
  induction h with
  | nil => exact .refl _
  | cons _ _ ih => exact ((appends_bindName _ _ _).trans (appends_mintAll _ _ _)).trans ih

/-! ### Numbers -/

/-- An operand that was bound, with its attribute and the number that it got. -/
structure Bound where
  name : String
  number : Nat
  operand : Json

/-- Its entry among the values. -/
def Bound.entry (i : Bound) : String × Json := (numbered i.name i.number, i.operand)

/-- What it was bound for. -/
def Bound.request (i : Bound) : String × Json := (i.name, i.operand)

/-- The numbers that an attribute got, in the order in which it got them. -/
def numbersOf (bound : List Bound) (name : String) : List Nat :=
  (bound.filter fun i => i.name = name).map Bound.number

theorem numbersOf_concat (bound : List Bound) (i : Bound) (name : String) :
    numbersOf (bound ++ [i]) name = numbersOf bound name ++ if i.name = name then [i.number] else [] := by
  unfold numbersOf
  rw [List.filter_append, List.map_append]
  by_cases h : i.name = name <;> simp [h]

/-- The values are the operands that were bound. The numbers of each attribute increase from 0 on, and
its counter is the last of them. -/
structure Numbers (bound : List Bound) (b : Bindings) : Prop where
  entries : b.values.entries = bound.map Bound.entry
  increase : ∀ name, (0 :: numbersOf bound name).Pairwise (· < ·)
  last : ∀ name, (0 :: numbersOf bound name).getLast? = some (b.count name)

theorem numbers_empty : Numbers [] empty := by
  refine ⟨rfl, fun name => List.pairwise_singleton _ _, fun name => rfl⟩

/-- No number is above the last of increasing numbers. -/
theorem le_of_getLast? {numbers : List Nat} {last : Nat} (h : numbers.Pairwise (· < ·))
    (hlast : numbers.getLast? = some last) : ∀ n ∈ numbers, n ≤ last := by
  intro n hn
  obtain ⟨before, rfl⟩ := List.getLast?_eq_some_iff.mp hlast
  rcases List.mem_append.mp hn with hn | hn
  · exact Nat.le_of_lt ((List.pairwise_append.mp h).2.2 n hn last (List.mem_singleton_self _))
  · exact Nat.le_of_eq (List.mem_singleton.mp hn)

/-- One more operand. -/
theorem Numbers.mint {bound : List Bound} (h : Numbers bound b) (name : String) (operand : Json) :
    ∃ n, Numbers (bound ++ [⟨name, n, operand⟩]) (b.mint name operand).2 := by
  obtain ⟨n, hn, -, hentries, hcount⟩ := b.mint_entries name operand
  refine ⟨n, ⟨?_, fun other => ?_, fun other => ?_⟩⟩
  · rw [hentries, h.entries, List.map_append]
    rfl
  · rw [numbersOf_concat]
    by_cases hname : name = other
    · subst hname
      rw [if_pos rfl, ← List.cons_append, List.pairwise_append]
      refine ⟨h.increase name, List.pairwise_singleton _ _, fun m hm k hk => ?_⟩
      have hm := le_of_getLast? (h.increase name) (h.last name) m hm
      rw [List.mem_singleton.mp hk]
      exact Nat.lt_of_le_of_lt hm hn
    · rw [if_neg hname, List.append_nil]
      exact h.increase other
  · rw [numbersOf_concat, hcount]
    by_cases hname : name = other
    · rw [if_pos hname, if_pos hname, ← List.cons_append, List.getLast?_concat]
    · rw [if_neg hname, if_neg hname, List.append_nil]
      exact h.last other

theorem Numbers.mintAll {bound : List Bound} (h : Numbers bound b) (name : String) (operands : List Json) :
    ∃ more, Numbers (bound ++ more) (b.mintAll name operands).2 ∧
      more.map Bound.request = operands.map fun operand => (name, operand) := by
  induction operands generalizing b bound with
  | nil => exact ⟨[], by rwa [List.append_nil], rfl⟩
  | cons operand rest ih =>
    obtain ⟨n, hfirst⟩ := h.mint name operand
    obtain ⟨more, hmore, hrequests⟩ := ih hfirst
    rw [List.append_assoc] at hmore
    exact ⟨⟨name, n, operand⟩ :: more, hmore, by rw [List.map_cons, hrequests]; rfl⟩

/-! ### Accounts -/

/-- The operands of some tests from left to right, each with the attribute that it is for. -/
def requestsOf (tests : List Condition.Test) : List (String × Json) :=
  tests.flatMap fun t => t.operands.map fun operand => (t.name, operand)

/-- The attributes of some tests, in the order in which they first occur. -/
def attributesOf (tests : List Condition.Test) : List String := (tests.map Condition.Test.name).eraseDups

theorem attributesOf_concat (tests : List Condition.Test) (t : Condition.Test) :
    attributesOf (tests ++ [t]) =
      if t.name ∈ attributesOf tests then attributesOf tests else attributesOf tests ++ [t.name] := by
  simp only [attributesOf, List.map_append, List.map_singleton, List.eraseDups_append, List.mem_eraseDups]
  generalize tests.map Condition.Test.name = names
  by_cases h : t.name ∈ names <;> simp [List.removeAll, List.eraseDups_cons, h]

/-- An entry of the names is that of an attribute. -/
def NameEntry (surface : Surface) (entry : String × String) (name : String) : Prop :=
  entry.1 = Placeholder.ofName name ∧ surface.field name = .ok entry.2

/-- Bindings have the names and the operands of some tests, and nothing else. -/
structure Accounts (surface : Surface) (tests : List Condition.Test) (b : Bindings) : Prop where
  names : List.Forall₂ (NameEntry surface) b.names.entries (attributesOf tests)
  values : ∃ bound, Numbers bound b ∧ bound.map Bound.request = requestsOf tests

theorem accounts_empty (surface : Surface) : Accounts surface [] empty := ⟨.nil, [], numbers_empty, rfl⟩

/-- The names that are bound are those of the attributes. -/
theorem mem_keys_of_names {entries : List (String × String)} {names : List String}
    (h : List.Forall₂ (NameEntry surface) entries names) (name : String) :
    Placeholder.ofName name ∈ Assoc.keys entries ↔ name ∈ names := by
  induction h with
  | nil => simp [Assoc.keys]
  | @cons entry other _ _ hentry _ ih =>
    have hsame : Placeholder.ofName name = Placeholder.ofName other ↔ name = other :=
      ⟨ofName_inj, congrArg Placeholder.ofName⟩
    rw [Assoc.keys, List.map_cons, List.mem_cons, List.mem_cons, hentry.1, hsame]
    exact or_congr_right ih

/-- One more test. -/
theorem Accounts.test {tests : List Condition.Test} (h : Accounts surface tests b) {t : Condition.Test} {field : String}
    (hfield : surface.field t.name = .ok field) :
    Accounts surface (tests ++ [t]) ((b.bindName t.name field).mintAll t.name t.operands).2 := by
  obtain ⟨hnames, bound, hnumbers, hrequests⟩ := h
  constructor
  · have hkeep : ((b.bindName t.name field).mintAll t.name t.operands).2.names = (b.bindName t.name field).names :=
      (mintAll_spec rfl).1
    rw [hkeep, attributesOf_concat]
    show List.Forall₂ _ (b.names.insertNew _ _).entries _
    rw [Dict.entries_insertNew]
    have hkeys : Placeholder.ofName t.name ∈ b.names.keys ↔ t.name ∈ attributesOf tests :=
      mem_keys_of_names hnames t.name
    by_cases hname : t.name ∈ attributesOf tests
    · rw [if_pos hname, if_pos (hkeys.mpr hname)]
      exact hnames
    · rw [if_neg hname, if_neg (mt hkeys.mp hname)]
      exact List.rel_append hnames (.cons ⟨rfl, hfield⟩ .nil)
  · have hbindName : Numbers bound (b.bindName t.name field) :=
      ⟨hnumbers.entries, hnumbers.increase, hnumbers.last⟩
    obtain ⟨more, hmore, hnew⟩ := hbindName.mintAll t.name t.operands
    refine ⟨bound ++ more, hmore, ?_⟩
    rw [List.map_append, hrequests, hnew]
    simp [requestsOf]

/-- **What is bound is what the tests ask for.** -/
theorem Accounts.binds {tests ts : List Condition.Test} (h : Accounts surface tests b) (hbinds : Binds surface ts b b') :
    Accounts surface (tests ++ ts) b' := by
  induction hbinds generalizing tests with
  | nil => rwa [List.append_nil]
  | @cons t rest _ _ _ hfield _ ih =>
    have hrest := ih (h.test hfield)
    rwa [List.append_assoc] at hrest

end Bindings

end SingleTable
